import ElfLoader.ElfFormat
import ElfLoader.Heard

/-!
# What a run has heard when a file is parsed

`verdict` is what the checks of `Image::parse` make of a file all of which can be
read.  A run of the parser in which no call fails ends with it, and in a run in
which one does, the call was for the headers.
-/

namespace ElfLoader.Binfmt

open ElfLoader Outcome Prog Elf Layout Loader

/-- What the checks of `Image::parse` make of a file when all of it can be read. -/
def verdict (b : Build) (src : Source) (c : Bytes) : Option (Outcome Reject Image) :=
  (Image.parse b.arch src b.pageSize).eval (I := Host) (sliceHost c)

def HeaderCall (src : Source) (_ : Heard) : HostOp → Prop
  | .readExactAt s _ n => s = src ∧ 0 < n
  | .tryReserve _ => True
  | _ => False

section Parse

variable {b : Build} {f : Source → Bytes} {h : Heard} {src : Source} {α : Type}

theorem failed_hear (hf : h.failed = true) (op : HostOp) (r : op.Res) :
    (hear b f h op r).failed = true := by
  cases op with
  | vm op =>
    cases op with
    | protect a len prot =>
      cases r with
      | ok _ => exact hf
      | error e =>
        simp only [hear]
        split
        · rfl
        · exact hf
    | unmap a len => cases r <;> exact hf
    | icacheSync a len => exact hf
    | freeAligned a len => exact hf
    | _ =>
      cases r with
      | ok _ => exact hf
      | error e => rfl
  | tryReserve n =>
    cases r with
    | true => exact hf
    | false => rfl
  | _ =>
    cases r with
    | ok _ => exact hf
    | error e => rfl

/-- A failure is not forgotten. -/
theorem wp_failed {ε : Type} {p : Prog Host ε α} {pre : Heard → HostOp → Prop}
    {Q : Heard → Outcome ε α → Prop} (hp : wp (hears b f) pre p Q h) (hf : h.failed = true) :
    wp (hears b f) pre p (fun h' r => h'.failed = true ∧ Q h' r) h := by
  induction p generalizing h with
  | done r => exact ⟨hf, hp⟩
  | call op k ih =>
    refine ⟨hp.1, ?_⟩
    rintro r h' hh
    have hfailed : h'.failed = true := by
      rw [hh.2]
      exact failed_hear hf op r
    exact ih r (hp.2 r h' hh) hfailed

/-- Unless a call fails, the answers are those of the file, and the result is the
    verdict on the file. -/
theorem wp_verdict {ε : Type} {p : Prog Host ε α} {Q : Heard → Outcome ε α → Prop}
    (hp : wp (hears b f) (HeaderCall src) p Q h) :
    wp (hears b f) (HeaderCall src) p
      (fun h' r => Q h' r ∧ (h'.failed = false → p.eval (I := Host) (sliceHost (f src)) = some r))
      h := by
  induction p generalizing h with
  | done r => exact ⟨hp, fun _ => rfl⟩
  | call op k ih =>
    refine ⟨hp.1, ?_⟩
    rintro r h' ⟨htrue, rfl⟩
    have hrest := hp.2 r _ ⟨htrue, rfl⟩
    have hcall := hp.1
    -- an answer that is the file's own is the answer the verdict is based on
    have hsame (hr : sliceHost (f src) op = some r) :
        (Prog.call op k).eval (I := Host) (sliceHost (f src)) = (k r).eval (sliceHost (f src)) := by
      simp only [Prog.eval, hr]
    -- after a failure there is nothing to show
    have hfailed (hf : (hear b f h op r).failed = true) :
        wp (hears b f) (HeaderCall src) (k r) (fun h' r' => Q h' r' ∧ (h'.failed = false →
          (Prog.call op k).eval (I := Host) (sliceHost (f src)) = some r')) (hear b f h op r) := by
      refine wp_mono (wp_failed hrest hf) ?_
      rintro h' r' ⟨hf', hQ⟩
      exact ⟨hQ, fun h => absurd (hf'.symm.trans h) (by simp)⟩
    cases op with
    | readExactAt s off n =>
      obtain ⟨rfl, hn⟩ := hcall
      cases r with
      | error e => exact hfailed rfl
      | ok buf =>
        have hbuf : buf.val = bytesAt (f s) off n := htrue
        have hin : off + n ≤ (f s).length := by
          have hlen := buf.property
          rw [hbuf] at hlen
          simp only [bytesAt, List.length_take, List.length_drop] at hlen
          omega
        have hr : sliceHost (f s) (.readExactAt s off n) = some (.ok buf) := by
          simp only [sliceHost, dif_pos hin]
          exact congrArg some (congrArg Except.ok (Subtype.ext hbuf.symm))
        refine wp_mono (ih _ hrest) ?_
        rintro h' r' ⟨hQ, hv⟩
        exact ⟨hQ, fun hf => (hsame hr).trans (hv hf)⟩
    | tryReserve n =>
      cases r with
      | false => exact hfailed rfl
      | true =>
        refine wp_mono (ih _ hrest) ?_
        rintro h' r' ⟨hQ, hv⟩
        exact ⟨hQ, fun hf => (hsame rfl).trans (hv hf)⟩
    | _ => exact absurd hcall (by simp [HeaderCall])

/-! No check behind the identification takes a file for something else than ELF. -/

section Errors

variable {S : Reject → Prop}

theorem onlyErr_checkEhdr (arch : Arch) (ehdr : Ehdr) :
    OnlyErr (· ≠ Reject.notElf) (checkEhdr arch ehdr) := by
  refine onlyErr_index.bind fun _ _ => ?_
  refine OnlyErr.bind (onlyErr_guardErr (by simp)) fun _ _ => ?_
  refine OnlyErr.bind (onlyErr_guardErr (by simp)) fun _ _ => ?_
  refine OnlyErr.bind (onlyErr_guardErr (by simp)) fun _ _ => ?_
  refine OnlyErr.bind (onlyErr_guardErr (by simp)) fun _ _ => ?_
  refine OnlyErr.bind (onlyErr_guardErr (by simp)) fun _ _ => ?_
  refine OnlyErr.bind (onlyErr_guardErr (by simp)) fun _ _ => ?_
  exact OnlyErr.bind (onlyErr_guardErr (by simp)) fun _ _ => onlyErr_guardErr (by simp)

/-! What is checked of numbers alone is malformed if it fails. -/

theorem onlyErr_checkFits (hS : ∀ why, S (.malformed why)) (fin : Nat) (size : Option Nat)
    (why : String) : OnlyErr S (checkFits fin size why) := by
  cases size with
  | none => exact onlyErr_ok
  | some n => exact onlyErr_guardErr (hS why)

theorem onlyErr_checkPhtab (hS : ∀ why, S (.malformed why)) (ehdr : Ehdr) (size : Option Nat) :
    OnlyErr S (checkPhtab ehdr size) := by
  refine OnlyErr.bind (onlyErr_okOr (hS _)) fun _ _ => ?_
  exact OnlyErr.bind (onlyErr_okOr (hS _)) fun _ _ => onlyErr_checkFits hS _ _ _

theorem onlyErr_validateLoad (hS : ∀ why, S (.malformed why)) (ph : Phdr) (page : Nat)
    (size : Option Nat) : OnlyErr S (validateLoad ph page size) := by
  refine OnlyErr.bind (onlyErr_guardErr (hS _)) fun _ _ => ?_
  refine OnlyErr.bind (onlyErr_guardErr (hS _)) fun _ _ => ?_
  refine OnlyErr.bind (onlyErr_guardErr (hS _)) fun _ _ => ?_
  refine OnlyErr.bind (onlyErr_okOr (hS _)) fun _ _ => ?_
  refine OnlyErr.bind (onlyErr_okOr (hS _)) fun _ _ => ?_
  refine OnlyErr.bind (onlyErr_checkFits hS _ _ _) fun _ _ => ?_
  exact U64.onlyErr_sub.bind fun _ _ => onlyErr_guardErr (hS _)

theorem onlyErr_loadKeys (phdrs : List Phdr) (loads : List Nat) :
    OnlyErr S (loadKeys phdrs loads) := by
  induction loads with
  | nil => exact onlyErr_ok
  | cons i rest ih => exact onlyErr_index.bind fun _ _ => ih.bind fun _ _ => onlyErr_ok

theorem onlyErr_sortLoads (phdrs : List Phdr) (loads : List Nat) :
    OnlyErr S (sortLoads phdrs loads) :=
  (onlyErr_loadKeys phdrs loads).bind fun _ _ => onlyErr_ok

theorem onlyErr_checkOverlap (hS : ∀ why, S (.malformed why)) (phdrs : List Phdr) (page : Nat)
    (loads : List Nat) : OnlyErr S (checkOverlap phdrs page loads) := by
  induction loads with
  | nil => exact onlyErr_ok
  | cons i rest ih =>
    cases rest with
    | nil => exact onlyErr_ok
    | cons j rest =>
      refine onlyErr_index.bind fun _ _ => onlyErr_index.bind fun _ _ => ?_
      refine U64.onlyErr_add.bind fun _ _ => ?_
      refine OnlyErr.bind (onlyErr_alignUp _ _) fun _ _ => ?_
      refine OnlyErr.bind (onlyErr_okOr (hS _)) fun _ _ => ?_
      refine OnlyErr.bind (onlyErr_alignDown _ _) fun _ _ => ?_
      refine OnlyErr.bind (onlyErr_alignDown _ _) fun _ _ => ?_
      exact OnlyErr.bind (onlyErr_guardErr (hS _)) fun _ _ => ih

/-! The table of headers may also be unsupported. -/

theorem onlyErr_validateInterp (hS : ∀ why, S (.malformed why))
    {ph : Phdr} {seen : Option Phdr} {size : Option Nat}
    (hseen : seen.isSome = true → S (.unsupported "multiple PT_INTERP")) :
    OnlyErr S (validateInterp ph seen size) := by
  refine OnlyErr.bind ?_ fun _ _ => ?_
  · intro e he
    rw [guardErr_eq_err, not_not] at he
    rw [he.2]
    exact hseen he.1
  refine OnlyErr.bind (onlyErr_guardErr (hS _)) fun _ _ => ?_
  cases size with
  | none => exact onlyErr_ok
  | some n => exact OnlyErr.bind (onlyErr_okOr (hS _)) fun _ _ => onlyErr_checkFits hS _ _ _

theorem onlyErr_classifyOne (hS : ∀ why, S (.malformed why)) (page : Nat) (size : Option Nat)
    {c : Classified} (i : Nat) {ph : Phdr}
    (hseen : ph.pType = PT_INTERP → c.interp.isSome = true →
      S (.unsupported "multiple PT_INTERP")) :
    OnlyErr S (classifyOne page size c i ph) := by
  unfold classifyOne
  split
  · exact (onlyErr_validateLoad hS _ _ _).bind fun _ _ => onlyErr_ok
  · split
    · rename_i htype
      exact (onlyErr_validateInterp hS (hseen htype)).bind fun _ _ => onlyErr_ok
    · repeat' split
      all_goals exact onlyErr_ok

theorem onlyErr_classify (page : Nat) (size : Option Nat) (phdrs : List Phdr) (i : Nat)
    (c : Classified) : OnlyErr (· ≠ Reject.notElf) (classify page size phdrs i c) := by
  induction phdrs generalizing i c with
  | nil => exact onlyErr_ok
  | cons ph rest ih =>
    apply OnlyErr.bind
    · exact onlyErr_classifyOne (by simp) _ _ _ (by simp)
    · exact fun _ _ => ih _ _

theorem onlyErr_assemble (ehdr : Ehdr) (phdrs : List Phdr) (page : Nat) (size : Option Nat) :
    OnlyErr (· ≠ Reject.notElf) (assemble ehdr phdrs page size) := by
  refine (onlyErr_classify _ _ _ _ _).bind fun c _ => ?_
  refine OnlyErr.bind (onlyErr_guardErr (by simp)) fun _ _ => ?_
  refine OnlyErr.bind (onlyErr_sortLoads _ _) fun loads _ => ?_
  exact (onlyErr_checkOverlap (by simp) _ _ _).bind fun _ _ => onlyErr_ok

/-- It is the identification alone that is told from an ELF. -/
theorem onlyErr_checkIdent (ehdr : Ehdr) : OnlyErr (· = Reject.notElf) (checkIdent ehdr) := by
  unfold checkIdent slice
  split
  · refine onlyErr_ok.bind fun _ _ => onlyErr_index.bind fun _ _ => ?_
    exact onlyErr_index.bind fun _ _ => onlyErr_index.bind fun _ _ => onlyErr_guardErr rfl
  · exact onlyErr_panic.bind fun _ h => absurd h (by simp)

end Errors

structure Heard.Fine (h : Heard) : Prop where
  failed : h.failed = false
  noexec : h.noexec = false
  unread : h.unread = false

/-- The executable header of the file opened last was read, and no call has
    failed. -/
structure HeaderRead (f : Source → Bytes) (o : Opened) (h : Heard) (raw : Bytes) (h' : Heard) :
    Prop extends h'.Fine where
  files : h'.files = h.files
  first : h'.first = h.first.or (some raw)
  long : EHDR_SIZE ≤ (f o.src).length

/-- A read while the headers are being read. -/
theorem wp_headerRead {o : Opened} (ho : h.files.getLast? = some o)
    (hin : h.calls < headerCalls (f o.src)) (off : Nat) {n : Nat} (hn : 0 < n) {X : Prop} :
    wp (hears b f) (HeaderCall o.src) (readExactAt o.src off n)
      (post (fun h' buf => buf.val = bytesAt (f o.src) off n ∧
          h' = { h with calls := h.calls + 1, first := h.first.or (some buf.val) })
        (fun h' _ => h'.files = h.files ∧ h'.unread = true) X) h := by
  have hheaders : h.inHeaders f = true := by simp [Heard.inHeaders, ho, hin]
  refine ⟨⟨rfl, hn⟩, ?_⟩
  rintro (e | buf) h' ⟨htrue, rfl⟩
  · exact ⟨rfl, by simp [hear, hheaders]⟩
  · exact ⟨htrue, rfl⟩

theorem wp_readPhdrs {o : Opened} {ehdr : Ehdr} (n i : Nat) (ho : h.files.getLast? = some o)
    (hcalls : h.calls = 2 + i) (hlen : headerCalls (f o.src) = 2 + (i + n))
    (hfirst : h.first.isSome = true) :
    wp (hears b f) (HeaderCall o.src) (readPhdrs o.src ehdr n i)
      (post (fun h' _ => h' = { h with calls := 2 + (i + n) })
        (fun h' r => h'.files = h.files ∧ h'.unread = true ∧ r.toError = Error.ENOEXEC) True)
      h := by
  induction n generalizing i h with
  | zero =>
    refine wp_pure.mpr ?_
    simp only [post_ok, Nat.add_zero, ← hcalls]
  | succ n ih =>
    refine wp_lift_bind (fun skip _ => ?_) (fun e he => ?_) (fun _ => trivial)
    · refine wp_lift_bind (fun off _ => ?_) (fun e he => ?_) (fun _ => trivial)
      · refine wp_bind_post (wp_mapErr_post (wp_post_mono
          (wp_headerRead ho (by omega) off (by decide)) (fun _ _ h => h) ?_)) ?_
        · exact fun h' _ hf => ⟨hf.1, hf.2, rfl⟩
        rintro h' ent ⟨-, rfl⟩
        rw [Phdr.parse_eq ent.property, mapErr_ok, lift_ok_bind]
        have hsame : h.first.or (some ent.val) = h.first := Option.or_of_isSome hfirst
        have ho' : ({ h with calls := h.calls + 1, first := h.first.or (some ent.val) } :
            Heard).files.getLast? = some o := ho
        refine wp_bind_post (ih (i + 1) ho' (by dsimp only; omega) (by omega)
          (by simp)) ?_
        rintro h' rest rfl
        refine wp_pure.mpr ?_
        simp only [post_ok, hsame]
        congr 1
        omega
      · exact absurd he (by unfold U64.add; split <;> simp)
    · exact absurd he (by unfold U64.mul; split <;> simp)

/-- **Reading the headers of a file**: a call fails and the file is refused with
    `ENOEXEC`, or the header is read, and it is the identification alone that tells
    an ELF from another file. -/
theorem wp_parseHeard {o : Opened} (ho : h.files.getLast? = some o) (hcalls : h.calls = 0)
    (hfine : h.Fine) :
    wp (hears b f) (HeaderCall o.src) (Image.parse b.arch o.src b.pageSize)
      (post (fun h' _ => ∃ raw, HeaderRead f o h raw h' ∧ Identified (ehdrAt raw).ident ∧
          h'.inHeaders f = false)
        (fun h' r => (h'.files = h.files ∧ h'.unread = true ∧ r.toError = Error.ENOEXEC) ∨
          ∃ raw, HeaderRead f o h raw h' ∧ (r = .notElf ↔ ¬ Identified (ehdrAt raw).ident)) True)
      h := by
  have hpos : 0 < headerCalls (f o.src) := by
    unfold headerCalls
    split <;> omega
  refine wp_bind_post (wp_mapErr_post (wp_post_mono
    (wp_headerRead ho (by omega) 0 (by decide)) (fun _ _ h => h) ?_)) ?_
  · exact fun h' _ hf => Or.inl ⟨hf.1, hf.2, rfl⟩
  rintro h' raw ⟨hraw, rfl⟩
  have hlong : EHDR_SIZE ≤ (f o.src).length := by
    have hlen := raw.property
    rw [hraw] at hlen
    simp only [bytesAt, List.length_take, List.length_drop] at hlen
    omega
  have hident : (ehdrAt raw.val).ident.length = EI_NIDENT :=
    length_ident _ raw.property.ge
  have hphnum : headerCalls (f o.src) = 2 + (ehdrAt raw.val).ePhnum := by
    rw [headerCalls, if_neg (by omega), hraw, ehdrAt_bytesAt]
  have hread (c : Nat) : HeaderRead f o h raw.val
      { h with calls := c, first := h.first.or (some raw.val) } :=
    ⟨⟨hfine.failed, hfine.noexec, hfine.unread⟩, rfl, rfl, hlong⟩
  rw [Ehdr.parse_eq raw.property, mapErr_ok, lift_ok_bind]
  refine wp_lift_bind ?_ ?_ (fun _ => trivial)
  · intro _ hid
    have hid := (checkIdent_eq_ok hident).mp hid
    -- from here on an error is not `NotElf`
    have hother {r : Reject} (hr : r ≠ .notElf) :
        r = .notElf ↔ ¬ Identified (ehdrAt raw.val).ident :=
      ⟨fun h => absurd h hr, fun h => absurd hid h⟩
    refine wp_lift_bind (fun _ _ => ?_)
      (fun r hr => Or.inr ⟨_, hread _, hother (onlyErr_checkEhdr _ _ r hr)⟩) (fun _ => trivial)
    refine wp_lift_bind (fun _ _ => ?_)
      (fun r hr => Or.inr ⟨_, hread _, hother (onlyErr_checkPhtab (S := (· ≠ Reject.notElf))
        (by simp) _ _ r hr)⟩) (fun _ => trivial)
    refine wp_bind.mpr (wp_ask.mpr ⟨trivial, ?_⟩)
    rintro (_ | _) h' ⟨-, rfl⟩
    · refine Or.inl ⟨rfl, ?_, rfl⟩
      simp [hear, Heard.inHeaders, ho, hphnum, hcalls]
      omega
    · refine wp_bind_err (wp_readPhdrs _ 0 ho (by simp [hear, hcalls])
        (by rw [hphnum]; omega) (by simp [hear])) (fun h' r hf => Or.inl ⟨hf.1, hf.2.1, hf.2.2⟩) ?_
      rintro h' phdrs rfl
      refine wp_lift_post (fun image _ => ?_)
        (fun r hr => Or.inr ⟨_, hread _, hother (onlyErr_assemble _ _ _ _ r hr)⟩) (fun _ => trivial)
      refine ⟨_, hread _, hid, ?_⟩
      simp [Heard.inHeaders, ho, hear, hphnum]
  · intro r hr
    have hno : ¬ Identified (ehdrAt raw.val).ident := by
      intro hid
      rw [(checkIdent_eq_ok (u := ()) hident).mpr hid] at hr
      cases hr
    exact Or.inr ⟨_, hread _, ⟨fun _ => hno, fun _ => onlyErr_checkIdent _ r hr⟩⟩

end Parse

end ElfLoader.Binfmt
