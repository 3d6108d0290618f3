import ElfLoader.HeardParse

/-!
# The verdict on a file, from its bytes

`verdict` runs the parser.  Here its result is read off the bytes: which files are
no ELF, which ELF files are unsupported and which are accepted.  All others are
malformed.
-/

namespace ElfLoader.Binfmt

open ElfLoader Outcome Prog Elf

/-! ### The kinds of files -/

/-- There is a header, and it identifies an ELF file of 64 bits. -/
def IsElf (f : Bytes) : Prop := EHDR_SIZE ≤ f.length ∧ Identified (ehdrAt f).ident

/-- The header asks for something that is not supported.  The version is looked at
    before the number of program headers. -/
def UnsupportedHeader (arch : Arch) (ehdr : Ehdr) : Prop :=
  (∃ abi, ehdr.ident[EI_OSABI]? = some abi ∧ ¬ OsAbiOk abi) ∨ ehdr.eMachine ≠ EM_NATIVE arch ∨
    (ehdr.eType ≠ ET_DYN ∧ ehdr.eType ≠ ET_EXEC) ∨ ehdr.eVersion = 1 ∧ ehdr.ePhnum = PN_XNUM

/-- After `seen` interpreters the headers name one more, and those in front of it
    pass their checks. -/
def SecondInterp (pg : PageSize) (size : Option Nat) (seen : Nat) (phdrs : List Phdr) : Prop :=
  ∃ pre ph post, phdrs = pre ++ ph :: post ∧ ph.pType = PT_INTERP ∧ interpCount pre + seen = 1 ∧
    (∀ q ∈ pre, q.pType = PT_LOAD → LoadOk pg.bytes size q) ∧
    ∀ q ∈ pre, q.pType = PT_INTERP → InterpOk size q

section Kinds

variable (arch : Arch) (pg : PageSize) (size : Option Nat) (f : Bytes)

/-- The header is good, and the table it describes can be read. -/
structure HeaderGood : Prop where
  present : EHDR_SIZE ≤ f.length
  header : HeaderOk arch size (ehdrAt f)
  inside : TableInside f (ehdrAt f) 0 (ehdrAt f).ePhnum

/-- An ELF file that asks for something that is not supported. -/
def Unsupported : Prop :=
  (IsElf f ∧ UnsupportedHeader arch (ehdrAt f)) ∨
    HeaderGood arch size f ∧ SecondInterp pg size 0 (phdrsAt f)

/-- A file that passes every check. -/
def Passing : Prop :=
  HeaderGood arch size f ∧ ∃ loads, LoadTable pg size (phdrsAt f) loads

variable {arch pg size f}

theorem HeaderGood.isElf (h : HeaderGood arch size f) : IsElf f := ⟨h.present, h.header.identified⟩

theorem Unsupported.isElf (h : Unsupported arch pg size f) : IsElf f :=
  h.elim (fun h => h.1) fun h => h.1.isElf

theorem Passing.isElf (h : Passing arch pg size f) : IsElf f := h.1.isElf

end Kinds

/-! ### What the checks refuse as unsupported -/

def IsUnsupported {α : Type} (r : Outcome Reject α) : Prop := ∃ why, r = err (.unsupported why)

section Unsupported

variable {α β : Type} {arch : Arch} {pg : PageSize} {size : Option Nat} {f : Bytes}

@[simp] theorem not_isUnsupported_ok (a : α) : ¬ IsUnsupported (ok a) := by
  simp [IsUnsupported]

@[simp] theorem isUnsupported_err {r : Reject} :
    IsUnsupported (err r : Outcome Reject α) ↔ ∃ why, r = .unsupported why := by
  simp [IsUnsupported]

theorem isUnsupported_bind {x : Outcome Reject α} {g : α → Outcome Reject β} :
    IsUnsupported (x >>= g) ↔ IsUnsupported x ∨ ∃ a, x = ok a ∧ IsUnsupported (g a) := by
  cases x <;> simp [IsUnsupported]

theorem isUnsupported_guardErr {c : Prop} [Decidable c] {r : Reject} :
    IsUnsupported (guardErr c r) ↔ ¬ c ∧ ∃ why, r = .unsupported why := by
  unfold guardErr
  split <;> simp_all

/-- What is refused as malformed alone is not unsupported. -/
theorem not_isUnsupported {x : Outcome Reject α}
    (h : OnlyErr (fun r => ∃ why, r = .malformed why) x) : ¬ IsUnsupported x := by
  rintro ⟨why, hx⟩
  obtain ⟨why', hr⟩ := h _ hx
  cases hr

theorem checkEhdr_isUnsupported {ehdr : Ehdr} (h : ehdr.ident.length = EI_NIDENT) :
    IsUnsupported (checkEhdr arch ehdr) ↔ UnsupportedHeader arch ehdr := by
  have hlen : EI_OSABI < ehdr.ident.length := by rw [h]; decide
  have habi : ehdr.ident[EI_OSABI]? = some ehdr.ident[EI_OSABI] := List.getElem?_eq_getElem hlen
  simp only [checkEhdr, index_of_lt hlen, ok_bind, isUnsupported_bind, isUnsupported_guardErr,
    guardErr_eq_ok, UnsupportedHeader, habi, Option.some.injEq, exists_eq_left', OsAbiOk,
    Reject.unsupported.injEq, exists_eq', and_true, reduceCtorEq, exists_const, and_false,
    or_false, false_or, not_not]
  tauto

/-- One turn of the loop finds a header unsupported if it is a second interpreter. -/
theorem classifyOne_isUnsupported {c : Classified} {i : Nat} {ph : Phdr} :
    IsUnsupported (classifyOne pg.bytes size c i ph) ↔
      ph.pType = PT_INTERP ∧ c.interp.isSome = true := by
  constructor
  · rintro ⟨why, hr⟩
    have hS := onlyErr_classifyOne (S := fun r => (∃ why, r = .malformed why) ∨
      ph.pType = PT_INTERP ∧ c.interp.isSome = true) (fun why => Or.inl ⟨why, rfl⟩)
      pg.bytes size i (fun htype hseen => Or.inr ⟨htype, hseen⟩) _ hr
    exact hS.resolve_left (by simp)
  · rintro ⟨htype, hseen⟩
    have hne : PT_INTERP ≠ PT_LOAD := by decide
    refine ⟨"multiple PT_INTERP", ?_⟩
    simp [classifyOne, validateInterp, htype, hseen, hne, guardErr_of_not]

/-- The loop stops at the second interpreter, if it comes so far. -/
theorem classify_isUnsupported (phdrs : List Phdr) (i : Nat) (c : Classified) :
    IsUnsupported (classify pg.bytes size phdrs i c) ↔
      SecondInterp pg size c.interp.toList.length phdrs := by
  induction phdrs generalizing i c with
  | nil => simp [classify, SecondInterp]
  | cons ph rest ih =>
    have hone : c.interp.isSome = true ↔ c.interp.toList.length = 1 := by
      cases c.interp <;> simp
    rw [classify, isUnsupported_bind, classifyOne_isUnsupported]
    constructor
    · rintro (⟨htype, hseen⟩ | ⟨c', hc', hrest⟩)
      · exact ⟨[], ph, rest, rfl, htype, by simpa [interpCount] using hone.mp hseen, by simp,
          by simp⟩
      · obtain ⟨hload, hinterp, rfl⟩ := (classifyOne_eq_ok pg).mp hc'
        obtain ⟨pre, ph', post, rfl, htype, hcount, hloads, hinterps⟩ := (ih _ _).mp hrest
        refine ⟨ph :: pre, ph', post, rfl, htype, ?_, List.forall_mem_cons.mpr ⟨hload, hloads⟩,
          List.forall_mem_cons.mpr ⟨fun h => (hinterp h).2, hinterps⟩⟩
        by_cases h : ph.pType = PT_INTERP
        · rw [collectOne_interp_eq c i h] at hcount
          simpa [interpCount, List.countP_cons, h, (hinterp h).1] using hcount
        · rw [collectOne_interp_ne c i h] at hcount
          simpa [interpCount, List.countP_cons, h] using hcount
    · rintro ⟨pre, ph', post, hsplit, htype, hcount, hloads, hinterps⟩
      cases pre with
      | nil =>
        obtain ⟨rfl, rfl⟩ : ph = ph' ∧ rest = post := by simpa using hsplit
        exact Or.inl ⟨htype, hone.mpr (by simpa [interpCount] using hcount)⟩
      | cons q pre =>
        obtain ⟨rfl, rfl⟩ : ph = q ∧ rest = pre ++ ph' :: post := by simpa using hsplit
        rw [List.forall_mem_cons] at hloads hinterps
        simp only [interpCount, List.countP_cons] at hcount
        have hfirst (h : ph.pType = PT_INTERP) : c.interp = none := by
          rw [if_pos (by simpa using h)] at hcount
          cases hc : c.interp with
          | none => rfl
          | some seen => simp [hc] at hcount
        refine Or.inr ⟨_, (classifyOne_eq_ok pg).mpr
          ⟨hloads.1, fun h => ⟨hfirst h, hinterps.1 h⟩, rfl⟩, (ih _ _).mpr
          ⟨pre, ph', post, rfl, htype, ?_, hloads.2, hinterps.2⟩⟩
        by_cases h : ph.pType = PT_INTERP
        · rw [collectOne_interp_eq c i h]
          simpa [interpCount, h, hfirst h] using hcount
        · rw [collectOne_interp_ne c i h]
          simpa [interpCount, h] using hcount

theorem assemble_isUnsupported {ehdr : Ehdr} {phdrs : List Phdr} :
    IsUnsupported (assemble ehdr phdrs pg.bytes size) ↔ SecondInterp pg size 0 phdrs := by
  rw [assemble, isUnsupported_bind, classify_isUnsupported]
  refine or_iff_left ?_
  rintro ⟨c, -, hrest⟩
  refine not_isUnsupported ?_ hrest
  refine OnlyErr.bind (onlyErr_guardErr ⟨_, rfl⟩) fun _ _ => ?_
  refine OnlyErr.bind (onlyErr_sortLoads _ _) fun loads _ => ?_
  exact (onlyErr_checkOverlap (fun why => ⟨why, rfl⟩) _ _ _).bind fun _ _ => onlyErr_ok

end Unsupported

/-! ### The checks over the bytes -/

section Bytes

variable {arch : Arch} {pg : PageSize} {size : Option Nat} {f : Bytes}

/-- The checks in front of the table pass exactly for a good header. -/
theorem headerGood_iff (hlong : EHDR_SIZE ≤ f.length) (hid : Identified (ehdrAt f).ident) :
    HeaderGood arch size f ↔ checkEhdr arch (ehdrAt f) = ok () ∧
      checkPhtab (ehdrAt f) size = ok () ∧ TableInside f (ehdrAt f) 0 (ehdrAt f).ePhnum := by
  have hident : (ehdrAt f).ident.length = EI_NIDENT := length_ident f hlong
  have hheader : _ ↔ HeaderOk arch size (ehdrAt f) := checkHeader_eq_ok (u := ()) hident
  rw [(checkIdent_eq_ok (u := ()) hident).mpr hid, ok_bind, bind_eq_ok] at hheader
  constructor
  · intro h
    obtain ⟨_, heh, htab⟩ := hheader.mpr h.header
    exact ⟨heh, htab, h.inside⟩
  · rintro ⟨heh, htab, hin⟩
    exact ⟨hlong, hheader.mp ⟨(), heh, htab⟩, hin⟩

theorem parseBytes_ne_panic : parseBytes arch pg size f ≠ panic := by
  refine bind_ne_panic guardErr_ne_panic fun _ hlong => ?_
  have hident : (ehdrAt f).ident.length = EI_NIDENT :=
    length_ident f (guardErr_eq_ok.mp hlong)
  refine bind_ne_panic (checkIdent_ne_panic hident) fun _ _ => ?_
  refine bind_ne_panic (checkEhdr_ne_panic hident) fun _ _ => ?_
  refine bind_ne_panic checkPhtab_ne_panic fun _ _ => ?_
  exact bind_ne_panic guardErr_ne_panic fun _ _ => assemble_ne_panic pg _ _ _

/-- A file that is no ELF is refused as such. -/
theorem parseBytes_of_not_isElf (h : ¬ IsElf f) : parseBytes arch pg size f = err .notElf := by
  by_cases hlong : EHDR_SIZE ≤ f.length
  · have hident : (ehdrAt f).ident.length = EI_NIDENT := length_ident f hlong
    rw [parseBytes, guardErr_of hlong, ok_bind]
    cases hid : checkIdent (ehdrAt f) with
    | ok u => exact absurd ⟨hlong, (checkIdent_eq_ok hident).mp hid⟩ h
    | err r => rw [onlyErr_checkIdent _ r hid, err_bind]
    | panic => exact absurd hid (checkIdent_ne_panic hident)
  · rw [parseBytes, guardErr_of_not hlong, err_bind]

/-- The checks of an ELF file, behind its identification. -/
theorem parseBytes_of_isElf (h : IsElf f) :
    parseBytes arch pg size f = (do
      checkEhdr arch (ehdrAt f)
      checkPhtab (ehdrAt f) size
      guardErr (TableInside f (ehdrAt f) 0 (ehdrAt f).ePhnum)
        (.malformed "truncated program header table")
      assemble (ehdrAt f) (phdrsAt f) pg.bytes size) := by
  have hident : (ehdrAt f).ident.length = EI_NIDENT := length_ident f h.1
  rw [parseBytes, guardErr_of h.1, ok_bind, (checkIdent_eq_ok (u := ()) hident).mpr h.2, ok_bind]

theorem parseBytes_notElf : parseBytes arch pg size f = err .notElf ↔ ¬ IsElf f := by
  refine ⟨fun hr h => ?_, parseBytes_of_not_isElf⟩
  have hother : OnlyErr (· ≠ Reject.notElf) (parseBytes arch pg size f) := by
    rw [parseBytes_of_isElf h]
    refine (onlyErr_checkEhdr _ _).bind fun _ _ => ?_
    refine (onlyErr_checkPhtab (by simp) _ _).bind fun _ _ => ?_
    exact OnlyErr.bind (onlyErr_guardErr (by simp)) fun _ _ => onlyErr_assemble _ _ _ _
  exact hother _ hr rfl

theorem parseBytes_isUnsupported :
    IsUnsupported (parseBytes arch pg size f) ↔ Unsupported arch pg size f := by
  by_cases h : IsElf f
  · rw [parseBytes_of_isElf h, Unsupported, headerGood_iff h.1 h.2]
    have hident : (ehdrAt f).ident.length = EI_NIDENT := length_ident f h.1
    have hphtab : ¬ IsUnsupported (checkPhtab (ehdrAt f) size) :=
      not_isUnsupported (onlyErr_checkPhtab (fun why => ⟨why, rfl⟩) _ _)
    have hunit {x : Outcome Reject Unit} : (∃ u, x = ok u) ↔ x = ok () :=
      ⟨fun ⟨(), hx⟩ => hx, fun hx => ⟨(), hx⟩⟩
    simp [isUnsupported_bind, checkEhdr_isUnsupported hident, hphtab, isUnsupported_guardErr,
      assemble_isUnsupported, h, and_assoc, hunit]
  · have hun : ¬ Unsupported arch pg size f := fun hun => h hun.isElf
    simp [parseBytes_of_not_isElf h, hun]

theorem parseBytes_ok :
    (∃ image, parseBytes arch pg size f = ok image) ↔ Passing arch pg size f := by
  by_cases h : IsElf f
  · simp only [parseBytes_of_isElf h, Passing, headerGood_iff h.1 h.2, bind_eq_ok,
      guardErr_eq_ok, assemble_eq_ok pg]
    constructor
    · rintro ⟨image, _, heh, _, htab, _, hin, loads, htable, -⟩
      exact ⟨⟨heh, htab, hin⟩, loads, htable⟩
    · rintro ⟨⟨heh, htab, hin⟩, loads, htable⟩
      exact ⟨_, _, heh, _, htab, (), hin, loads, htable, rfl⟩
  · have hpass : ¬ Passing arch pg size f := fun hpass => h hpass.isElf
    simp [parseBytes_of_not_isElf h, hpass]

/-- Whatever is left is malformed. -/
theorem parseBytes_malformed :
    (∃ why, parseBytes arch pg size f = err (.malformed why)) ↔
      IsElf f ∧ ¬ Unsupported arch pg size f ∧ ¬ Passing arch pg size f := by
  have hnot : parseBytes arch pg size f = err .notElf ↔ ¬ IsElf f := parseBytes_notElf
  rw [← not_not (a := IsElf f), ← hnot, ← parseBytes_isUnsupported, ← parseBytes_ok]
  cases hr : parseBytes arch pg size f with
  | ok image => simp
  | err r => cases r <;> simp
  | panic => exact absurd hr parseBytes_ne_panic

end Bytes

/-! ### The verdict -/

section Verdict

variable (b : Loader.Build) (src : Source) (c : Bytes)

/-- The verdict on a file is that of the checks over its bytes. -/
theorem verdict_eq : verdict b src c = some (parseBytes b.arch b.page src.size c) :=
  eval_parse b.arch src b.page c

theorem verdict_eq_notElf : verdict b src c = some (err .notElf) ↔ ¬ IsElf c := by
  rw [verdict_eq, Option.some.injEq, parseBytes_notElf]

theorem verdict_eq_unsupported :
    (∃ why, verdict b src c = some (err (.unsupported why))) ↔
      Unsupported b.arch b.page src.size c := by
  simp only [verdict_eq, Option.some.injEq]
  exact parseBytes_isUnsupported

theorem verdict_eq_ok :
    (∃ image, verdict b src c = some (ok image)) ↔ Passing b.arch b.page src.size c := by
  simp only [verdict_eq, Option.some.injEq]
  exact parseBytes_ok

theorem verdict_eq_malformed :
    (∃ why, verdict b src c = some (err (.malformed why))) ↔
      IsElf c ∧ ¬ Unsupported b.arch b.page src.size c ∧ ¬ Passing b.arch b.page src.size c := by
  simp only [verdict_eq, Option.some.injEq]
  exact parseBytes_malformed

end Verdict

/-- With the size of the file known, the files that pass are the loadable ones. -/
theorem passing_iff_loadable (arch : Arch) (pg : PageSize) (f : Slice) :
    Passing arch pg (some f.val.length) f.val ↔ Loadable arch pg f.val := by
  constructor
  · rintro ⟨hgood, loads, htable⟩
    exact (decoded_of_parseSlice (parseSlice_of_table hgood.present hgood.header htable)).loadable
  · intro h
    have hheader := h.header f.property
    have hinside : TableInside f.val (ehdrAt f.val) 0 (ehdrAt f.val).ePhnum :=
      tableInside_of_le hheader.phentsize (by rw [Nat.zero_add]; exact hheader.phtab_le _ rfl)
    exact ⟨⟨h.present, hheader, hinside⟩, h.table f.property⟩

end ElfLoader.Binfmt
