import ElfLoader.Machine
import ElfLoader.Verdict

/-!
# The return codes of the `libukbinfmt` loader

`ENOEXEC` is for files that are not ELF: `elfrs_binfmt_load` turns it into
`NOT_HANDLED`, and the next loader is tried.  But more than one thing ends with
`ENOEXEC`.  `NotElf` and `Mislabelled` say of the answers of the environment and of
the files which inputs the code reports as not its own, and the run ends with
`ENOEXEC` on exactly these.
-/

namespace ElfLoader.Binfmt

open ElfLoader Outcome Prog Elf Layout Loader Program Auxv

/-! ### Which inputs are reported as not handled -/

/-- The string of a `PT_INTERP` is terminated, and not empty. -/
def IsPath (bs : Bytes) : Prop := 0 ∈ bs ∧ bs.head? ≠ some 0

instance (bs : Bytes) : Decidable (IsPath bs) := inferInstanceAs (Decidable (_ ∧ _))

/-- The requested file is no ELF: it is too short for a header, or its header was
    read and fails identification. -/
def NotElf (f : Source → Bytes) (h : Heard) : Prop :=
  ∃ o, h.files.head? = some o ∧ ((f o.src).length < EHDR_SIZE ∨
    ∃ raw, h.first = some raw ∧ ¬ Identified (ehdrAt raw).ident)

section Refused

variable (b : Build) (f : Source → Bytes) (h : Heard)

/-- An accepted program that cannot be started: its interpreter is not named
    properly, or it is too long for the address space. -/
def Unloadable (o : Opened) (image : Image) : Prop :=
  (∃ ph, image.interp = some ph ∧ ¬ IsPath (bytesAt (f o.src) ph.pOffset ph.pFilesz)) ∨
    (AddressSpace.Mapped b o.fd ∨ image.ehdr.eType = ET_DYN) ∧ ¬ SpanFits b.page image

/-- The program is an ELF, but malformed, or it is accepted and every call
    succeeds, but it cannot be started. -/
def ProgramRefused (o : Opened) : Prop :=
  (∃ why, verdict b o.src (f o.src) = some (err (.malformed why))) ∨
    ∃ image, verdict b o.src (f o.src) = some (ok image) ∧ image.execStack = false ∧
      h.failed = false ∧ Unloadable b f o image

/-- The interpreter is no ELF, or malformed, not position-independent, asks for an
    interpreter itself, or is too long for the address space. -/
def InterpRefused (o : Opened) : Prop :=
  verdict b o.src (f o.src) = some (err .notElf) ∨
    (∃ why, verdict b o.src (f o.src) = some (err (.malformed why))) ∨
    ∃ image, verdict b o.src (f o.src) = some (ok image) ∧
      (image.ehdr.eType ≠ ET_DYN ∨ image.needsInterp = true ∨
        h.failed = false ∧ ¬ SpanFits b.page image)

/-- The program is refused for its bytes if it is an ELF file that is neither
    unsupported nor passes the checks. -/
theorem programRefused_iff (o : Opened) : ProgramRefused b f h o ↔
    (IsElf (f o.src) ∧ ¬ Unsupported b.arch b.page o.src.size (f o.src) ∧
        ¬ Passing b.arch b.page o.src.size (f o.src)) ∨
      ∃ image, verdict b o.src (f o.src) = some (ok image) ∧ image.execStack = false ∧
        h.failed = false ∧ Unloadable b f o image := by
  rw [ProgramRefused, verdict_eq_malformed]

/-- An interpreter is refused for its bytes whether it is an ELF file or not. -/
theorem interpRefused_iff (o : Opened) : InterpRefused b f h o ↔
    (¬ Unsupported b.arch b.page o.src.size (f o.src) ∧
        ¬ Passing b.arch b.page o.src.size (f o.src)) ∨
      ∃ image, verdict b o.src (f o.src) = some (ok image) ∧
        (image.ehdr.eType ≠ ET_DYN ∨ image.needsInterp = true ∨
          h.failed = false ∧ ¬ SpanFits b.page image) := by
  have hun : Unsupported b.arch b.page o.src.size (f o.src) → IsElf (f o.src) := Unsupported.isElf
  have hpass : Passing b.arch b.page o.src.size (f o.src) → IsElf (f o.src) := Passing.isElf
  rw [InterpRefused, verdict_eq_notElf, verdict_eq_malformed, ← or_assoc]
  refine or_congr_left ?_
  tauto

/-- The run has met an input that ends with `ENOEXEC` although the requested file
    may be an ELF. -/
def Mislabelled : Prop :=
  h.noexec = true ∨ h.unread = true ∨ (∃ o ∈ h.files.head?, ProgramRefused b f h o) ∨
    ∃ o ∈ h.files[1]?, InterpRefused b f h o

end Refused

/-! ### The stages of a load -/

/-- The load ends with `ENOEXEC` exactly on the inputs that were named. -/
def Told (b : Build) (f : Source → Bytes) (h : Heard) (e : Error) : Prop :=
  e = Error.ENOEXEC ↔ NotElf f h ∨ Mislabelled b f h

/-- The files have passed all checks: from now on only the answer of a call can
    make the load end with `ENOEXEC`. -/
def Settled (b : Build) (f : Source → Bytes) (h : Heard) : Prop :=
  ∃ h₀, Clear f h₀ h ∧
    ∀ h', Calm f h₀ h' → (NotElf f h' ∨ Mislabelled b f h' ↔ h'.noexec = true)

/-- The requested file is an ELF that the parser accepts. -/
structure ProgramRead (b : Build) (f : Source → Bytes) (o : Opened) (image : Image) (h : Heard) :
    Prop where
  file : h.files.head? = some o
  long : EHDR_SIZE ≤ (f o.src).length
  identified : ∃ raw, h.first = some raw ∧ Identified (ehdrAt raw).ident
  verdict : verdict b o.src (f o.src) = some (ok image)

section Stages

variable {b : Build} {f : Source → Bytes} {h h₀ h' : Heard} {o : Opened} {image : Image}

theorem Settled.noexec_eq (hs : Settled b f h) : ¬ (NotElf f h ∨ Mislabelled b f h) := by
  obtain ⟨h₀, hc, hcodes⟩ := hs
  rw [hcodes h hc.toCalm, hc.noexec]
  simp

theorem Settled.told (hs : Settled b f h) {e : Error} (he : e ≠ Error.ENOEXEC) : Told b f h e :=
  ⟨fun h => absurd h he, fun h => absurd h hs.noexec_eq⟩

theorem Settled.passes {α : Type} {p : Prog Host Error α} (hs : Settled b f h)
    (hp : ∀ h₀, Passes b f h₀ p) :
    wp (hears b f) (fun _ _ => True) p
      (post (fun h' _ => Settled b f h') (fun h' e => Told b f h' e) True) h := by
  obtain ⟨h₀, hc, hcodes⟩ := hs
  refine wp_post_mono (hp h₀ h hc) (fun h' _ hc' => ⟨h₀, hc', hcodes⟩) ?_
  rintro h' e ⟨hcalm, he⟩
  exact he.trans (hcodes h' hcalm).symm

theorem ProgramRead.later (hp : ProgramRead b f o image h) (hfiles : h'.files.head? = some o)
    (hfirst : h'.first = h.first) : ProgramRead b f o image h' :=
  ⟨hfiles, hp.long, hfirst ▸ hp.identified, hp.verdict⟩

theorem ProgramRead.valid (hp : ProgramRead b f o image h) : image.Valid b.page :=
  Accepted.valid ⟨o.src, eval_reaches hp.verdict⟩

/-- An accepted program is an ELF. -/
theorem ProgramRead.not_notElf (hp : ProgramRead b f o image h) : ¬ NotElf f h := by
  rintro ⟨o', ho', hshort | ⟨raw, hraw, hno⟩⟩
  · rw [hp.file] at ho'
    cases ho'
    have := hp.long
    omega
  · obtain ⟨raw', hraw', hid⟩ := hp.identified
    rw [hraw'] at hraw
    cases hraw
    exact hno hid

theorem ProgramRead.refused_iff (hp : ProgramRead b f o image h) :
    ProgramRefused b f h o ↔
      image.execStack = false ∧ h.failed = false ∧ Unloadable b f o image := by
  simp [ProgramRefused, hp.verdict]

/-- What is left to be reported as not handled once the program is accepted. -/
theorem ProgramRead.codes_one (hp : ProgramRead b f o image h) (hfiles : h.files = [o])
    (hun : h.unread = false) :
    NotElf f h ∨ Mislabelled b f h ↔
      h.noexec = true ∨ image.execStack = false ∧ h.failed = false ∧ Unloadable b f o image := by
  simp [Mislabelled, hp.not_notElf, hun, hfiles, hp.refused_iff]

/-- What is left once the program is loaded and its interpreter was opened. -/
theorem ProgramRead.codes_two (hp : ProgramRead b f o image h) {o' : Opened}
    (hfiles : h.files = [o, o']) (hun : h.unread = false) (hload : ¬ Unloadable b f o image) :
    NotElf f h ∨ Mislabelled b f h ↔ h.noexec = true ∨ InterpRefused b f h o' := by
  simp [Mislabelled, hp.not_notElf, hun, hfiles, hp.refused_iff, hload]

/-! The parser, with the verdict on the file. -/

theorem wp_parseFile (ho : h.files.getLast? = some o) (hcalls : h.calls = 0) (hfine : h.Fine) :
    wp (hears b f) (fun _ _ => True)
      ((Image.parse b.arch o.src b.pageSize).mapErr Reject.toError)
      (post (fun h' image => ∃ raw, HeaderRead f o h raw h' ∧ Identified (ehdrAt raw).ident ∧
          h'.inHeaders f = false ∧ verdict b o.src (f o.src) = some (ok image))
        (fun h' e => (h'.files = h.files ∧ h'.unread = true ∧ e = Error.ENOEXEC) ∨
          ∃ raw r, HeaderRead f o h raw h' ∧ (r = .notElf ↔ ¬ Identified (ehdrAt raw).ident) ∧
            verdict b o.src (f o.src) = some (err r) ∧ e = r.toError) True) h := by
  refine wp_mapErr_post ?_
  have hparse := wp_verdict (wp_parseHeard (b := b) (f := f) ho hcalls hfine)
  refine wp_pre_mono (wp_mono hparse ?_) fun _ _ _ => trivial
  rintro h' (image | r | _) ⟨hpost, hverdict⟩
  · obtain ⟨raw, hread, hid, hpast⟩ := hpost
    exact ⟨raw, hread, hid, hpast, hverdict hread.failed⟩
  · rcases hpost with hfail | ⟨raw, hread, hid⟩
    · exact Or.inl hfail
    · exact Or.inr ⟨raw, r, hread, hid, hverdict hread.failed, rfl⟩
  · trivial

/-- Which rejections become `ENOEXEC`. -/
theorem toError_eq_noexec {r : Reject} :
    r.toError = Error.ENOEXEC ↔ r = .notElf ∨ ∃ why, r = .malformed why := by
  cases r with
  | notElf => simp [Reject.toError]
  | malformed why => simp [Reject.toError]
  | unsupported why => simp [Reject.toError, Error.ENOTSUP, Error.ENOEXEC]

theorem wp_openPath (path : Bytes) :
    wp (hears b f) (fun _ _ => True) (openPath path)
      (post (fun h' o => h' = { h with files := h.files ++ [o], calls := 0 })
        (fun h' e => h' = h.fail e) True) h := by
  refine ⟨trivial, ?_⟩
  rintro (e | o) h' ⟨-, rfl⟩
  · rfl
  · rfl

/-- The end of the part of `load_program` that reads the program's own headers. -/
theorem wp_readProgram (ho : h.files = [o]) (hcalls : h.calls = 0) (hfine : h.Fine)
    (hfirst : h.first = none) :
    wp (hears b f) (fun _ _ => True)
      ((Image.parse b.arch o.src b.pageSize).mapErr Reject.toError)
      (post (fun h' image => h'.files = [o] ∧ Clear f h' h' ∧ ProgramRead b f o image h')
        (fun h' e => Told b f h' e) True) h := by
  refine wp_post_mono (wp_parseFile (by simp [ho]) hcalls hfine) ?_ ?_
  · rintro h' image ⟨raw, hread, hid, hpast, hv⟩
    have hraw : h'.first = some raw := by rw [hread.first, hfirst, Option.none_or]
    have hfiles : h'.files = [o] := hread.files.trans ho
    refine ⟨hfiles, ⟨⟨rfl, rfl, by simp [hraw], hread.unread, hpast⟩, hread.failed, hread.noexec⟩, ?_⟩
    exact ⟨by simp [hfiles], hread.long, ⟨raw, hraw, hid⟩, hv⟩
  · rintro h' e (⟨hfiles, hun, rfl⟩ | ⟨raw, r, hread, hid, hv, rfl⟩)
    · exact ⟨fun _ => Or.inr (Or.inr (Or.inl hun)), fun _ => rfl⟩
    · have hraw : h'.first = some raw := by rw [hread.first, hfirst, Option.none_or]
      have hfiles : h'.files = [o] := hread.files.trans ho
      have hnot : NotElf f h' ↔ r = .notElf := by
        rw [hid]
        simp only [NotElf, hfiles, hraw, List.head?_cons, Option.some.injEq]
        constructor
        · rintro ⟨_, rfl, hshort | ⟨_, rfl, hno⟩⟩
          · exact absurd hread.long (by omega)
          · exact hno
        · exact fun hno => ⟨o, rfl, Or.inr ⟨raw, rfl, hno⟩⟩
      have hmis : Mislabelled b f h' ↔ ∃ why, r = .malformed why := by
        simp [Mislabelled, ProgramRefused, hread.noexec, hread.unread, hfiles, hv]
      rw [Told, toError_eq_noexec, hnot, hmis]

/-- The search for the first zero finds a path, or none. -/
theorem isPath_of_findIdx? {bs : Bytes} {n : Nat} (hn : bs.findIdx? (· == 0) = some (n + 1)) :
    IsPath bs := by
  cases bs with
  | nil => simp at hn
  | cons x rest =>
    obtain ⟨hlt, hz, hbefore⟩ := List.findIdx?_eq_some_iff_getElem.mp hn
    refine ⟨?_, ?_⟩
    · rw [← beq_iff_eq.mp hz]
      exact List.getElem_mem hlt
    · have := hbefore 0 (by omega)
      simpa using this

theorem not_isPath_of_findIdx? {bs : Bytes}
    (hn : bs.findIdx? (· == 0) = some 0 ∨ bs.findIdx? (· == 0) = none) : ¬ IsPath bs := by
  rintro ⟨hmem, hhead⟩
  rcases hn with hn | hn
  · obtain ⟨hlt, hz, -⟩ := List.findIdx?_eq_some_iff_getElem.mp hn
    cases bs with
    | nil => simp at hlt
    | cons x rest => exact hhead (by simpa using hz)
  · have := List.findIdx?_eq_none_iff.mp hn 0 hmem
    simp at this

/-- The `PT_INTERP` string: a call fails, or the string is not a path. -/
theorem wp_interpPathOf (hc : Clear f h₀ h) :
    wp (hears b f) (fun _ _ => True) (interpPathOf image o.src)
      (post (fun h' _ => Clear f h₀ h' ∧
          ∀ ph, image.interp = some ph → IsPath (bytesAt (f o.src) ph.pOffset ph.pFilesz))
        (fun h' e => Calm f h₀ h' ∧
          ((h'.failed = true ∧ (e = Error.ENOEXEC ↔ h'.noexec = true)) ∨
            h'.failed = false ∧ e = Error.ENOEXEC ∧ ∃ ph, image.interp = some ph ∧
              ¬ IsPath (bytesAt (f o.src) ph.pOffset ph.pFilesz))) True) h := by
  unfold interpPathOf Image.interpPath Image.needsInterp
  cases hinterp : image.interp with
  | none => exact ⟨hc, by simp⟩
  | some ph =>
    simp only [Option.isSome_some, if_true, okOr_some, lift_ok_bind, Option.some.injEq,
      forall_eq', exists_eq_left']
    refine wp_bind_post (P := fun h' _ => Clear f h₀ h' ∧
      IsPath (bytesAt (f o.src) ph.pOffset ph.pFilesz)) ?_ (fun _ _ h => h)
    refine wp_bind_err (wp_tryReserve hc _ (by decide)) (fun _ _ h => ⟨h.1, Or.inl h.2⟩) ?_
    intro h₁ _ hc₁
    refine wp_bind_err (wp_readExactAt hc₁ _ _ _) (fun _ _ h => ⟨h.1, Or.inl h.2⟩) ?_
    rintro h₂ buf ⟨hc₂, hbuf⟩
    rw [← hbuf]
    have hbad (hno : ¬ IsPath buf.val) :
        Calm f h₀ h₂ ∧ ((h₂.failed = true ∧ (Error.ENOEXEC = Error.ENOEXEC ↔ h₂.noexec = true)) ∨
          h₂.failed = false ∧ Error.ENOEXEC = Error.ENOEXEC ∧ ¬ IsPath buf.val) :=
      ⟨hc₂.toCalm, Or.inr ⟨hc₂.failed, rfl, hno⟩⟩
    cases hidx : buf.val.findIdx? (· == 0) with
    | none => exact hbad (not_isPath_of_findIdx? (Or.inr hidx))
    | some n =>
      cases n with
      | zero => exact hbad (not_isPath_of_findIdx? (Or.inl hidx))
      | succ n => exact ⟨hc₂, isPath_of_findIdx? hidx⟩

/-- The program itself: it is refused with `ENOEXEC` if it does not fit, and
    otherwise only by a call that fails so. -/
theorem wp_loadMain (hfiles : h₀.files = [o]) (hp : ProgramRead b f o image h₀)
    (hstack : image.execStack = false) (hc : Clear f h₀ h)
    (hpath : ∀ ph, image.interp = some ph → IsPath (bytesAt (f o.src) ph.pOffset ph.pFilesz)) :
    wp (hears b f) (fun _ _ => True) (Loader.load b image o.src o.fd)
      (post (fun h' _ => Clear f h₀ h' ∧ ¬ Unloadable b f o image) (fun h' e => Told b f h' e)
        True) h := by
  have hcodes {h' : Heard} (hcalm : Calm f h₀ h') :=
    (hp.later (hcalm.files ▸ hp.file) hcalm.first).codes_one (hcalm.files.trans hfiles) hcalm.unread
  have hun : Unloadable b f o image ↔
      (AddressSpace.Mapped b o.fd ∨ image.ehdr.eType = ET_DYN) ∧ ¬ SpanFits b.page image := by
    refine ⟨fun h => h.resolve_left ?_, Or.inr⟩
    rintro ⟨ph, hph, hno⟩
    exact hno (hpath ph hph)
  by_cases hspan : SpanFits b.page image
  · have hok : ¬ Unloadable b f o image := by simp [hun, hspan]
    refine wp_post_mono (passes_load hp.valid hspan (by simp [hfiles]) h hc)
      (fun h' _ hc' => ⟨hc', hok⟩) ?_
    rintro h' e ⟨hcalm, he⟩
    rw [Told, hcodes hcalm, he]
    simp [hok]
  · rw [load_of_not_spanFits hp.valid hspan]
    split
    · rename_i hway
      refine ⟨fun _ => (hcodes hc.toCalm).mpr ?_, fun _ => rfl⟩
      exact Or.inr ⟨hstack, hc.failed, hun.mpr ⟨hway, hspan⟩⟩
    · rename_i hway
      change Told b f h Error.ENOTSUP
      rw [Told, hcodes hc.toCalm, hun]
      simp [hc.noexec, hway, Error.ENOTSUP, Error.ENOEXEC]

/-- The interpreter, once its headers have been accepted: the checks that are left
    are reported as `ENOEXEC`. -/
theorem wp_acceptedInterp {image' : Image} (hc : Clear f h h) (ho : h.files.getLast? = some o)
    (hv : verdict b o.src (f o.src) = some (ok image'))
    (hcodes : ∀ h', Calm f h h' →
      (NotElf f h' ∨ Mislabelled b f h' ↔ h'.noexec = true ∨ InterpRefused b f h' o)) :
    wp (hears b f) (fun _ _ => True) (do
      guardErr (¬ image'.ehdr.eType ≠ ET_DYN) Error.ENOEXEC
      guardErr (¬ image'.needsInterp = true) Error.ENOEXEC
      let loaded ← Loader.load b image' o.src o.fd
      pure (image', loaded) : Prog Host Error (Image × Loaded))
      (post (fun h' _ => Settled b f h') (fun h' e => Told b f h' e) True) h := by
  have hvalid : image'.Valid b.page := Accepted.valid ⟨o.src, eval_reaches hv⟩
  have hrefused (h' : Heard) : InterpRefused b f h' o ↔ image'.ehdr.eType ≠ ET_DYN ∨
      image'.needsInterp = true ∨ h'.failed = false ∧ ¬ SpanFits b.page image' := by
    simp [InterpRefused, hv]
  have htold (hr : InterpRefused b f h o) : Told b f h Error.ENOEXEC :=
    ⟨fun _ => (hcodes h hc.toCalm).mpr (Or.inr hr), fun _ => rfl⟩
  by_cases hdyn : image'.ehdr.eType = ET_DYN
  · rw [guardErr_of (by simpa using hdyn), lift_ok_bind]
    by_cases hno : image'.needsInterp = true
    · rw [guardErr_of_not (by simpa using hno), lift_err_bind]
      exact htold ((hrefused h).mpr (Or.inr (Or.inl hno)))
    · rw [guardErr_of hno, lift_ok_bind]
      by_cases hspan : SpanFits b.page image'
      · have hfine (h' : Heard) (hcalm : Calm f h h') :
            NotElf f h' ∨ Mislabelled b f h' ↔ h'.noexec = true := by
          rw [hcodes h' hcalm, hrefused]
          simp [hdyn, hno, hspan]
        refine wp_bind_err (passes_load hvalid hspan ho h hc) ?_
          fun h' _ hc' => ⟨h, hc', hfine⟩
        rintro h' e ⟨hcalm, he⟩
        exact he.trans (hfine h' hcalm).symm
      · rw [load_of_not_spanFits hvalid hspan, if_pos (Or.inr hdyn)]
        exact htold ((hrefused h).mpr (Or.inr (Or.inr ⟨hc.failed, hspan⟩)))
  · rw [guardErr_of_not (by simpa using hdyn), lift_err_bind]
    exact htold ((hrefused h).mpr (Or.inl hdyn))

/-- The interpreter: every check that it fails is reported as `ENOEXEC`. -/
theorem wp_loadInterp (hfiles : h₀.files = [o]) (hp : ProgramRead b f o image h₀)
    (hload : ¬ Unloadable b f o image) (hc : Clear f h₀ h) (path : Bytes) :
    wp (hears b f) (fun _ _ => True) (loadInterp b path)
      (post (fun h' _ => Settled b f h') (fun h' e => Told b f h' e) True) h := by
  refine wp_bind_err (wp_openPath path) ?_ ?_
  · rintro h' e rfl
    have hcalm := hc.toCalm.fail e
    rw [Told, (hp.later (hcalm.files ▸ hp.file) hcalm.first).codes_one (hcalm.files.trans hfiles)
      hcalm.unread, hc.fail_iff e]
    simp [hload]
  rintro h₁ o' rfl
  have hopened : h.files ++ [o'] = [o, o'] := by rw [hc.files, hfiles, List.singleton_append]
  rw [hopened]
  have hfirst : h.first.isSome = true := hc.first ▸ hc.first_some
  -- whatever is heard from now on, the program has been accepted
  have hcodes {h' : Heard} (hfiles' : h'.files = [o, o']) (hfirst' : h'.first = h.first)
      (hun : h'.unread = false) :=
    (hp.later (show h'.files.head? = some o by simp [hfiles'])
      (hfirst'.trans hc.first)).codes_two hfiles' hun hload
  refine wp_bind_err (wp_parseFile (o := o') rfl rfl
    ⟨hc.failed, hc.noexec, hc.unread⟩) ?_ ?_
  · rintro h' e (⟨-, hunread, rfl⟩ | ⟨raw, r, hread, -, hv, rfl⟩)
    · exact ⟨fun _ => Or.inr (Or.inr (Or.inl hunread)), fun _ => rfl⟩
    · rw [Told, hcodes hread.files (hread.first.trans (Option.or_of_isSome hfirst)) hread.unread,
        toError_eq_noexec]
      simp [hread.noexec, InterpRefused, hv]
  rintro h' image' ⟨raw, hread, -, hpast, hv⟩
  have hsame : h'.first = h.first := hread.first.trans (Option.or_of_isSome hfirst)
  refine wp_acceptedInterp ⟨⟨rfl, rfl, ?_, hread.unread, hpast⟩, hread.failed, hread.noexec⟩
    ?_ hv fun h'' hcalm => ?_
  · rw [hsame]
    exact hfirst
  · rw [hread.files]
    rfl
  · exact hcodes (hcalm.files.trans hread.files) (hcalm.first.trans hsame) hcalm.unread

/-- A stage that fails gives the program back, and reports what it has heard. -/
theorem wp_attempt_told {α β : Type} {p : Prog Host Error α} {k : Except Error α → Prog Host Error β}
    {undo : Prog Host Error Unit}
    (hp : wp (hears b f) (fun _ _ => True) p
      (post (fun h' _ => Settled b f h') (fun h' e => Told b f h' e) True) h)
    (hok : ∀ h' a, Settled b f h' → wp (hears b f) (fun _ _ => True) (k (.ok a))
      (post (fun h' _ => Settled b f h') (fun h' e => Told b f h' e) True) h')
    (herr : ∀ e, k (.error e) = (do undo; .done (.err e))) (hundo : Unheard b f undo) :
    wp (hears b f) (fun _ _ => True) (p.attempt >>= k)
      (post (fun h' _ => Settled b f h') (fun h' e => Told b f h' e) True) h := by
  refine wp_attempt_post hp (fun h' a hs => hok h' a hs) ?_
  intro h' e he
  rw [herr]
  exact hundo.next fun _ => he

theorem wp_loadProgram (path : Bytes) :
    wp (hears b f) (fun _ _ => True) (loadProgram b path)
      (post (fun h' _ => Settled b f h') (fun h' e => Told b f h' e) True) {} := by
  refine wp_bind_err (wp_openPath path) ?_ ?_
  · rintro h' e rfl
    simp [Told, NotElf, Mislabelled, Heard.fail]
  rintro h₁ o rfl
  refine wp_bind_post (wp_readProgram (o := o) rfl rfl ⟨rfl, rfl, rfl⟩ rfl) ?_
  rintro h₀ image ⟨hfiles, hc, hp⟩
  by_cases hstack : image.execStack = true
  · rw [checkStackRequest, guardErr_of_not (by simpa using hstack), lift_err_bind]
    change Told b f h₀ Error.ENOTSUP
    rw [Told, hp.codes_one hfiles hc.unread]
    simp [hc.noexec, hstack, Error.ENOTSUP, Error.ENOEXEC]
  rw [checkStackRequest, guardErr_of hstack, lift_ok_bind]
  rw [Bool.not_eq_true] at hstack
  refine wp_bind_err (wp_interpPathOf (o := o) hc) ?_ ?_
  · rintro h' e ⟨hcalm, hend⟩
    rw [Told, (hp.later (hcalm.files ▸ hp.file) hcalm.first).codes_one (hcalm.files.trans hfiles)
      hcalm.unread]
    rcases hend with ⟨hfailed, he⟩ | ⟨hfailed, rfl, hbad⟩
    · simp [he, hfailed]
    · simp [hstack, hfailed, Unloadable, hbad]
  rintro h' ip ⟨hc', hpath⟩
  refine wp_bind_post (wp_loadMain hfiles hp hstack hc' hpath) ?_
  rintro h'' main ⟨hc'', hload⟩
  refine wp_lift_bind (fun _ _ => ?_)
    (fun e he => (U64.onlyErr_sub (S := fun _ => False) e he).elim) (fun _ => trivial)
  refine wp_lift_bind (fun _ _ => ?_)
    (fun e he => (onlyErr_entryIsExecutable (S := fun _ => False) e he).elim) (fun _ => trivial)
  refine wp_bind_post (P := fun h' _ => Settled b f h') ?_ fun h' _ hs => hs
  have hsettled : Settled b f h'' := by
    refine ⟨h₀, hc'', fun h' hcalm => ?_⟩
    rw [(hp.later (hcalm.files ▸ hp.file) hcalm.first).codes_one (hcalm.files.trans hfiles)
      hcalm.unread]
    simp [hload]
  cases ip with
  | none => exact hsettled
  | some ip =>
    exact wp_attempt_told (wp_loadInterp hfiles hp hload hc'' ip) (fun h' v hs => hs)
      (fun _ => rfl) (unheard_unload main)

end Stages

/-! ### The stack, and the return code -/

section Load

variable {b : Build} {f : Source → Bytes} {h h₀ : Heard}

theorem unheard_unloadProgram (p : LoadedProgram) : Unheard b f p.unload := by
  intro h
  unfold LoadedProgram.unload
  cases p.interp with
  | none => exact unheard_unload p.main h
  | some v =>
    apply (unheard_unload v.2).next
    intro _
    exact unheard_unload p.main h

theorem wp_load (sys : System) (args : Args) :
    wp (hears b f) (fun _ _ => True) (load b sys args)
      (post (fun h' _ => Settled b f h') (fun h' e => Told b f h' e) True) {} := by
  refine wp_bind_post (wp_loadProgram args.pathname) ?_
  intro h loaded hs
  split
  · apply (unheard_unloadProgram loaded).next
    intro _
    exact hs.told (by decide)
  · refine wp_lift_bind (fun aux _ => ?_) (fun e he => (onlyErr_auxv (S := fun _ => False) e he).elim)
      (fun _ => trivial)
    exact wp_attempt_told (hs.passes fun h₀ => passes_buildStack _ _ _ _) (fun _ _ hs => hs)
      (fun _ => rfl) (unheard_unloadProgram loaded)

/-- The codes of `elfrs_binfmt_load`: `NOT_HANDLED` is for the requested file that is
    no ELF, and any other failure is a negative error number. -/
def RightCode (f : Source → Bytes) (h : Heard) (out : Int × Option Handover) : Prop :=
  (out.1 = NOT_HANDLED → NotElf f h) ∧
    (out.2 = none → ¬ NotElf f h → out.1 < 0 ∧ ∃ e : Error, out.1 = e.asNeg)

theorem asNeg_ne_notHandled (e : Error) : e.asNeg ≠ NOT_HANDLED := by
  have := e.asNeg_neg
  simp only [NOT_HANDLED]
  omega

/-- A file is reported as not handled on exactly the inputs that were named, and
    every other failure as an error number. -/
theorem wp_elfrsBinfmtLoad {ε : Type} (sys : System) (args : Args) :
    wp (hears b f) (fun _ _ => True) (elfrsBinfmtLoad (ε := ε) b sys args)
      (post (fun h' out => (out.1 = NOT_HANDLED ↔ NotElf f h' ∨ Mislabelled b f h') ∧
          (out.2 = none → out.1 = NOT_HANDLED ∨ out.1 < 0 ∧ ∃ e : Error, out.1 = e.asNeg))
        (fun _ _ => True) True) {} := by
  refine wp_attempt_post (wp_load sys args) ?_ ?_
  · intro h v hs
    refine wp_pure.mpr ⟨⟨fun hrc => ?_, fun h => absurd h hs.noexec_eq⟩, by simp⟩
    exact absurd hrc (show HANDLED ≠ NOT_HANDLED by decide)
  · intro h e he
    dsimp only
    by_cases hno : e = Error.ENOEXEC
    · rw [if_pos hno]
      exact ⟨⟨fun _ => he.mp hno, fun _ => rfl⟩, fun _ => Or.inl rfl⟩
    · rw [if_neg hno]
      exact ⟨⟨fun hrc => absurd hrc (asNeg_ne_notHandled e), fun h => absurd (he.mpr h) hno⟩,
        fun _ => Or.inr ⟨e.asNeg_neg, e, rfl⟩⟩

end Load

/-- A run with any environment that reads files truthfully is a run with what it
    has told. -/
theorem reaches_hears {σ ε α : Type} {b : Build} {f : Source → Bytes} {H : Handler Host σ}
    (hH : ∀ s op r s', H s op r s' → Truthful f op r) {p q : Prog Host ε α} {s s' : σ}
    {tr : List (Event Host)} (hrun : Reaches H s p tr s' q) (h : Heard) :
    Reaches (hears b f) h p tr (tr.foldl (fun h e => hear b f h e.1 e.2) h) q :=
  Reaches.noted (G := hears b f) hrun (hear b f) (fun _ _ _ _ _ hop => ⟨hH _ _ _ _ hop, rfl⟩) h

/-- **When the codes of `elfrs_binfmt_load` are right.**  For every content of the
    files, every answer of the environment and all arguments: exactly if the
    requested file is no ELF, or the run has met none of the inputs that are taken
    for one that is not. -/
theorem binfmt_codes_right_iff {σ ε : Type} (b : Build) (f : Source → Bytes) (sys : System)
    (args : Args) {H : Handler Host σ} (hH : ∀ s op r s', H s op r s' → Truthful f op r)
    {s s' : σ} {tr : List (Event Host)} {out : Int × Option Handover}
    (hrun : Reaches H s (elfrsBinfmtLoad (ε := ε) b sys args) tr s' (.done (.ok out))) :
    RightCode f (heardOf b f tr) out ↔
      NotElf f (heardOf b f tr) ∨ ¬ Mislabelled b f (heardOf b f tr) := by
  obtain ⟨hiff, hother⟩ := wp_reaches (wp_elfrsBinfmtLoad sys args) (reaches_hears hH hrun {})
  change out.1 = NOT_HANDLED ↔ NotElf f (heardOf b f tr) ∨ Mislabelled b f (heardOf b f tr) at hiff
  constructor
  · rintro ⟨hright, -⟩
    by_cases hmis : Mislabelled b f (heardOf b f tr)
    · exact Or.inl (hright (hiff.mpr (Or.inr hmis)))
    · exact Or.inr hmis
  · intro hcond
    have hright : out.1 = NOT_HANDLED → NotElf f (heardOf b f tr) := fun hrc =>
      (hiff.mp hrc).elim id fun hmis => hcond.resolve_right (not_not.mpr hmis)
    refine ⟨hright, fun hnone hno => ?_⟩
    exact (hother hnone).resolve_left fun hrc => hno (hright hrc)

/-! ### Two files -/

section Small

open AddressSpace

/-- An address space reads its files truthfully. -/
theorem truthful_of_step (pg : PageSize) (w : World) (s : Space) (op : HostOp) (r : op.Res)
    (s' : Space) (h : step pg w s op r s') : Truthful (fun src => w.bytes src.handle) op r := by
  cases op with
  | readExactAt src off n =>
    cases r with
    | ok buf => exact h.1
    | error e => trivial
  | _ => trivial

def smallBinfmt (ε : Type) : Prog Host ε (Int × Option Handover) :=
  elfrsBinfmtLoad ⟨.x86_64, page4K, true⟩ ⟨0, 0, 0, [], ⟨List.replicate 16 1, rfl⟩, (0, 0)⟩
    ⟨[], [], 0, none, 0, none, 0x8000, 0x1000⟩

def smallExec (f : Bytes) : List (Event Host) × Space × Outcome Empty (Int × Option Handover) :=
  (smallBinfmt Empty).run (I := Host) ((machine f 4).exec page4K) emptySpace

def smallHeard (f : Bytes) : Heard :=
  heardOf ⟨.x86_64, page4K, true⟩ (fun _ => f) (smallExec f).1

theorem smallExec_reaches {f : Bytes} {out : Int × Option Handover}
    (h : (smallExec f).2.2 = ok out) :
    Reaches (step page4K (oneFile f)) emptySpace (smallBinfmt Empty) (smallExec f).1
      (smallExec f).2.1 (.done (ok out)) := by
  rw [← h]
  exact (machine f 4).reaches page4K _ emptySpace

def smallScript : Bytes := [0x23, 0x21, 0x2f]

/-- A script is for the next loader. -/
theorem small_script_not_handled :
    (smallExec smallScript).2.2 = ok (NOT_HANDLED, none) ∧
      RightCode (fun _ => smallScript) (smallHeard smallScript) (NOT_HANDLED, none) := by
  have hout : (smallExec smallScript).2.2 = ok (NOT_HANDLED, none) := by decide +kernel
  refine ⟨hout, (binfmt_codes_right_iff _ _ _ _ (truthful_of_step page4K (oneFile smallScript))
    (smallExec_reaches hout)).mpr (Or.inl ?_)⟩
  exact ⟨⟨⟨0, some 3⟩, some 3⟩, by decide +kernel, Or.inl (by decide)⟩

def smallHeader : Bytes := buildElf .x86_64 ET_DYN 0 [] []

theorem identified_smallHeader : Identified (ehdrAt smallHeader).ident :=
  ⟨by decide +kernel, by decide +kernel, by decide +kernel, by decide +kernel⟩

/-- A malformed ELF is reported as none. -/
theorem small_header_not_handled :
    Reaches (step page4K (oneFile smallHeader)) emptySpace (smallBinfmt Empty)
        (smallExec smallHeader).1 (smallExec smallHeader).2.1 (.done (ok (NOT_HANDLED, none))) ∧
      Identified (ehdrAt smallHeader).ident ∧
      ¬ RightCode (fun _ => smallHeader) (smallHeard smallHeader) (NOT_HANDLED, none) := by
  refine ⟨smallExec_reaches (by decide +kernel), identified_smallHeader, ?_⟩
  rintro ⟨hright, -⟩
  have hfirst : (smallHeard smallHeader).first = some smallHeader := by decide +kernel
  have hlen : ¬ smallHeader.length < EHDR_SIZE := by decide +kernel
  obtain ⟨o, -, hshort | ⟨raw, hraw, hno⟩⟩ := hright rfl
  · exact hlen hshort
  · cases hfirst.symm.trans hraw
    exact hno identified_smallHeader

end Small

end ElfLoader.Binfmt
