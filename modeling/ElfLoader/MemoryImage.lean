import ElfLoader.LoadResult
import ElfLoader.Machine

/-!
# The memory image of a program

Whichever path it takes, a successful load shows the same bytes: those of the
file, and zeros behind them up to the end of the last page.  On the mmap path
every page of the reservation also has exactly the protection its header asks
for, and none if no header claims it.
-/

namespace ElfLoader.AddressSpace

open ElfLoader Outcome Prog Elf Layout Loader

/-! ### Contents -/

/-- What a segment has to show in memory when it is moved by `bias`. -/
structure Reference (pg : PageSize) (f : Bytes) (bias : Nat) (ph : Phdr) (mem : Nat → UInt8) :
    Prop where
  file : ∀ k < ph.pFilesz, f[ph.pOffset + k]? = some (mem (ph.pVaddr + bias + k))
  zero : ∀ x, ph.pVaddr + bias + ph.pFilesz ≤ x →
    x < roundUp pg.bytes (ph.pVaddr + bias + ph.pMemsz) → mem x = 0

/-- `load` returned `l` for the image of the file `f`; the source reads this file,
    and so does the descriptor if there is one. -/
structure SuccessfulLoad (b : Build) (f : Bytes) (image : Image) (w : World) (src : Source)
    (fd : Option Int) (s s' : Space) (l : Loaded) : Prop where
  accepted : parseSlice b.arch f b.page = some (ok image)
  source : w.bytes src.handle = f
  descriptor : ∀ d ∈ fd, w.fdBytes d = f
  run : ∃ tr, Reaches (step b.page w) s (load b image src fd) tr s' (.done (ok l))

section Contents

variable {pg : PageSize} {f : Bytes} {bias : Nat} {ph : Phdr}

theorem Shown.reference {s : Space} (h : Shown pg f bias ph s) (hdvd : pg.bytes ∣ bias)
    (hfile : ph.pOffset + ph.pFilesz ≤ f.length) : Reference pg f bias ph s.mem := by
  constructor
  · intro k hk
    rw [h.file k hk, List.getD_eq_getElem?_getD, List.getElem?_eq_getElem (by omega),
      Option.getD_some]
  · intro x hlo hhi
    rw [roundUp_fin hdvd] at hhi
    exact h.rest x hlo hhi

/-- Two memories that show a segment agree on all of it. -/
theorem Reference.agree {bias' : Nat} {mem mem' : Nat → UInt8} (hdvd : pg.bytes ∣ bias)
    (hdvd' : pg.bytes ∣ bias') (h : Reference pg f bias ph mem)
    (h' : Reference pg f bias' ph mem') {k : Nat} (hk : ph.pVaddr + k < ph.fin pg) :
    mem (ph.pVaddr + bias + k) = mem' (ph.pVaddr + bias' + k) := by
  by_cases hfile : k < ph.pFilesz
  · exact Option.some.inj ((h.file k hfile).symm.trans (h'.file k hfile))
  · rw [h.zero _ (by omega) (by rw [roundUp_fin hdvd]; omega),
      h'.zero _ (by omega) (by rw [roundUp_fin hdvd']; omega)]

end Contents

section Load

variable {b : Build} {f : Bytes} {image : Image} {w : World} {src : Source} {fd : Option Int}
  {s s' : Space} {l : Loaded}

theorem LoadedOk.shown (h : LoadedOk b w image src fd s l s') (hsrc : w.bytes src.handle = f)
    (hfd : ∀ d ∈ fd, w.fdBytes d = f) {i : Nat} (hi : i ∈ image.loads) :
    Shown b.page f l.plan.bias (image.seg i) s' := by
  cases h with
  | mapped fd' hfd' _ h => exact hfd fd' hfd' ▸ (h.segs i hi).1
  | copied _ h => exact hsrc ▸ (h.segs i hi).1

/-- A successful load shows every segment, at a bias that is a multiple of the
    page. -/
theorem SuccessfulLoad.reference (h : SuccessfulLoad b f image w src fd s s' l) :
    b.page.bytes ∣ l.plan.bias ∧ ∀ ph ∈ image.phdrs, ph.pType = PT_LOAD →
      Reference b.page f l.plan.bias ph s'.mem := by
  have hdec := decoded_of_parseSlice h.accepted
  obtain ⟨tr, hrun⟩ := h.run
  obtain ⟨⟨hp, -⟩, hok⟩ := load_run hdec.valid hrun
  refine ⟨hp.dvd_bias, ?_⟩
  intro ph hph htype
  have hfile := (hdec.table.load_ok ph hph htype).file_le _ rfl
  obtain ⟨i, hi, rfl⟩ := hdec.valid.exists_seg hph htype
  exact (hok.shown h.source h.descriptor hi).reference hp.dvd_bias hfile

/-- **One memory image on either path.**  Every successful load of a file the
    parser accepts shows, segment by segment, the bytes of the file and zeros behind
    them; so any two loads agree byte for byte on every segment, whatever their
    paths, their addresses and what was there before. -/
theorem load_shows_reference_image (h : SuccessfulLoad b f image w src fd s s' l) :
    (∀ ph ∈ image.phdrs, ph.pType = PT_LOAD → Reference b.page f l.plan.bias ph s'.mem) ∧
    ∀ b₂ w₂ src₂ fd₂ s₂ s₂' l₂, b₂.page = b.page →
      SuccessfulLoad b₂ f image w₂ src₂ fd₂ s₂ s₂' l₂ →
      ∀ ph ∈ image.phdrs, ph.pType = PT_LOAD → ∀ k, ph.pVaddr + k < ph.fin b.page →
        s'.mem (ph.pVaddr + l.plan.bias + k) = s₂'.mem (ph.pVaddr + l₂.plan.bias + k) := by
  obtain ⟨hdvd, href⟩ := h.reference
  refine ⟨href, ?_⟩
  intro b₂ w₂ src₂ fd₂ s₂ s₂' l₂ hpage h₂ ph hph htype k hk
  obtain ⟨hdvd₂, href₂⟩ := h₂.reference
  rw [hpage] at hdvd₂ href₂
  exact (href ph hph htype).agree hdvd hdvd₂ (href₂ ph hph htype) hk

end Load

def smallRun (canMapFiles : Bool) : List (Event Host) × Space × Outcome Error Loaded :=
  (load ⟨.x86_64, page4K, canMapFiles⟩ (smallImage 0x1100) ⟨0, none⟩ (some 3)).run (I := Host)
    ((machine (smallElf 0x1100) 4).exec page4K) emptySpace

def smallLoaded (canMapFiles : Bool) : Loaded :=
  if canMapFiles then ⟨planFor page4K (smallImage 0x1100) (.at 0x10000), false⟩
  else ⟨planFor page4K (smallImage 0x1100) (.at 0x100000), true⟩

theorem smallLoaded_bias :
    (smallLoaded true).plan.bias = 0xf000 ∧ (smallLoaded false).plan.bias = 0xff000 := by
  decide +kernel

theorem smallRun_ok (canMapFiles : Bool) :
    (smallRun canMapFiles).2.2 = ok (smallLoaded canMapFiles) := by
  cases canMapFiles <;> decide +kernel

theorem smallRun_reaches (canMapFiles : Bool) :
    Reaches (step page4K (oneFile (smallElf 0x1100))) emptySpace
      (load ⟨.x86_64, page4K, canMapFiles⟩ (smallImage 0x1100) ⟨0, none⟩ (some 3))
      (smallRun canMapFiles).1 (smallRun canMapFiles).2.1 (.done (ok (smallLoaded canMapFiles))) := by
  rw [← smallRun_ok]
  exact (machine (smallElf 0x1100) 4).reaches page4K _ _

/-- Mapped and copied, the first instruction of the small program is the same. -/
theorem small_paths_agree :
    (smallRun true).2.1.mem 0x10100 = (smallRun false).2.1.mem 0x100100 := by
  have hload (canMapFiles : Bool) : SuccessfulLoad ⟨.x86_64, page4K, canMapFiles⟩
      (smallElf 0x1100) (smallImage 0x1100) (oneFile (smallElf 0x1100)) ⟨0, none⟩ (some 3)
      emptySpace (smallRun canMapFiles).2.1 (smallLoaded canMapFiles) :=
    ⟨parse_smallElf, rfl, fun _ _ => rfl, _, smallRun_reaches canMapFiles⟩
  have hagree := (load_shows_reference_image (hload true)).2 ⟨.x86_64, page4K, false⟩ _ _ _ _ _ _
    rfl (hload false) smallPhdrs[0] (by decide +kernel) rfl 0 (by decide +kernel)
  rw [smallLoaded_bias.1, smallLoaded_bias.2] at hagree
  exact hagree

/-! ### Protections -/

/-- The protection has exactly the rights the header asks for. -/
structure Honours (prot : Nat) (ph : Phdr) : Prop where
  read : prot &&& PROT_READ ≠ 0 ↔ ph.pFlags &&& PF_R ≠ 0
  write : prot &&& PROT_WRITE ≠ 0 ↔ ph.pFlags &&& PF_W ≠ 0
  exec : prot &&& PROT_EXEC ≠ 0 ↔ ph.pFlags &&& PF_X ≠ 0

theorem honours_protOf (ph : Phdr) : Honours (protOf ph) ph := by
  have hr : ph.isRead = true ↔ ph.pFlags &&& PF_R ≠ 0 := bne_iff_ne
  have hw : ph.isWrite = true ↔ ph.pFlags &&& PF_W ≠ 0 := bne_iff_ne
  have hx : ph.isExec = true ↔ ph.pFlags &&& PF_X ≠ 0 := bne_iff_ne
  refine ⟨?_, ?_, ?_⟩
  · rw [← hr, protOf]
    cases ph.isRead <;> cases ph.isWrite <;> cases ph.isExec <;> decide
  · rw [← hw, protOf]
    cases ph.isRead <;> cases ph.isWrite <;> cases ph.isExec <;> decide
  · rw [← hx, protOf]
    cases ph.isRead <;> cases ph.isWrite <;> cases ph.isExec <;> decide

def Claims (pg : PageSize) (image : Image) (bias : Nat) (x : Nat) (ph : Phdr) : Prop :=
  ph ∈ image.phdrs ∧ ph.pType = PT_LOAD ∧ segPages pg bias ph x

/-- **Final protections.**  After a successful load on the mmap path the pages of
    every segment lie in the reservation.  A page of the reservation that a header
    claims has exactly the rights of that header; a page no header claims has none;
    and a page is writable and executable only if its own header has both flags. -/
theorem mapped_protections_exact {arch : Arch} {b : Build} {image : Image} {w : World}
    {src : Source} {fd : Option Int} {s s' : Space} {tr : List (Event Host)} {l : Loaded}
    (himage : Accepted arch b.page image) (hmap : Mapped b fd)
    (hrun : Reaches (step b.page w) s (load b image src fd) tr s' (.done (ok l))) :
    (∀ x ph, Claims b.page image l.plan.bias x ph → reserveRange l x) ∧
    ∀ x, reserveRange l x →
      (∀ ph, Claims b.page image l.plan.bias x ph →
        s'.protAt b.page x = some (protOf ph) ∧ Honours (protOf ph) ph) ∧
      ((∀ ph, ¬ Claims b.page image l.plan.bias x ph) → s'.protAt b.page x = some PROT_NONE) ∧
      ∀ prot, s'.protAt b.page x = some prot → prot &&& PROT_WRITE ≠ 0 → prot &&& PROT_EXEC ≠ 0 →
        ∃ ph, Claims b.page image l.plan.bias x ph ∧ ph.pFlags &&& PF_W ≠ 0 ∧
          ph.pFlags &&& PF_X ≠ 0 := by
  have hv := himage.valid
  obtain ⟨⟨hp, -⟩, hok⟩ := load_run hv hrun
  cases hok with
  | copied hnot _ => exact absurd hmap hnot
  | mapped fd' _ _ h =>
    have hseg (x : Nat) (ph : Phdr) (hc : Claims b.page image l.plan.bias x ph) :
        s'.protAt b.page x = some (protOf ph) ∧ reserveRange l x := by
      obtain ⟨hph, htype, hx⟩ := hc
      obtain ⟨i, hi, rfl⟩ := hv.exists_seg hph htype
      have hin := hp.seg_inside hv hi
      exact ⟨(h.segs i hi).2 x hx, hin.1.trans hx.1, lt_of_lt_of_le hx.2 hin.2⟩
    have hgap (x : Nat) (hx : reserveRange l x)
        (hno : ∀ ph, ¬ Claims b.page image l.plan.bias x ph) :
        s'.protAt b.page x = some PROT_NONE := by
      refine h.gaps x hx ?_
      rintro ⟨i, hi, hxi⟩
      obtain ⟨size, ht⟩ := hv.table
      have hload := hdr_of_load ((ht.mem_iff i).mp hi)
      exact hno _ ⟨hdr_mem hload.1, hload.2, hxi⟩
    refine ⟨fun x ph hc => (hseg x ph hc).2, fun x hx => ⟨?_, hgap x hx, ?_⟩⟩
    · exact fun ph hc => ⟨(hseg x ph hc).1, honours_protOf ph⟩
    · intro prot hprot hwrite hexec
      by_cases hno : ∀ ph, ¬ Claims b.page image l.plan.bias x ph
      · rw [hgap x hx hno] at hprot
        cases hprot
        exact absurd rfl hwrite
      · obtain ⟨ph, hc⟩ := not_forall_not.mp hno
        rw [(hseg x ph hc).1] at hprot
        cases hprot
        exact ⟨ph, hc, (honours_protOf ph).write.mp hwrite, (honours_protOf ph).exec.mp hexec⟩

/-- In the small program the text is read-only again, and the page before the
    `.bss` segment, which no header claims, is inaccessible. -/
theorem small_protections :
    (smallRun true).2.1.protAt page4K 0x10000 = some (PROT_READ ||| PROT_EXEC) ∧
      (smallRun true).2.1.protAt page4K 0x11000 = some PROT_NONE := by
  have h := (mapped_protections_exact (b := ⟨.x86_64, page4K, true⟩)
    (accepted_of_parseSlice parse_smallElf) ⟨rfl, rfl⟩ (smallRun_reaches true)).2
  have htext : protOf smallPhdrs[0] = PROT_READ ||| PROT_EXEC := by decide
  rw [smallLoaded_bias.1] at h
  refine ⟨?_, (h 0x11000 (by decide +kernel)).2.1 ?_⟩
  · rw [← htext]
    refine ((h 0x10000 (by decide +kernel)).1 smallPhdrs[0] ⟨?_, rfl, ?_⟩).1
    · decide +kernel
    · decide +kernel
  · have hgap : ∀ ph ∈ smallPhdrs, ¬ segPages page4K 0xf000 ph 0x11000 := by decide +kernel
    exact fun ph hc => hgap ph hc.1 hc.2.2

end ElfLoader.AddressSpace
