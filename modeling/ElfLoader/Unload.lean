import ElfLoader.Containment

/-!
# Unloading what was loaded

`unload` gives back exactly the range that was taken.  On the mmap path that
restores the address space.  On the copy path it does so only if no protection of
the block was narrowed: the pages go back to the heap as the last loop of
`fill_copied` left them.
-/

namespace ElfLoader.AddressSpace

open ElfLoader Outcome Prog Elf Layout Loader Reservation

def releaseOf : (op : HostOp) → op.Res → Option Held
  | .vm (.unmap a len), (.ok _ : Except Error Unit) => some ⟨a, len, false⟩
  | .vm (.freeAligned a len), _ => some ⟨a, len, true⟩
  | _, _ => none

def releases (tr : List (Event Host)) : List Held := tr.filterMap fun e => releaseOf e.1 e.2

/-- `unload` undoes `load`: pages, protections and heap blocks are what they were,
    heap pages are readable and writable when they are handed back, and the range
    released is the range that was reserved. -/
structure Undone (pg : PageSize) (s s₁ s' : Space) (tr tr' : List (Event Host)) : Prop where
  same : SameSpace s s'
  heap : ∀ R ∈ releases tr', R.allocated = true → ∀ x, Within R.addr (R.addr + R.len) x →
    s₁.protAt pg x = some RW
  range : releases tr' = grants tr

section Unload

variable {b : Build} {image : Image} {w : World} {src : Source} {fd : Option Int}
  {s s₁ s' : Space} {tr tr' : List (Event Host)} {l : Loaded}

/-- `unload` is one call, and it names the range of the plan. -/
theorem unload_run {pg : PageSize} (hw : w.unmaps = true)
    (hrun : Reaches (step pg w) s₁ (l.unload : Prog Host Error Unit) tr' s' (.done (ok ()))) :
    s' = released pg l s₁ ∧ releases tr' = [heldBy l] := by
  obtain ⟨plan, allocated⟩ := l
  cases allocated with
  | true =>
    cases hrun with
    | step hop hrest =>
      cases hrest with
      | refl => exact ⟨hop.2, rfl⟩
  | false =>
    cases hrun with
    | @step _ _ _ _ _ r _ _ hop hrest =>
      cases r with
      | error e => exact absurd (hop.1.symm.trans hw) (by simp)
      | ok u =>
        cases hrest with
        | refl => exact ⟨hop.2, rfl⟩

/-- The range granted to a load that succeeded is the one its plan names. -/
theorem grants_of_load (hv : image.Valid b.page)
    (hload : Reaches (step b.page w) s (load b image src fd) tr s₁ (.done (ok l))) :
    grants tr = [heldBy l] := by
  obtain ⟨g, hinside, hg, -⟩ := load_keepsInside hv hload
  subst hg
  exact hinside.grants_eq (by simp)

/-- A copied image lies where its block was granted. -/
theorem bias_of_copied {pg : PageSize} {n n' : Notes} {o : Opened}
    (hn : NotedOk pg image o n n' l) (hdyn : image.ehdr.eType = ET_DYN) :
    l.plan.bias = biasAt pg image l.plan.reserveAddr := by
  obtain ⟨-, raw, -, -, hplan⟩ := hn
  rw [placementAt, if_pos hdyn] at hplan
  rw [hplan]
  rfl

theorem CopiedOk.sameSpace_iff {pg : PageSize} (hv : image.Valid pg)
    (hp : Placed pg image l.plan) (h : CopiedOk pg w image src s l s₁) :
    SameSpace s (released pg l s₁) ↔ Unnarrowed pg w image l.plan.bias := by
  have hrel : released pg l s₁ = { s₁ with blocks := s.blocks } := by
    rw [released, if_pos h.allocated, h.blocks, List.erase_cons_head]
  rw [hrel, ← h.prot_eq_iff hv hp]
  exact ⟨fun hs => hs.prot, fun hprot => ⟨hprot, rfl⟩⟩

theorem MappedOk.sameSpace {pg : PageSize} {fd : Int} (h : MappedOk pg w image fd s l s₁) :
    SameSpace s (released pg l s₁) := by
  rw [released, if_neg (by simp [h.allocated])]
  exact sameSpace_unmapped h.dvd_addr h.dvd_len h.free h.frame

/-- **When `unload` undoes `load`.**  After any successful load, on either path,
    `unload` restores what was there before exactly if, for a heap block granted at
    some address, every segment whose protection is enforced at that address asks for
    the heap's own protection. -/
theorem unload_undoes_load_iff {arch : Arch} (himage : Accepted arch b.page image)
    (hw : w.unmaps = true)
    (hload : Reaches (step b.page w) s (load b image src fd) tr s₁ (.done (ok l)))
    (hunload : Reaches (step b.page w) s₁ (l.unload : Prog Host Error Unit) tr' s'
      (.done (ok ()))) :
    Undone b.page s s₁ s' tr tr' ↔
      ∀ R ∈ grants tr, R.allocated = true →
        Unnarrowed b.page w image (biasAt b.page image R.addr) := by
  have hv := himage.valid
  obtain ⟨hnoted, hok⟩ := load_run hv hload
  obtain ⟨rfl, hrel⟩ := unload_run hw hunload
  have hgrants := grants_of_load hv hload
  simp only [hgrants, List.forall_mem_singleton]
  cases hok with
  | mapped fd' _ _ h =>
    refine ⟨fun _ halloc => absurd (halloc.symm.trans h.allocated) (by simp), fun _ => ?_⟩
    refine ⟨h.sameSpace, ?_, by rw [hrel, hgrants]⟩
    rw [hrel, List.forall_mem_singleton]
    exact fun halloc => absurd (halloc.symm.trans h.allocated) (by simp)
  | copied _ h =>
    have hbias := bias_of_copied hnoted h.dyn
    have hiff := h.sameSpace_iff hv hnoted.1
    rw [hbias] at hiff
    refine ⟨fun hu _ => hiff.mp hu.same, fun hcond => ?_⟩
    have hsame := hiff.mpr (hcond h.allocated)
    refine ⟨hsame, ?_, by rw [hrel, hgrants]⟩
    rw [hrel, List.forall_mem_singleton]
    rintro - x hx
    -- giving the block back changes no protection, so the pages are as they were
    have hprot : s₁.prot = s.prot := by
      have h' := hsame.prot
      rwa [released, if_pos h.allocated] at h'
    rw [Space.protAt, hprot, ← Space.protAt]
    exact h.heap x hx

end Unload

def smallUnload (canMapFiles : Bool) : List (Event Host) × Space × Outcome Error Unit :=
  ((smallLoaded canMapFiles).unload : Prog Host Error Unit).run (I := Host)
    ((machine (smallElf 0x1100) 4).exec page4K) (smallRun canMapFiles).2.1

theorem smallUnload_reaches (canMapFiles : Bool) :
    Reaches (step page4K (oneFile (smallElf 0x1100))) (smallRun canMapFiles).2.1
      ((smallLoaded canMapFiles).unload : Prog Host Error Unit) (smallUnload canMapFiles).1
      (smallUnload canMapFiles).2.1 (.done (ok ())) := by
  have hok : (smallUnload canMapFiles).2.2 = ok () := by cases canMapFiles <;> decide +kernel
  rw [← hok]
  exact (machine (smallElf 0x1100) 4).reaches page4K _ _

/-- Mapped, the small program leaves nothing behind. -/
theorem small_mapped_undone :
    Undone page4K emptySpace (smallRun true).2.1 (smallUnload true).2.1 (smallRun true).1
      (smallUnload true).1 := by
  refine (unload_undoes_load_iff (b := ⟨.x86_64, page4K, true⟩)
    (accepted_of_parseSlice parse_smallElf) rfl (smallRun_reaches true)
    (smallUnload_reaches true)).mpr ?_
  rw [show grants (smallRun true).1 = [⟨0x10000, 0x4000, false⟩] by decide +kernel]
  simp

/-- Copied, it hands its text page back to the heap readable and executable, but no
    longer writable. -/
theorem small_copied_not_undone :
    Reaches (step page4K (oneFile (smallElf 0x1100))) emptySpace
        (load ⟨.x86_64, page4K, false⟩ (smallImage 0x1100) ⟨0, none⟩ (some 3)) (smallRun false).1
        (smallRun false).2.1 (.done (ok (smallLoaded false))) ∧
      Reaches (step page4K (oneFile (smallElf 0x1100))) (smallRun false).2.1
        ((smallLoaded false).unload : Prog Host Error Unit) (smallUnload false).1
        (smallUnload false).2.1 (.done (ok ())) ∧
      ¬ Undone page4K emptySpace (smallRun false).2.1 (smallUnload false).2.1 (smallRun false).1
        (smallUnload false).1 := by
  refine ⟨smallRun_reaches false, smallUnload_reaches false, ?_⟩
  intro h
  have hprot := congrFun h.same.prot 0x100
  rw [show (smallUnload false).2.1.prot 0x100 = some (PROT_READ ||| PROT_EXEC) by decide +kernel,
    show emptySpace.prot 0x100 = some RW by decide +kernel] at hprot
  exact absurd hprot (by decide)

end ElfLoader.AddressSpace
