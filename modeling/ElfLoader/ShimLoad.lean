import ElfLoader.Containment
import ElfLoader.Machine
import ElfLoader.UkVm

/-!
# A load through the shim

Every finished run of a load over the functions of the unikernel is a finished run of the
same load on an address space, with the same result and the same memory at the end, and no
call on the way breaks a promise that `sys.rs` makes to Rust.
-/

namespace ElfLoader.Shim

open ElfLoader Outcome Elf Layout Loader Reservation AddressSpace App FileRead
open ElfLoader.Prog hiding run

section Load

variable {pg : Elf.PageSize} {w : World}

/-- The heap blocks among the ranges that are held. -/
def heldBlocks (g : List Held) : List (Nat × Nat) :=
  (g.filter (·.allocated)).map fun r => (r.addr, r.len)

theorem heldBlocks_erase_subperm {g : List Held} {blocks : List (Nat × Nat)} {a len : Nat}
    (h : (heldBlocks g).Subperm blocks) (hmem : ⟨a, len, true⟩ ∈ g) :
    (heldBlocks (g.erase ⟨a, len, true⟩)).Subperm (blocks.erase (a, len)) := by
  have hperm : (heldBlocks g).Perm ((a, len) :: heldBlocks (g.erase ⟨a, len, true⟩)) :=
    ((List.perm_cons_erase hmem).filter _).map _
  have herase := (hperm.symm.subperm.trans h).erase (a, len)
  rwa [List.erase_cons_head] at herase

/-- What the loader holds of the heap is live. -/
theorem heldBlocks_after {g : List Held} {s : Space} {op : HostOp} (r : op.Res)
    (h : (heldBlocks g).Subperm s.blocks) (hp : Permits g op) :
    (heldBlocks (hold g op r)).Subperm (s.after pg w op r).blocks := by
  cases op with
  | vm op =>
    cases op with
    | map place len prot src =>
      cases place with
      | anywhere => cases r <;> exact h
      | hint a => cases r <;> exact h
      | exact a => cases r <;> exact h
    | unmap a len =>
      cases r with
      | error e => exact h
      | ok u =>
        have hsub : (heldBlocks (g.erase ⟨a, len, false⟩)).Sublist (heldBlocks g) :=
          (List.erase_sublist.filter _).map _
        exact hsub.subperm.trans h
    | allocAligned align len =>
      cases r with
      | error e => exact h
      | ok raw => exact (List.subperm_cons (raw, len)).mpr h
    | freeAligned a len => exact heldBlocks_erase_subperm h hp
    | protect a len prot => cases r <;> exact h
    | write a data => cases r <;> exact h
    | zero a len => cases r <;> exact h
    | icacheSync a len => exact h
  | openPath path => exact h
  | readExactAt src off n => exact h
  | tryReserve n => exact h
  | stackWrite a data => exact h

theorem mem_blocks_of_held {g : List Held} {s : Space} {a len : Nat}
    (h : (heldBlocks g).Subperm s.blocks) (hmem : ⟨a, len, true⟩ ∈ g) : (a, len) ∈ s.blocks := by
  apply h.subset
  apply List.mem_map.mpr
  exact ⟨⟨a, len, true⟩, List.mem_filter.mpr ⟨hmem, rfl⟩, rfl⟩

theorem grants_of_stepNonzero {s s' : Space} {op : HostOp} {r : op.Res}
    (h : stepNonzero pg w s op r s') : Grants pg op r :=
  ⟨granted_of_answers h.1.1, h.2⟩

/-- A load makes only calls that the shim carries out. -/
theorem wp_load_pre {b : Build} {image : Elf.Image} (hv : image.Valid b.page) (src : Source)
    (fd : Option Int) (s : Space) :
    wp (stepNonzero b.page w) (LoadPre b.page src fd) (load b image src fd) (fun _ _ => True) s := by
  have hwrites : wp (step b.page w) (WritesAllowed b.page) (load b image src fd)
      (fun _ _ => True) s := by
    apply wp_of_reaches
    · intro tr s' op k hrun
      exact (wp_reaches (AddressSpace.wp_load (k := 0) hv rfl (Nat.le_refl 0) src fd)
        (hrun.recorded note (.opened ⟨src, fd⟩))).1.1
    · exact fun _ _ _ _ => trivial
  have hnonzero : wp (stepNonzero b.page w) (WritesAllowed b.page) (load b image src fd)
      (fun _ _ => True) s := wp_handler_mono hwrites fun _ _ _ _ h => h.1
  have hinit : (heldBlocks []).Subperm s.blocks := List.nil_subperm
  have hheld : ∀ g s op r s', (heldBlocks g).Subperm s.blocks → Permits g op →
      WritesAllowed b.page s op → stepNonzero b.page w s op r s' →
      ∃ g', Protocol b.page (2 ^ 64) g op r g' ∧ (heldBlocks g').Subperm s'.blocks := by
    intro g s op r s' hJ hp _ hstep
    refine ⟨hold g op r, ⟨granted_of_answers hstep.1.1, rfl⟩, ?_⟩
    rw [hstep.1.2]
    exact heldBlocks_after r hJ hp
  have hlive := wp_ghost (J := fun (g : List Held) (s : Space) => (heldBlocks g).Subperm s.blocks)
    hheld hinit (Reservation.wp_load (g := []) b hv src fd) hnonzero
  have hargs := (calls_load b hv src fd).wp (H := stepNonzero b.page w)
    (fun _ _ _ _ h => grants_of_stepNonzero h) hlive
  apply wp_mono (wp_pre_mono hargs ?_) fun _ _ _ => trivial
  rintro s op ⟨⟨hw, g, hJ, hp⟩, hcall⟩
  refine ⟨hcall, hw, ?_⟩
  rintro a len rfl
  exact mem_blocks_of_held hJ hp

end Load


/-- **A load through the shim is a load.**  Whatever the kernel answers, the calls keep the
    promises of `sys.rs`, and a run that ends is a run of the loader on an address space. -/
theorem load_through_shim {cfg : Config} {k : KernelWorld} {image : Image} {s : Space}
    (himage : Accepted cfg.arch cfg.page image) (hs : (s.blocks.map Prod.fst).Nodup)
    (opener : VfsOpener) (stack : AppStack) (src : Source) (fd : Option Int) :
    let b : Build := ⟨cfg.arch, cfg.page, cfg.libposixMmap⟩
    let p := (load b image src fd).via (sys cfg opener stack)
    (∀ tr t op next, Reaches (kernelStep cfg.page k) s p tr t (.call op next) →
      KernelSafe cfg.page t op) ∧
    ∀ tr t v, Reaches (kernelStep cfg.page k) s p tr t (.done v) →
      ∃ tr', Reaches (step cfg.page (worldOf cfg k)) s (load b image src fd) tr' t (.done v) := by
  intro b p
  have hpre := wp_load_pre (b := b) (w := worldOf cfg k) himage.valid src fd s
  have himpl := sys_implements cfg opener stack k src fd
  constructor
  · intro tr t op next hrun
    exact (wp_reaches (himpl.wp ⟨rfl, hs⟩ hpre) hrun).1
  · intro tr t v hrun
    rcases himpl.reaches ⟨rfl, hs⟩ hpre hrun with ⟨tr', s', hrun', ⟨rfl, -⟩, -⟩
    exact ⟨tr', hrun'.seen id fun _ _ _ _ h => h.1⟩

/-! ### A kernel to run on -/

/-- A kernel with one file, which is behind every descriptor. -/
def oneFileKernel (f : { f : Bytes // f.length < 2 ^ 63 }) : KernelWorld where
  file _ := f
  mprotects _ _ _ := true
  munmaps := true
  vas := true
  setsAttr _ _ _ := true

/-- A read that stores at most 48 bytes. -/
def shortRead (f : Bytes) (len : Nat) (off : Int64) : Int64 × Bytes :=
  if len = 0 ∨ off < 0 then (-22, [])
  else
    let n := min (min len 48) (f.length - off.toNatClampNeg)
    (.ofNat n, bytesAt f off.toNatClampNeg n)

/-- The answers of a kernel that reads its files in small pieces and has no heap.  It finds
    its ranges as `m` does. -/
def kernelAnswer (m : Machine) (k : KernelWorld) (pg : PageSize) (s : Space) :
    (op : KernelOp) → op.Res
  | .mmap addr len _ flags _ off =>
      if flags.anonymous = false ∧ off < 0 then (none, 22)
      else if flags.fixed then (some addr, 0)
      else (m.place pg s len (if addr = 0 then .anywhere else .hint addr), 12)
  | .munmap .. => if k.munmaps then (0, 0) else (-1, 22)
  | .mprotect addr len prot => if k.mprotects addr len prot then (0, 0) else (-1, 22)
  | .ukVasGetActive => !k.vas
  | .ukVmaSetAttr start len attr => if k.setsAttr start len attr then (0 : Int32) else -22
  | .ukMemalign _ _ => (0 : Nat)
  | .ukFree _ => ()
  | .copyNonoverlapping .. => ()
  | .writeBytes .. => ()
  | .invalidateIcacheRange .. => ()
  | .openRdonly _ => (-1, 2)
  | .close _ => ()
  | .fstat _ => (-1, 9, ⟨0, false, false⟩)
  | .file (.pread fd len off) => shortRead (k.file fd).val len off
  | .tryReserve _ => true

section Run

variable {m : Machine} {k : KernelWorld} {pg : PageSize} {s : Space}

theorem firstFit_ne_zero {fit : Nat → Bool} {a raw slots : Nat} (ha : a ≠ 0)
    (h : firstFit pg a fit slots = some raw) : raw ≠ 0 := by
  have hmem := List.mem_of_find?_eq_some h
  rcases List.mem_map.mp hmem with ⟨i, -, rfl⟩
  omega

theorem place_fresh {addr len raw : Nat} (hbase : m.base ≠ 0)
    (h : m.place pg s len (if addr = 0 then .anywhere else .hint addr) = some raw) :
    FreshRange pg s raw len := by
  have hfits : fits pg s raw len = true := by
    apply fits_place ?_ h
    intro a
    split
    · exact fun heq => nomatch heq
    · exact fun heq => nomatch heq
  rcases free_of_fits hfits with ⟨hdvd, hlt, hfree⟩
  refine ⟨?_, hdvd, Nat.le_of_lt hlt, hfree⟩
  split at h
  · exact firstFit_ne_zero hbase h
  · rename_i haddr
    simp only [Machine.place] at h
    split at h
    · cases h
      exact haddr
    · exact firstFit_ne_zero hbase h

theorem shortRead_ok {f : Bytes} (fd : Int32) (len : Nat) (off : Int64) :
    pread f (.pread fd len off) (shortRead f len off) ∧ (0 ≤ (shortRead f len off).1 → 0 ≤ off) := by
  unfold shortRead
  split
  · refine ⟨Or.inl ⟨by decide, by decide⟩, ?_⟩
    intro hle
    exact absurd hle (by decide : ¬ (0 : Int64) ≤ -22)
  · rename_i hcall
    rw [not_or] at hcall
    have hoff : 0 ≤ off := Int64.not_lt.mp hcall.2
    have hclamp : (off.toNatClampNeg : Int) = off.toInt := by
      rw [← Int64.toNat_toInt]
      exact Int.toNat_of_nonneg (Int64.le_iff_toInt_le.mp hoff)
    refine ⟨?_, fun _ => hoff⟩
    dsimp only
    generalize hn : min (min len 48) (f.length - off.toNatClampNeg) = n
    have hint : (Int64.ofNat n).toInt = n := Int64.toInt_ofNat_of_lt (by omega)
    rcases Nat.eq_zero_or_pos n with rfl | hpos
    · right
      left
      exact ⟨rfl, by omega⟩
    · right
      right
      refine ⟨Int64.lt_iff_toInt_lt.mpr ?_, ?_, ?_, ?_⟩
      · rw [hint]
        exact Int.natCast_pos.mpr hpos
      · rw [hint]
        omega
      · rw [hint]
        omega
      · rw [← Int64.toNat_toInt (Int64.ofNat n), hint, Int.toNat_natCast]

theorem kernelAnswer_ok (hbase : m.base ≠ 0) (op : KernelOp) :
    KernelAnswers pg k s op (kernelAnswer m k pg s op) := by
  cases op with
  | mmap addr len prot flags fd off =>
    simp only [kernelAnswer]
    split
    · exact (by decide : (0 : Int32) ≤ 22)
    · rename_i hoff
      have hnonneg : flags.anonymous = false → 0 ≤ off := fun h => Int64.not_lt.mp fun hlt => hoff ⟨h, hlt⟩
      split
      · rename_i hfixed
        refine ⟨?_, hnonneg⟩
        rw [if_pos hfixed]
      · rename_i hfixed
        cases hplace : m.place pg s len (if addr = 0 then .anywhere else .hint addr) with
        | none => exact (by decide : (0 : Int32) ≤ 12)
        | some raw =>
          refine ⟨?_, hnonneg⟩
          rw [if_neg hfixed]
          exact place_fresh hbase hplace
  | munmap addr len =>
    simp only [kernelAnswer]
    split
    · exact Or.inl ⟨rfl, ‹_›⟩
    · exact Or.inr ⟨by decide, by decide, Bool.eq_false_iff.mpr ‹_›⟩
  | mprotect addr len prot =>
    simp only [kernelAnswer]
    split
    · exact Or.inl ⟨rfl, ‹_›⟩
    · exact Or.inr ⟨by decide, by decide, Bool.eq_false_iff.mpr ‹_›⟩
  | ukVasGetActive => rfl
  | ukVmaSetAttr start len attr =>
    simp only [kernelAnswer]
    split
    · exact Or.inl ⟨rfl, ‹_›⟩
    · exact Or.inr ⟨(by decide : (-22 : Int32) < 0), (by decide : (0 : Int32) < - -22),
        Bool.eq_false_iff.mpr ‹_›⟩
  | ukMemalign align size => exact Or.inl rfl
  | file op =>
    cases op
    exact shortRead_ok _ _ _
  | _ => trivial

end Run

/-- A build that maps files. -/
def mmapConfig : Config := ⟨true, false, true, true, .x86_64, page4K⟩

def smallKernel : KernelWorld := oneFileKernel ⟨smallElf 0x1100, by decide +kernel⟩

/-- The load of the small program, through the shim. -/
def smallShimRun : List (Event Kernel) × Space × Outcome Error Loaded :=
  ((load ⟨.x86_64, page4K, true⟩ (smallImage 0x1100) ⟨3, none⟩ (some 3)).via
    (sys mmapConfig .app ⟨0, 0⟩)).run (I := Kernel)
    (fun s op =>
      let r := kernelAnswer (machine (smallElf 0x1100) 4) smallKernel page4K s op
      (r, kernelAfter page4K smallKernel s op r)) emptySpace

theorem smallShimRun_ok :
    smallShimRun.2.2 = ok ⟨planFor page4K (smallImage 0x1100) (.at 0x10000), false⟩ := by
  decide +kernel

/-- The small program, loaded by calls of the kernel, has been loaded at `0x10000` by calls
    of the loader, and the memory is the same. -/
theorem small_through_shim :
    ∃ tr, Reaches (step page4K (worldOf mmapConfig smallKernel)) emptySpace
      (load ⟨.x86_64, page4K, true⟩ (smallImage 0x1100) ⟨3, none⟩ (some 3)) tr smallShimRun.2.1
      (.done (ok ⟨planFor page4K (smallImage 0x1100) (.at 0x10000), false⟩)) := by
  have himage : Accepted mmapConfig.arch mmapConfig.page (smallImage 0x1100) :=
    accepted_of_parseSlice parse_smallElf
  apply (load_through_shim (k := smallKernel) (s := emptySpace) himage List.nodup_nil .app ⟨0, 0⟩
    ⟨3, none⟩ (some 3)).2 smallShimRun.1
  rw [← smallShimRun_ok]
  exact run_reaches (H := kernelStep page4K smallKernel)
    (fun s op => ⟨kernelAnswer_ok (m := machine (smallElf 0x1100) 4) (by decide) op, rfl⟩) _ _

end ElfLoader.Shim
