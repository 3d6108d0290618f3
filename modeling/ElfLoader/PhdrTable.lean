import ElfLoader.LayoutPlan
import ElfLoader.MemoryImage
import ElfLoader.Memory

/-!
# Where the program header table is found (`AT_PHDR`)

`phdr_addr` has two answers: the address of `PT_PHDR`, and the address at which
the first byte of the table shows in some `PT_LOAD`.  The first is taken if it lies
between the lowest and the highest page of the image, which is more than lying in a
`PT_LOAD`; the second looks at no byte of the table but the first.
-/

namespace ElfLoader.Layout

open ElfLoader Outcome Elf

/-- The address is one of a `PT_LOAD` that was moved by `bias`. -/
def InLoad (image : Image) (bias x : Nat) : Prop :=
  ∃ ph ∈ image.phdrs, ph.pType = PT_LOAD ∧ ph.pVaddr + bias ≤ x ∧ x < ph.pVaddr + bias + ph.pMemsz

/-- The first byte of the table is one of the file bytes of the segment. -/
def HasTable (image : Image) (ph : Phdr) : Prop :=
  ph.pOffset ≤ image.ehdr.ePhoff ∧ image.ehdr.ePhoff < ph.pOffset + ph.pFilesz

instance (image : Image) (ph : Phdr) : Decidable (HasTable image ph) :=
  inferInstanceAs (Decidable (_ ∧ _))

def tableSeg (image : Image) : Option Nat :=
  image.loads.find? fun i => decide (HasTable image (image.seg i))

def tableAddr (image : Image) (bias i : Nat) : Nat :=
  image.ehdr.ePhoff - (image.seg i).pOffset + (image.seg i).pVaddr + bias

section Search

variable {ε : Type} {arch : Arch} {pg : PageSize} {image : Image} {p : LoadPlan}

theorem tableSeg_some {i : Nat} (h : tableSeg image = some i) :
    i ∈ image.loads ∧ HasTable image (image.seg i) := by
  have htab := List.find?_some h
  exact ⟨List.mem_of_find?_eq_some h, of_decide_eq_true htab⟩

theorem tableSeg_none (hv : image.Valid pg) :
    tableSeg image = none ↔ ∀ ph ∈ image.phdrs, ph.pType = PT_LOAD → ¬ HasTable image ph := by
  simp only [tableSeg, List.find?_eq_none, decide_eq_true_eq]
  constructor
  · intro h ph hph htype
    rcases hv.exists_seg hph htype with ⟨i, hi, rfl⟩
    exact h i hi
  · intro h i hi
    exact h _ (hv.seg_mem hi).1 (hv.seg_mem hi).2

/-- The table lies in the memory of the segment that has its first byte. -/
theorem tableAddr_lt (hv : image.Valid pg) (hfin : image.hi pg + p.bias < 2 ^ 64) {i : Nat}
    (hi : i ∈ image.loads) (htab : HasTable image (image.seg i)) :
    tableAddr image p.bias i < (image.seg i).pVaddr + p.bias + (image.seg i).pMemsz ∧
      tableAddr image p.bias i < 2 ^ 64 := by
  rcases hv.seg_ok hi with ⟨size, hok⟩
  have hfile := hok.filesz_le
  have hmem := mem_le_fin pg (image.seg i)
  have hle := hv.le_hi hi
  unfold HasTable at htab
  unfold tableAddr
  omega

/-- The search, without its checked operators: for an image that has been placed
    none of them fails. -/
theorem phdrSearch_eq (hv : image.Valid pg) (hfin : image.hi pg + p.bias < 2 ^ 64)
    (loads : List Nat) (hloads : ∀ i ∈ loads, i ∈ image.loads) :
    (p.phdrSearch image loads : Outcome ε (Option Nat)) =
      ok ((loads.find? fun i => decide (HasTable image (image.seg i))).map
        (tableAddr image p.bias)) := by
  induction loads with
  | nil => rfl
  | cons i rest ih =>
    rw [List.forall_mem_cons] at hloads
    rcases hv.seg_ok hloads.1 with ⟨size, hok⟩
    rw [LoadPlan.phdrSearch, hv.index_seg hloads.1, ok_bind, ih hloads.2, List.find?_cons]
    simp only [U64.checkedAdd_of_lt hok.file_lt]
    by_cases htab : HasTable image (image.seg i)
    · have hlt := (tableAddr_lt hv hfin hloads.1 htab).2
      rw [decide_eq_true htab, if_pos htab.1, if_pos htab.2, U64.sub_of_le htab.1, ok_bind]
      unfold tableAddr at hlt
      rw [U64.checkedAdd_of_lt (by omega), Option.bind_some, U64.checkedAdd_of_lt hlt]
      rfl
    · rw [decide_eq_false htab]
      unfold HasTable at htab
      split
      · rw [if_neg (by omega)]
      · rfl

theorem phdrAddr_of_none (hv : image.Valid pg) (hfin : image.hi pg + p.bias < 2 ^ 64)
    (hseg : image.phdrSeg = none) :
    (p.phdrAddr image : Outcome ε (Option Nat)) =
      ok ((tableSeg image).map (tableAddr image p.bias)) := by
  rw [LoadPlan.phdrAddr, hseg]
  exact phdrSearch_eq hv hfin image.loads fun _ h => h

/-- The search does not look at `PT_PHDR`. -/
theorem phdrAddr_removed (hv : image.Valid pg) (hfin : image.hi pg + p.bias < 2 ^ 64) :
    (p.phdrAddr { image with phdrSeg := none } : Outcome ε (Option Nat)) =
      ok ((tableSeg image).map (tableAddr image p.bias)) := by
  have hv' : ({ image with phdrSeg := none } : Image).Valid pg :=
    ⟨hv.table, hv.bounded, hv.entry_lt, hv.type⟩
  exact phdrAddr_of_none hv' hfin rfl

/-- What `phdr_addr` does with a `PT_PHDR`. -/
theorem phdrAddr_of_some (hv : image.Valid pg) (hp : p = planOf pg image p.bias p.reserveAddr p.reserveLen)
    (hfin : image.hi pg + p.bias < 2 ^ 64) {h : Phdr} (hseg : image.phdrSeg = some h) :
    (p.phdrAddr image : Outcome ε (Option Nat)) =
      ok (if 2 ^ 64 ≤ h.pVaddr + p.bias then none
        else if image.lo pg ≤ h.pVaddr ∧ h.pVaddr < image.hi pg then some (h.pVaddr + p.bias)
        else (tableSeg image).map (tableAddr image p.bias)) := by
  have hbase : p.base = image.lo pg + p.bias := by rw [hp]; rfl
  have hend : p.fin = image.hi pg + p.bias := by rw [hp]; rfl
  rw [LoadPlan.phdrAddr, hseg]
  dsimp only
  by_cases hlt : 2 ^ 64 ≤ h.pVaddr + p.bias
  · rw [if_pos hlt, U64.checkedAdd_of_le hlt]
  · rw [if_neg hlt, U64.checkedAdd_of_lt (not_le.mp hlt)]
    simp only [LoadPlan.covers, Bool.and_eq_true, decide_eq_true_eq, hbase, hend]
    by_cases hin : image.lo pg ≤ h.pVaddr ∧ h.pVaddr < image.hi pg
    · rw [if_pos hin, if_pos (by omega)]
    · rw [if_neg hin, if_neg (by omega)]
      exact phdrSearch_eq hv hfin image.loads fun _ h => h

/-! ### `PT_PHDR` -/

/-- `PT_PHDR` is taken if it lies in a `PT_LOAD`, and ignored otherwise. -/
def PhdrRight (p : LoadPlan) (image : Image) : Prop :=
  (∀ h ∈ image.phdrSeg, InLoad image p.bias (h.pVaddr + p.bias) →
    p.phdrAddr image = (ok (some (h.pVaddr + p.bias)) : Outcome Error (Option Nat))) ∧
  ((∀ h ∈ image.phdrSeg, ¬ InLoad image p.bias (h.pVaddr + p.bias)) →
    p.phdrAddr image = (p.phdrAddr { image with phdrSeg := none } : Outcome Error (Option Nat)))

/-- A `PT_PHDR` that the code takes for one in a `PT_LOAD`, or that keeps it from
    searching. -/
def PhdrMisled (pg : PageSize) (image : Image) (bias : Nat) (h : Phdr) : Prop :=
  ¬ InLoad image bias (h.pVaddr + bias) ∧
    ((image.lo pg ≤ h.pVaddr ∧ h.pVaddr < image.hi pg) ∨
      (2 ^ 64 ≤ h.pVaddr + bias ∧ ∃ ph ∈ image.phdrs, ph.pType = PT_LOAD ∧ HasTable image ph))

/-- A segment lies between the lowest and the highest page. -/
theorem between_of_inLoad (hv : image.Valid pg) {bias x : Nat} (h : InLoad image bias (x + bias)) :
    image.lo pg ≤ x ∧ x < image.hi pg := by
  rcases h with ⟨ph, hph, htype, hlo, hhi⟩
  rcases hv.exists_seg hph htype with ⟨i, hi, rfl⟩
  have hstart : (image.seg i).start pg ≤ (image.seg i).pVaddr := roundDown_le _ _
  have hmem := mem_le_fin pg (image.seg i)
  have hle := hv.lo_le hi
  have hle' := hv.le_hi hi
  omega

theorem inLoad_tableAddr (hv : image.Valid pg) (hfin : image.hi pg + p.bias < 2 ^ 64) {i : Nat}
    (hi : tableSeg image = some i) : InLoad image p.bias (tableAddr image p.bias i) := by
  rcases tableSeg_some hi with ⟨hmem, htab⟩
  have hlt := (tableAddr_lt hv hfin hmem htab).1
  refine ⟨image.seg i, (hv.seg_mem hmem).1, (hv.seg_mem hmem).2, ?_, hlt⟩
  unfold tableAddr
  omega

/-- **When `PT_PHDR` is treated as documented.**  Exactly if it is not one that lies
    in no `PT_LOAD` and yet between the lowest and the highest page of the image, and
    not one that the bias takes past the end of the address space while the table
    could be found. -/
theorem phdr_trusted_iff {reserved : Bool} {pl : Placement} (himage : Accepted arch pg image)
    (hplan : plan reserved image pg.bytes pl = ok p) :
    PhdrRight p image ↔ ∀ h ∈ image.phdrSeg, ¬ PhdrMisled pg image p.bias h := by
  have hv := himage.valid
  obtain ⟨hhi, -, hfits, hend, hp⟩ := plan_ok_inv hv hplan
  have hpo : p = planOf pg image p.bias p.reserveAddr p.reserveLen := by
    rw [hp]
    cases pl <;> rfl
  have hfin : image.hi pg + p.bias < 2 ^ 64 := fin_lt_of_planFor hv hhi hfits hend hp
  cases hseg : image.phdrSeg with
  | none =>
    refine iff_of_true ⟨by simp [hseg], fun _ => ?_⟩ (by simp)
    rw [phdrAddr_of_none hv hfin hseg, phdrAddr_removed hv hfin]
  | some h =>
    simp only [PhdrRight, hseg, Option.mem_def, Option.some.injEq, forall_eq']
    rw [phdrAddr_of_some hv hpo hfin hseg, phdrAddr_removed hv hfin, ok.injEq, ok.injEq]
    by_cases hin : InLoad image p.bias (h.pVaddr + p.bias)
    · have hbetween := between_of_inLoad hv hin
      refine iff_of_true ⟨fun _ => ?_, fun hno => absurd hin hno⟩ fun hmis => hmis.1 hin
      rw [if_neg (by omega), if_pos hbetween]
    · simp only [hin, not_false_eq_true, true_implies, false_implies, true_and, PhdrMisled]
      by_cases hover : 2 ^ 64 ≤ h.pVaddr + p.bias
      · have hout : ¬ (image.lo pg ≤ h.pVaddr ∧ h.pVaddr < image.hi pg) := by omega
        have hnone := tableSeg_none hv
        rw [if_pos hover]
        simp only [hout, hover, false_or, true_and, not_exists, not_and]
        rw [eq_comm, Option.map_eq_none_iff]
        exact hnone
      · rw [if_neg hover]
        by_cases hbetween : image.lo pg ≤ h.pVaddr ∧ h.pVaddr < image.hi pg
        · rw [if_pos hbetween]
          simp only [hbetween, and_self, true_or, not_true_eq_false, iff_false]
          intro hsome
          rcases Option.map_eq_some_iff.mp hsome.symm with ⟨i, hi, haddr⟩
          exact hin (haddr ▸ inLoad_tableAddr hv hfin hi)
        · rw [if_neg hbetween]
          simp only [hbetween, hover, false_and, or_self, not_false_eq_true]

end Search

section Small

open AddressSpace

/-- `PT_PHDR` at `v`, and two segments with a gap between them; the first one has
    the table. -/
def tablePhdrs (v : Nat) : List Phdr :=
  [⟨PT_PHDR, PF_R, 0x40, v, v, 0xa8, 0xa8, 8⟩,
    ⟨PT_LOAD, PF_R, 0, 0x1000, 0x1000, 0xe8, 0xe8, 0x1000⟩,
    ⟨PT_LOAD, PF_R ||| PF_W, 0, 0x3000, 0x3000, 0, 0x10, 0x1000⟩]

def tableElf (v : Nat) : Bytes := buildElf .x86_64 ET_DYN 0x1000 (tablePhdrs v) []

def tableImage (v : Nat) : Image := imageOf (ehdrAt (tableElf v)) (tablePhdrs v) [1, 2]

def tablePlan (v : Nat) : LoadPlan := planFor page4K (tableImage v) (.at 0x10000)

/-- A `PT_PHDR` in the first segment is taken. -/
theorem table_phdr_trusted :
    (tablePlan 0x1040).phdrAddr (tableImage 0x1040) =
      (ok (some 0x10040) : Outcome Error (Option Nat)) := by
  have hparse : parseSlice .x86_64 (tableElf 0x1040) page4K = some (ok (tableImage 0x1040)) := by
    decide +kernel
  have hplan : plan true (tableImage 0x1040) page4K.bytes (.at 0x10000) = ok (tablePlan 0x1040) := by
    decide +kernel
  have hseg : (tableImage 0x1040).phdrSeg = some ⟨PT_PHDR, PF_R, 0x40, 0x1040, 0x1040, 0xa8, 0xa8, 8⟩ := by
    decide +kernel
  have hin : InLoad (tableImage 0x1040) (tablePlan 0x1040).bias (0x1040 + (tablePlan 0x1040).bias) :=
    ⟨⟨PT_LOAD, PF_R, 0, 0x1000, 0x1000, 0xe8, 0xe8, 0x1000⟩, by simp [tableImage, imageOf, tablePhdrs],
      rfl, by dsimp only; omega, by dsimp only; omega⟩
  have hright := (phdr_trusted_iff (accepted_of_parseSlice hparse) hplan).mpr (by
    intro h hh hmis
    cases hseg.symm.trans hh
    exact hmis.1 hin)
  exact hright.1 _ hseg hin

/-- A `PT_PHDR` in the gap is taken too, although no segment has it, and although
    the table could have been found. -/
theorem table_phdr_in_gap :
    parseSlice .x86_64 (tableElf 0x2000) page4K = some (ok (tableImage 0x2000)) ∧
      plan true (tableImage 0x2000) page4K.bytes (.at 0x10000) = ok (tablePlan 0x2000) ∧
      ¬ PhdrRight (tablePlan 0x2000) (tableImage 0x2000) := by
  refine ⟨by decide +kernel, by decide +kernel, ?_⟩
  rintro ⟨-, hignored⟩
  have hseg : (tableImage 0x2000).phdrSeg = some ⟨PT_PHDR, PF_R, 0x40, 0x2000, 0x2000, 0xa8, 0xa8, 8⟩ := by
    decide +kernel
  have hne : (tablePlan 0x2000).phdrAddr (tableImage 0x2000) ≠
      ((tablePlan 0x2000).phdrAddr { tableImage 0x2000 with phdrSeg := none } :
        Outcome Error (Option Nat)) := by
    decide +kernel
  apply hne (hignored _)
  intro h hh hin
  cases hseg.symm.trans hh
  rcases hin with ⟨ph, hph, htype, hlo, hhi⟩
  simp only [tableImage, imageOf, tablePhdrs, List.mem_cons, List.not_mem_nil, or_false] at hph
  rcases hph with rfl | rfl | rfl
  · cases htype
  · dsimp only at hhi
    omega
  · dsimp only at hlo
    omega

end Small

end ElfLoader.Layout

namespace ElfLoader.AddressSpace

open ElfLoader Outcome Prog Elf Layout Loader Program Auxv

/-! ### The table behind `AT_PHDR` -/

/-- The whole table is among the file bytes of the segment. -/
def HoldsTable (image : Image) (ph : Phdr) : Prop :=
  ph.pOffset ≤ image.ehdr.ePhoff ∧
    image.ehdr.ePhoff + (image.ehdr.ePhnum - 1) * image.ehdr.ePhentsize + PHDR_SIZE ≤
      ph.pOffset + ph.pFilesz

/-- The table that is advertised is there: each of its entries lies in the memory of
    segments and decodes to its header.  None is advertised if no segment has it. -/
def TableVisible (image : Image) (bias : Nat) (aux : AuxvSpec) (mem : Memory) : Prop :=
  (∀ a ∈ aux.phdr, ∀ i < aux.phnum.toNat,
    (∀ k < PHDR_SIZE, InLoad image bias (a.toNat + i * aux.phent.toNat + k)) ∧
      image.phdrs[i]? = some (phdrAt (peek mem (a.toNat + i * aux.phent.toNat) PHDR_SIZE) 0)) ∧
  ((∀ ph ∈ image.phdrs, ph.pType = PT_LOAD → ¬ HoldsTable image ph) → aux.phdr = none)

/-- The byte a segment shows at distance `d` from its start. -/
def shownByte (f : Bytes) (ph : Phdr) (d : Nat) : UInt8 :=
  if d < ph.pFilesz then f.getD (ph.pOffset + d) 0 else 0

/-- Byte `t` of the file can be seen from segment `i`: it is one of its file bytes,
    or the segment that is at its place instead happens to show the same byte. -/
def ByteSeen (f : Bytes) (image : Image) (i t : Nat) : Prop :=
  t < (image.seg i).pOffset + (image.seg i).pFilesz ∨
    ∃ ph ∈ image.phdrs, ph.pType = PT_LOAD ∧
      ph.pVaddr ≤ t - (image.seg i).pOffset + (image.seg i).pVaddr ∧
      t - (image.seg i).pOffset + (image.seg i).pVaddr < ph.pVaddr + ph.pMemsz ∧
      shownByte f ph (t - (image.seg i).pOffset + (image.seg i).pVaddr - ph.pVaddr) = f.getD t 0

section Table

variable {b : Build} {f : Bytes} {image : Image} {w : World} {src : Source} {fd : Option Int}
  {s s' : Space} {l : Loaded} {pg : PageSize} {bias : Nat} {mem : Memory}

theorem Reference.mem_eq {ph : Phdr} (h : Reference pg f bias ph mem) {y : Nat}
    (hlo : ph.pVaddr ≤ y) (hhi : y < ph.pVaddr + ph.pMemsz) :
    mem (y + bias) = shownByte f ph (y - ph.pVaddr) := by
  have hx : y + bias = ph.pVaddr + bias + (y - ph.pVaddr) := by omega
  unfold shownByte
  split
  · rename_i hk
    rw [List.getD_eq_getElem?_getD, h.file _ hk, Option.getD_some, hx]
  · rename_i hk
    apply h.zero
    · omega
    · have hup := le_roundUp pg.pos (ph.pVaddr + bias + ph.pMemsz)
      omega

/-- A byte of the table is where it should be, or it is not. -/
theorem byteSeen_iff (href : ∀ ph ∈ image.phdrs, ph.pType = PT_LOAD → Reference pg f bias ph mem)
    (hv : image.Valid pg) {i t : Nat} (hi : i ∈ image.loads)
    (hle : (image.seg i).pOffset ≤ t) :
    (InLoad image bias (t - (image.seg i).pOffset + (image.seg i).pVaddr + bias) ∧
      mem (t - (image.seg i).pOffset + (image.seg i).pVaddr + bias) = f.getD t 0) ↔
      ByteSeen f image i t := by
  constructor
  · rintro ⟨⟨ph, hph, htype, hlo, hhi⟩, hmem⟩
    refine Or.inr ⟨ph, hph, htype, by omega, by omega, ?_⟩
    rw [← (href ph hph htype).mem_eq (by omega) (by omega)]
    exact hmem
  · rintro (hfile | ⟨ph, hph, htype, hlo, hhi, hbyte⟩)
    · rcases hv.seg_mem hi with ⟨hph, htype⟩
      rcases hv.seg_ok hi with ⟨size, hok⟩
      have hsz := hok.filesz_le
      refine ⟨⟨image.seg i, hph, htype, by omega, by omega⟩, ?_⟩
      rw [(href _ hph htype).mem_eq (by omega) (by omega), Nat.add_sub_cancel, shownByte,
        if_pos (by omega), Nat.add_sub_cancel' hle]
    · refine ⟨⟨ph, hph, htype, by omega, by omega⟩, ?_⟩
      rw [(href ph hph htype).mem_eq hlo hhi]
      exact hbyte

/-- An entry is shown if all of its bytes are. -/
theorem entry_shown_iff {t x : Nat} (hlen : t + PHDR_SIZE ≤ f.length) :
    phdrAt f t = phdrAt (peek mem x PHDR_SIZE) 0 ↔
      ∀ k < PHDR_SIZE, mem (x + k) = f.getD (t + k) 0 := by
  have hshows : Shows mem x (bytesAt f t PHDR_SIZE) ↔
      ∀ k < PHDR_SIZE, mem (x + k) = f.getD (t + k) 0 := by
    rw [shows_iff, length_bytesAt hlen]
    refine forall₂_congr fun k hk => ?_
    rw [List.getD_eq_getElem?_getD, getElem?_bytesAt hk, List.getD_eq_getElem?_getD]
  rw [← hshows, Shows, length_bytesAt hlen]
  constructor
  · intro h
    have heq := phdrAt_inj hlen (by simp) h
    rw [heq, bytesAt, List.drop_zero, List.take_of_length_le (by simp)]
  · intro h
    rw [h, phdrAt_bytesAt]

/-- An entry of the table, at the address the search leads to. -/
theorem entry_seen_iff {arch : Arch} (hdec : Decoded (SliceRead f) arch pg (some f.length) image)
    (href : ∀ ph ∈ image.phdrs, ph.pType = PT_LOAD → Reference pg f bias ph mem) {i j : Nat}
    (hi : i ∈ image.loads) (hhas : HasTable image (image.seg i)) (hj : j < image.ehdr.ePhnum) :
    ((∀ k < PHDR_SIZE,
        InLoad image bias (tableAddr image bias i + j * image.ehdr.ePhentsize + k)) ∧
      image.phdrs[j]? = some (phdrAt (peek mem
        (tableAddr image bias i + j * image.ehdr.ePhentsize) PHDR_SIZE) 0)) ↔
      ∀ k < PHDR_SIZE, ByteSeen f image i (image.ehdr.ePhoff + j * image.ehdr.ePhentsize + k) := by
  have hle := hhas.1
  have hend : image.ehdr.ePhoff + j * image.ehdr.ePhentsize + PHDR_SIZE ≤ f.length := by
    have hmul : (j + 1) * image.ehdr.ePhentsize ≤ image.ehdr.ePhnum * image.ehdr.ePhentsize :=
      Nat.mul_le_mul_right _ hj
    have hfile := hdec.header.phtab_le f.length rfl
    have hsize := hdec.header.phentsize
    rw [Nat.add_mul, Nat.one_mul] at hmul
    omega
  rw [hdec.view.phdrs j hj, Option.some.injEq, entry_shown_iff hend, ← forall₂_and]
  refine forall₂_congr fun k hk => ?_
  have hx : tableAddr image bias i + j * image.ehdr.ePhentsize + k =
      image.ehdr.ePhoff + j * image.ehdr.ePhentsize + k - (image.seg i).pOffset +
        (image.seg i).pVaddr + bias := by
    unfold tableAddr
    omega
  rw [hx]
  exact byteSeen_iff href hdec.valid hi (by omega)

/-- What the auxiliary vector says about the table. -/
theorem auxv_table {arch arch' : Arch} (hdec : Decoded (SliceRead f) arch pg (some f.length) image)
    (hfin : image.hi pg + l.plan.bias < 2 ^ 64) (hseg : image.phdrSeg = none)
    {interp : Option (Image × Loaded)} {path : Option Bytes} {env : Environment} {aux : AuxvSpec}
    (haux : (⟨image, l, interp, path⟩ : LoadedProgram).auxv arch' env =
      (ok aux : Outcome Error AuxvSpec)) :
    aux.phdr = (tableSeg image).map (fun i => UInt64.ofNat (tableAddr image l.plan.bias i)) ∧
      aux.phnum.toNat = image.ehdr.ePhnum ∧ aux.phent.toNat = image.ehdr.ePhentsize := by
  have hehdr := hdec.ehdr_slice.2
  have hnum : image.ehdr.ePhnum < 256 ^ 2 := by rw [hehdr]; exact leAt_lt f 56 2
  have hent : image.ehdr.ePhentsize < 256 ^ 2 := by rw [hehdr]; exact leAt_lt f 54 2
  simp only [LoadedProgram.auxv, phdrAddr_of_none hdec.valid hfin hseg, ok_bind, ok.injEq] at haux
  rw [← haux]
  refine ⟨Option.map_map _ _ _, ?_, ?_⟩
  · exact UInt64.toNat_ofNat_of_lt' (hnum.trans (by decide))
  · exact UInt64.toNat_ofNat_of_lt' (hent.trans (by decide))

/-- **When the table that is advertised is really there.**  For every image without
    `PT_PHDR` and every successful load of it: exactly if no segment has the first
    byte of the table, or one has all of it and each byte that is not among the file
    bytes of the segment the search stops at can be seen all the same. -/
theorem table_visible_iff (h : SuccessfulLoad b f image w src fd s s' l)
    (hseg : image.phdrSeg = none) (interp : Option (Image × Loaded)) (path : Option Bytes)
    (env : Environment) {aux : AuxvSpec}
    (haux : (⟨image, l, interp, path⟩ : LoadedProgram).auxv b.arch env =
      (ok aux : Outcome Error AuxvSpec)) :
    TableVisible image l.plan.bias aux s'.mem ↔
      (∀ ph ∈ image.phdrs, ph.pType = PT_LOAD → ¬ HasTable image ph) ∨
      (∃ ph ∈ image.phdrs, ph.pType = PT_LOAD ∧ HoldsTable image ph) ∧
        ∀ i, tableSeg image = some i → ∀ j < image.ehdr.ePhnum, ∀ k < PHDR_SIZE,
          ByteSeen f image i (image.ehdr.ePhoff + j * image.ehdr.ePhentsize + k) := by
  have hdec := decoded_of_parseSlice h.accepted
  have hv := hdec.valid
  obtain ⟨-, href⟩ := h.reference
  obtain ⟨tr, hrun⟩ := h.run
  obtain ⟨⟨hp, -⟩, -⟩ := load_run hv hrun
  obtain ⟨hphdr, hphnum, hphent⟩ := auxv_table hdec hp.fin_lt hseg haux
  have hnone := tableSeg_none hv
  rw [TableVisible, hphnum, hphent, hphdr, ← hnone]
  cases htab : tableSeg image with
  | none =>
    exact iff_of_true ⟨by simp, fun _ => rfl⟩ (Or.inl rfl)
  | some i =>
    obtain ⟨hi, hhas⟩ := tableSeg_some htab
    have hlt := (tableAddr_lt hv hp.fin_lt hi hhas).2
    have hsecond : ((∀ ph ∈ image.phdrs, ph.pType = PT_LOAD → ¬ HoldsTable image ph) → False) ↔
        ∃ ph ∈ image.phdrs, ph.pType = PT_LOAD ∧ HoldsTable image ph := by
      simp
    simp only [Option.map_some, Option.mem_def, Option.some.injEq, forall_eq', reduceCtorEq,
      false_or, UInt64.toNat_ofNat_of_lt' hlt, hsecond]
    rw [and_comm]
    exact and_congr_right fun _ => forall₂_congr fun j hj => entry_seen_iff hdec href hi hhas hj

end Table

section Small

/-- One segment with the first `n` bytes of a file of `0x78`: the executable header
    and a table of one entry. -/
def headPhdr (n : Nat) : Phdr := ⟨PT_LOAD, PF_R, 0, 0x1000, 0x1000, n, n, 0x1000⟩

def headElf (n : Nat) : Bytes := buildElf .x86_64 ET_DYN 0x1000 [headPhdr n] []

def headImage (n : Nat) : Image := imageOf (ehdrAt (headElf n)) [headPhdr n] [0]

def headLoaded (n : Nat) : Loaded := ⟨planFor page4K (headImage n) (.at 0x10000), false⟩

def headRun (n : Nat) : List (Event Host) × Space × Outcome Error Loaded :=
  (load ⟨.x86_64, page4K, true⟩ (headImage n) ⟨0, some 0x78⟩ (some 3)).run (I := Host)
    ((machine (headElf n) 4).exec page4K) emptySpace

theorem headRun_successful {n : Nat}
    (hparse : parseSlice .x86_64 (headElf n) page4K = some (ok (headImage n)))
    (hok : (headRun n).2.2 = ok (headLoaded n)) :
    SuccessfulLoad ⟨.x86_64, page4K, true⟩ (headElf n) (headImage n) (oneFile (headElf n))
      ⟨0, some 0x78⟩ (some 3) emptySpace (headRun n).2.1 (headLoaded n) := by
  refine ⟨hparse, rfl, fun _ _ => rfl, (headRun n).1, ?_⟩
  rw [← hok]
  exact (machine (headElf n) 4).reaches page4K _ emptySpace

def headEnv : Environment := ⟨4096, [], [], ⟨List.replicate 16 2, rfl⟩, 0, 0, (0, 0), none⟩

def headProgram (n : Nat) : LoadedProgram := ⟨headImage n, headLoaded n, none, none⟩

def headAux : AuxvSpec :=
  { phdr := some 0x10040, phent := 56, phnum := 1, base := 0, entry := 0x10000, pagesz := 4096,
    random := headEnv.random }

/-- With all of the table in the segment it is visible. -/
theorem head_table_visible :
    TableVisible (headImage 0x78) (headLoaded 0x78).plan.bias headAux (headRun 0x78).2.1.mem := by
  have hload := headRun_successful (n := 0x78) (by decide +kernel) (by decide +kernel)
  have haux : (headProgram 0x78).auxv .x86_64 headEnv = (ok headAux : Outcome Error AuxvSpec) := by
    decide +kernel
  have hmem : headPhdr 0x78 ∈ (headImage 0x78).phdrs := by simp [headImage, imageOf]
  refine (table_visible_iff hload (by decide +kernel) none none headEnv haux).mpr
    (Or.inr ⟨⟨headPhdr 0x78, hmem, rfl, by unfold HoldsTable; decide +kernel⟩, ?_⟩)
  intro i hi j hj k hk
  have hseg : tableSeg (headImage 0x78) = some 0 := by decide +kernel
  have hoff : (headImage 0x78).ehdr.ePhoff = 0x40 := by decide +kernel
  have hnum : (headImage 0x78).ehdr.ePhnum = 1 := by decide +kernel
  cases hseg.symm.trans hi
  rw [hnum] at hj
  obtain rfl : j = 0 := by omega
  rw [hoff, Nat.zero_mul]
  exact Or.inl (show 0x40 + 0 + k < 0 + 0x78 by simp only [PHDR_SIZE] at hk; omega)

/-- With less than the table in the segment it is advertised all the same. -/
theorem head_table_cut :
    SuccessfulLoad ⟨.x86_64, page4K, true⟩ (headElf 0x60) (headImage 0x60)
        (oneFile (headElf 0x60)) ⟨0, some 0x78⟩ (some 3) emptySpace (headRun 0x60).2.1
        (headLoaded 0x60) ∧
      (headImage 0x60).phdrSeg = none ∧
      (headProgram 0x60).auxv .x86_64 headEnv = (ok headAux : Outcome Error AuxvSpec) ∧
      ¬ TableVisible (headImage 0x60) (headLoaded 0x60).plan.bias headAux
        (headRun 0x60).2.1.mem := by
  refine ⟨headRun_successful (by decide +kernel) (by decide +kernel), by decide +kernel,
    by decide +kernel, ?_⟩
  rintro ⟨hentries, -⟩
  have hbias : (headLoaded 0x60).plan.bias = 0xf000 := by decide +kernel
  rcases (hentries 0x10040 rfl 0 (by decide)).1 55 (by decide) with ⟨ph, hph, -, -, hhi⟩
  simp only [headImage, imageOf, List.mem_singleton] at hph
  subst hph
  rw [hbias] at hhi
  exact absurd hhi (by decide)

end Small

end ElfLoader.AddressSpace
