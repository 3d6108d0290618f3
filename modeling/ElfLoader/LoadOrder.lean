import ElfLoader.ElfFormat
import ElfLoader.LayoutPlan
import ElfLoader.Machine

/-!
# The order of the `PT_LOAD` headers

The parser sorts the segments, so their order in the table should not matter.  It
does in one case: an empty segment at the page-aligned address of another one is
apart from it, but the neighbour test sees that only if the empty one comes first,
and the sort leaves ties as they stand in the table.
-/

namespace ElfLoader.Elf

open ElfLoader Outcome Prog Layout

def loadsOf (phdrs : List Phdr) : List Phdr := phdrs.filter fun ph => ph.pType = PT_LOAD

/-- The tables differ by a permutation of the `PT_LOAD` headers among their slots. -/
structure PermutedLoads (phdrs phdrs' : List Phdr) : Prop where
  slots : List.Forall₂ (fun ph ph' => ph = ph' ∨ ph.pType = PT_LOAD ∧ ph'.pType = PT_LOAD)
    phdrs phdrs'
  loads : (loadsOf phdrs).Perm (loadsOf phdrs')

/-- Two files that differ by such a permutation. -/
structure PermutedFiles (f f' : Bytes) : Prop where
  length_eq : f.length = f'.length
  head_eq : bytesAt f 0 EHDR_SIZE = bytesAt f' 0 EHDR_SIZE
  table : PermutedLoads (phdrsAt f) (phdrsAt f')

theorem PermutedFiles.symm {f f' : Bytes} (h : PermutedFiles f f') : PermutedFiles f' f := by
  constructor
  · exact h.length_eq.symm
  · exact h.head_eq.symm
  · constructor
    · apply List.Forall₂.flip
      apply h.table.slots.imp
      intro ph ph' hslot
      exact hslot.imp Eq.symm And.symm
    · exact h.table.loads.symm

theorem PermutedFiles.ehdr_eq {f f' : Bytes} (h : PermutedFiles f f') : ehdrAt f = ehdrAt f' := by
  rw [← ehdrAt_bytesAt, h.head_eq, ehdrAt_bytesAt]

/-- The headers of every other type are the same. -/
theorem PermutedLoads.filter_eq {phdrs phdrs' : List Phdr} (h : PermutedLoads phdrs phdrs')
    {type : Nat} (htype : type ≠ PT_LOAD) :
    phdrs.filter (fun ph => ph.pType = type) = phdrs'.filter fun ph => ph.pType = type := by
  have hslots := h.slots
  clear h
  induction hslots with
  | nil => rfl
  | @cons ph ph' rest rest' hslot _ ih =>
    rcases hslot with rfl | ⟨hload, hload'⟩
    · rw [List.filter_cons, List.filter_cons, ih]
    · rw [List.filter_cons_of_neg (by simpa using hload.trans_ne htype.symm),
        List.filter_cons_of_neg (by simpa using hload'.trans_ne htype.symm), ih]

/-! ### What does not depend on the order -/

/-- All checks of the parser but the neighbour test. -/
structure Checked (arch : Arch) (pg : PageSize) (f : Bytes) : Prop where
  present : EHDR_SIZE ≤ f.length
  header : HeaderOk arch (some f.length) (ehdrAt f)
  load : ∀ ph ∈ loadsOf (phdrsAt f), LoadOk pg.bytes (some f.length) ph
  interp : ∀ ph ∈ (phdrsAt f).filter (fun ph => ph.pType = PT_INTERP), InterpOk (some f.length) ph
  interp_one : ((phdrsAt f).filter fun ph => ph.pType = PT_INTERP).length ≤ 1
  ne_nil : loadsOf (phdrsAt f) ≠ []

theorem PermutedFiles.checked {arch : Arch} {pg : PageSize} {f f' : Bytes}
    (h : PermutedFiles f f') (hc : Checked arch pg f) : Checked arch pg f' := by
  have hinterp := h.table.filter_eq (show PT_INTERP ≠ PT_LOAD by decide)
  constructor
  · exact h.length_eq ▸ hc.present
  · rw [← h.length_eq, ← h.ehdr_eq]
    exact hc.header
  · intro ph hph
    rw [← h.length_eq]
    exact hc.load ph (h.table.loads.mem_iff.mpr hph)
  · intro ph hph
    rw [← hinterp] at hph
    rw [← h.length_eq]
    exact hc.interp ph hph
  · rw [← hinterp]
    exact hc.interp_one
  · intro hnil
    have hperm := h.table.loads
    rw [hnil] at hperm
    exact hc.ne_nil hperm.eq_nil

/-- The pages of two segments do not meet, whichever comes first. -/
def ApartFrom (pg : PageSize) (a b : Phdr) : Prop := a.fin pg ≤ b.pVaddr ∨ b.fin pg ≤ a.pVaddr

def Apart (pg : PageSize) (phdrs : List Phdr) : Prop := (loadsOf phdrs).Pairwise (ApartFrom pg)

theorem PermutedLoads.apart {pg : PageSize} {phdrs phdrs' : List Phdr}
    (h : PermutedLoads phdrs phdrs') (ha : Apart pg phdrs) : Apart pg phdrs' :=
  h.loads.pairwise ha fun hab => hab.symm

/-- No empty segment stands behind one at the same address that is not empty. -/
def TiesInOrder (phdrs : List Phdr) : Prop :=
  (loadsOf phdrs).Pairwise fun a b => a.pVaddr = b.pVaddr → b.pMemsz = 0 → a.pMemsz = 0

instance (phdrs : List Phdr) : Decidable (TiesInOrder phdrs) :=
  inferInstanceAs (Decidable (List.Pairwise _ _))

/-! ### The neighbour test -/

theorem loadsOf_eq_map (phdrs : List Phdr) : loadsOf phdrs = (loadIdxs phdrs 0).map (hdr phdrs) := by
  have hgen : ∀ before rest : List Phdr,
      (loadIdxs rest before.length).map (hdr (before ++ rest)) = loadsOf rest := by
    intro before rest
    induction rest generalizing before with
    | nil => rfl
    | cons ph rest ih =>
      have hrest := ih (before ++ [ph])
      rw [List.length_append, List.length_singleton, List.append_assoc, List.singleton_append] at hrest
      have hhere : hdr (before ++ ph :: rest) before.length = ph := by
        apply hdr_eq
        simp
      rw [loadIdxs, loadsOf, List.filter_cons]
      by_cases hload : ph.pType = PT_LOAD
      · simp only [hload, if_true, decide_true, List.map_cons, hhere, hrest]
        rfl
      · simp only [hload, if_false, decide_false, hrest]
        rfl
  exact (hgen [] phdrs).symm

section Order

variable {pg : PageSize} {phdrs : List Phdr} {loads : List Nat}

theorem IsLoadOrder.perm (h : IsLoadOrder phdrs loads) : loads.Perm (loadIdxs phdrs 0) := by
  have hlt : (loadIdxs phdrs 0).Nodup := (pairwise_loadIdxs phdrs 0).imp Nat.ne_of_lt
  apply (List.perm_ext_iff_of_nodup (h.sorted.imp VaddrLt.ne) hlt).mpr
  intro i
  exact (h.mem_iff i).trans mem_loadIdxs_zero.symm

/-- The segments in the order of the parser are the headers in some order. -/
theorem IsLoadOrder.map_perm (h : IsLoadOrder phdrs loads) :
    (loads.map (hdr phdrs)).Perm (loadsOf phdrs) := by
  rw [loadsOf_eq_map]
  exact h.perm.map _

/-- What holds of every two headers in table order. -/
theorem IsLoadOrder.pairwise_iff (h : IsLoadOrder phdrs loads) {R : Phdr → Phdr → Prop} :
    (loadsOf phdrs).Pairwise R ↔
      ∀ i ∈ loads, ∀ j ∈ loads, i < j → R (hdr phdrs i) (hdr phdrs j) := by
  rw [loadsOf_eq_map, List.pairwise_map,
    pairwise_iff_of_sorted (pairwise_loadIdxs phdrs 0) fun _ _ => Nat.lt_asymm]
  simp only [h.perm.mem_iff]

/-- **The neighbour test** passes when no two segments overlap and the ties are in
    order. -/
theorem IsLoadOrder.chain_iff (h : IsLoadOrder phdrs loads) :
    loads.IsChain (SegBefore pg phdrs) ↔ Apart pg phdrs ∧ TiesInOrder phdrs := by
  rw [List.isChain_iff_pairwise, pairwise_iff_of_sorted h.sorted fun _ _ => VaddrLt.asymm, Apart,
    h.pairwise_iff, TiesInOrder, h.pairwise_iff]
  constructor
  · intro hbefore
    constructor
    · intro i hi j hj hij
      rcases Nat.lt_or_ge (hdr phdrs j).pVaddr (hdr phdrs i).pVaddr with hlt | hge
      · exact Or.inr (hbefore j hj i hi (Or.inl hlt))
      · apply Or.inl
        apply hbefore i hi j hj
        rcases Nat.lt_or_eq_of_le hge with hlt | heq
        · exact Or.inl hlt
        · exact Or.inr ⟨heq, hij⟩
    · intro i hi j hj hij heq _
      have hle : (hdr phdrs i).fin pg ≤ (hdr phdrs j).pVaddr :=
        hbefore i hi j hj (Or.inr ⟨heq, hij⟩)
      have hmem := mem_le_fin pg (hdr phdrs i)
      omega
  · intro hboth i hi j hj hlt
    rcases hboth with ⟨hapart, hties⟩
    have hmemj := mem_le_fin pg (hdr phdrs j)
    have hsym : ApartFrom pg (hdr phdrs i) (hdr phdrs j) := by
      rcases Nat.lt_or_gt_of_ne hlt.ne with hij | hji
      · exact hapart i hi j hj hij
      · exact (hapart j hj i hi hji).symm
    rcases hsym with hbefore | hafter
    · exact hbefore
    · -- only an empty segment at the same address can be on the wrong side
      rcases hlt with hlt | ⟨heq, hij⟩
      · omega
      · have hempty : (hdr phdrs j).pMemsz = 0 := by omega
        have hempty' := hties i hi j hj hij heq hempty
        have hfin : (hdr phdrs i).fin pg = (hdr phdrs j).fin pg := by
          rw [Phdr.fin, Phdr.fin, heq, hempty, hempty']
        change (hdr phdrs i).fin pg ≤ (hdr phdrs j).pVaddr
        omega

end Order

def Accepts (arch : Arch) (pg : PageSize) (f : Bytes) : Prop :=
  ∃ image, parseSlice arch f pg = some (ok image)

/-- **When a file is accepted**, with the order of its segments kept apart from the
    rest. -/
theorem accepts_iff {arch : Arch} {pg : PageSize} (f : Slice) :
    Accepts arch pg f.val ↔
      Checked arch pg f.val ∧ Apart pg (phdrsAt f.val) ∧ TiesInOrder (phdrsAt f.val) := by
  have hload {ph : Phdr} : ph ∈ loadsOf (phdrsAt f.val) ↔
      ph ∈ phdrsAt f.val ∧ ph.pType = PT_LOAD := by simp [loadsOf]
  have hinterp {ph : Phdr} : ph ∈ (phdrsAt f.val).filter (fun ph => ph.pType = PT_INTERP) ↔
      ph ∈ phdrsAt f.val ∧ ph.pType = PT_INTERP := by simp
  constructor
  · intro hparse
    rcases hparse with ⟨image, hparse⟩
    have hdec := decoded_of_parseSlice hparse
    have htable := hdec.table
    have hheader := hdec.header
    rw [hdec.phdrs_slice] at htable
    rw [hdec.ehdr_slice.2] at hheader
    refine ⟨?_, htable.order.chain_iff.mp htable.chain⟩
    constructor
    · exact hdec.ehdr_slice.1
    · exact hheader
    · exact fun ph hph => htable.load_ok ph (hload.mp hph).1 (hload.mp hph).2
    · exact fun ph hph => htable.interp_ok ph (hinterp.mp hph).1 (hinterp.mp hph).2
    · rw [← interpCount_eq]
      exact htable.interp_one
    · intro hnil
      have hperm := htable.order.map_perm
      rw [hnil] at hperm
      exact htable.ne_nil (List.map_eq_nil_iff.mp hperm.eq_nil)
  · intro h
    rcases h with ⟨hc, horder⟩
    rcases exists_loadOrder (phdrsAt f.val) with ⟨loads, hloads⟩
    refine ⟨imageOf (ehdrAt f.val) (phdrsAt f.val) loads,
      parseSlice_of_table hc.present hc.header ?_⟩
    constructor
    · exact fun ph hph htype => hc.load ph (hload.mpr ⟨hph, htype⟩)
    · exact fun ph hph htype => hc.interp ph (hinterp.mpr ⟨hph, htype⟩)
    · rw [interpCount_eq]
      exact hc.interp_one
    · intro hnil
      have hperm := hloads.map_perm
      rw [hnil, List.map_nil] at hperm
      exact hc.ne_nil hperm.symm.eq_nil
    · exact hloads.mem_iff
    · exact hloads.sorted
    · exact hloads.chain_iff.mpr horder

/-! ### What a permutation leaves as it was -/

/-- What a plan says about a segment, but for its place in the table. -/
def pieces (seg : SegmentPlan) : Option FileMap × Option AnonMap × Option AnonMap × Nat :=
  (seg.file, seg.zero, seg.anon, seg.prot)

/-- Two plans that do the same. -/
structure SamePlan (p p' : LoadPlan) : Prop where
  bias : p.bias = p'.bias
  reserve : p.reserveAddr = p'.reserveAddr ∧ p.reserveLen = p'.reserveLen
  entry : p.entry = p'.entry
  pieces : (p.segments.map pieces).Perm (p'.segments.map pieces)

/-- Two images that load in the same way. -/
structure SameImage (pg : PageSize) (image image' : Image) : Prop where
  span : image.vaSpan pg.bytes = image'.vaSpan pg.bytes
  align : (segAlign image pg.bytes : Outcome Error Nat) = segAlign image' pg.bytes
  planned : ∀ reserved pl,
    (∃ p, plan reserved image pg.bytes pl = ok p) ↔ ∃ p', plan reserved image' pg.bytes pl = ok p'
  plans : ∀ reserved pl p p', plan reserved image pg.bytes pl = ok p →
    plan reserved image' pg.bytes pl = ok p' → SamePlan p p'

/-- Two images with the same segments, in whatever order. -/
structure SameSegments (pg : PageSize) (image image' : Image) : Prop where
  valid : image.Valid pg
  valid' : image'.Valid pg
  ehdr : image.ehdr = image'.ehdr
  segs : (image.loads.map image.seg).Perm (image'.loads.map image'.seg)

section Same

variable {pg : PageSize} {image image' : Image}

theorem SameSegments.symm (h : SameSegments pg image image') : SameSegments pg image' image :=
  ⟨h.valid', h.valid, h.ehdr.symm, h.segs.symm⟩

theorem SameSegments.exists_seg (h : SameSegments pg image image') {i : Nat} (hi : i ∈ image.loads) :
    ∃ j ∈ image'.loads, image'.seg j = image.seg i :=
  List.mem_map.mp (h.segs.mem_iff.mp (List.mem_map_of_mem hi))

theorem SameSegments.lo_le (h : SameSegments pg image image') : image.lo pg ≤ image'.lo pg := by
  rcases h.valid'.exists_lo with ⟨j, hj, hlo⟩
  rcases h.symm.exists_seg hj with ⟨i, hi, hseg⟩
  rw [← hlo, ← hseg]
  exact h.valid.lo_le hi

theorem SameSegments.hi_le (h : SameSegments pg image image') : image.hi pg ≤ image'.hi pg := by
  rcases h.valid.exists_hi with ⟨i, hi, hhi⟩
  rcases h.exists_seg hi with ⟨j, hj, hseg⟩
  rw [← hhi, ← hseg]
  exact h.valid'.le_hi hj

theorem SameSegments.lo_eq (h : SameSegments pg image image') : image.lo pg = image'.lo pg :=
  le_antisymm h.lo_le h.symm.lo_le

theorem SameSegments.hi_eq (h : SameSegments pg image image') : image.hi pg = image'.hi pg :=
  le_antisymm h.hi_le h.symm.hi_le

theorem strongerAlign_eq (a p : Nat) :
    strongerAlign a p = if U64.isPowerOfTwo p = true then max a p else a := by
  unfold strongerAlign
  by_cases hp : U64.isPowerOfTwo p = true
  · simp only [hp, and_true, if_true]
    split <;> omega
  · rw [if_neg hp, if_neg fun h => hp h.2]

/-- The strongest alignment is the same in every order. -/
theorem strongerAlign_comm (a p q : Nat) :
    strongerAlign (strongerAlign a p) q = strongerAlign (strongerAlign a q) p := by
  simp only [strongerAlign_eq]
  split <;> split <;> first | exact max_right_comm a p q | rfl

theorem SameSegments.alignOf_eq (h : SameSegments pg image image') :
    alignOf pg image = alignOf pg image' := by
  have hfold (image : Image) :
      image.loads.foldl (fun a i => strongerAlign a (image.seg i).pAlign) pg.bytes =
        (image.loads.map image.seg).foldl (fun a ph => strongerAlign a ph.pAlign) pg.bytes := by
    rw [List.foldl_map]
  have hperm := h.segs.foldl_eq' (f := fun a ph => strongerAlign a ph.pAlign)
    (fun ph _ ph' _ a => strongerAlign_comm a ph.pAlign ph'.pAlign) pg.bytes
  rw [alignOf, alignOf, hfold, hfold, hperm]

theorem SameSegments.needOf_eq (h : SameSegments pg image image') :
    needOf pg image = needOf pg image' := by
  rw [needOf, needOf, h.lo_eq, h.hi_eq, h.alignOf_eq]

/-- The closed form of a plan does not depend on the order, its segments apart. -/
theorem SameSegments.samePlan (h : SameSegments pg image image') (pl : Placement) :
    SamePlan (planFor pg image pl) (planFor pg image' pl) := by
  have hpieces (bias : Nat) (image : Image) :
      (image.loads.map fun i => segOf pg bias i (image.seg i)).map pieces =
        (image.loads.map image.seg).map fun ph => pieces (segOf pg bias 0 ph) := by
    rw [List.map_map, List.map_map]
    rfl
  have hbias (raw : Nat) : biasAt pg image raw = biasAt pg image' raw := by
    rw [biasAt, biasAt, h.alignOf_eq, h.lo_eq]
  cases pl with
  | fixed =>
    constructor
    · rfl
    · exact ⟨h.lo_eq, by simp only [planFor, planOf, h.lo_eq, h.hi_eq]⟩
    · simp only [planFor, planOf, h.ehdr]
    · simp only [planFor, planOf, hpieces]
      exact h.segs.map _
  | «at» raw =>
    constructor
    · exact hbias raw
    · exact ⟨rfl, h.needOf_eq⟩
    · simp only [planFor, planOf, h.ehdr, hbias]
    · simp only [planFor, planOf, hpieces, hbias]
      exact h.segs.map _

theorem SameSegments.plan_ok (h : SameSegments pg image image') {reserved : Bool} {pl : Placement}
    {p : LoadPlan} (hplan : plan reserved image pg.bytes pl = ok p) :
    plan reserved image' pg.bytes pl = ok (planFor pg image' pl) := by
  rcases plan_ok_inv h.valid hplan with ⟨hhi, hneed, hfits, hend, rfl⟩
  have hhi' : image'.hi pg < 2 ^ 64 := h.hi_eq ▸ hhi
  cases pl with
  | fixed =>
    rw [plan_fixed_eq h.valid hhi] at hplan
    rw [plan_fixed_eq h.valid' hhi']
    split at hplan
    · rename_i hreserved
      rw [if_pos hreserved]
    · cases hplan
  | «at» raw =>
    have hneed : needOf pg image < 2 ^ 64 := hneed.resolve_left (by simp)
    have hreserved := ((plan_eq_ok h.valid hhi hneed).mp hplan).1
    apply (plan_eq_ok h.valid' hhi' (h.needOf_eq ▸ hneed)).mpr
    simp only [PlanFits, EndsInside, biasAt, h.ehdr, h.lo_eq, h.hi_eq, h.alignOf_eq] at hfits hend
    exact ⟨hreserved, hfits, hend, rfl⟩

/-- Images with the same segments load in the same way. -/
theorem SameSegments.sameImage (h : SameSegments pg image image') : SameImage pg image image' := by
  constructor
  · rw [h.valid.vaSpan_eq, h.valid'.vaSpan_eq, h.lo_eq, h.hi_eq]
  · rw [segAlign_eq h.valid, segAlign_eq h.valid', h.alignOf_eq]
  · intro reserved pl
    constructor
    · rintro ⟨p, hp⟩
      exact ⟨_, h.plan_ok hp⟩
    · rintro ⟨p, hp⟩
      exact ⟨_, h.symm.plan_ok hp⟩
  · intro reserved pl p p' hp hp'
    rcases plan_ok_inv h.valid hp with ⟨-, -, -, -, rfl⟩
    rcases plan_ok_inv h.valid' hp' with ⟨-, -, -, -, rfl⟩
    exact h.samePlan pl

end Same

/-- The order of the segments makes no difference between the two files. -/
def OrderIrrelevant (arch : Arch) (pg : PageSize) (f f' : Bytes) : Prop :=
  (Accepts arch pg f ↔ Accepts arch pg f') ∧
    ∀ image image', parseSlice arch f pg = some (ok image) →
      parseSlice arch f' pg = some (ok image') → SameImage pg image image'

/-- **When the order matters.**  For files that differ by a permutation of their
    `PT_LOAD` headers the order makes no difference, unless all other checks pass, no
    two segments overlap, and one table has its ties in order and the other has not. -/
theorem load_order_irrelevant_iff (arch : Arch) (pg : PageSize) {f f' : Slice}
    (h : PermutedFiles f.val f'.val) :
    OrderIrrelevant arch pg f.val f'.val ↔
      (Checked arch pg f.val → Apart pg (phdrsAt f.val) →
        (TiesInOrder (phdrsAt f.val) ↔ TiesInOrder (phdrsAt f'.val))) := by
  have hchecked : Checked arch pg f.val ↔ Checked arch pg f'.val := ⟨h.checked, h.symm.checked⟩
  have hapart : Apart pg (phdrsAt f.val) ↔ Apart pg (phdrsAt f'.val) :=
    ⟨h.table.apart, h.symm.table.apart⟩
  have hsame : ∀ image image', parseSlice arch f.val pg = some (ok image) →
      parseSlice arch f'.val pg = some (ok image') → SameImage pg image image' := by
    intro image image' hparse hparse'
    have hdec := decoded_of_parseSlice hparse
    have hdec' := decoded_of_parseSlice hparse'
    apply SameSegments.sameImage
    constructor
    · exact hdec.valid
    · exact hdec'.valid
    · rw [hdec.ehdr_slice.2, hdec'.ehdr_slice.2, h.ehdr_eq]
    · have hperm : (image.loads.map image.seg).Perm (loadsOf (phdrsAt f.val)) := by
        rw [← hdec.phdrs_slice]
        exact hdec.table.order.map_perm
      have hperm' : (image'.loads.map image'.seg).Perm (loadsOf (phdrsAt f'.val)) := by
        rw [← hdec'.phdrs_slice]
        exact hdec'.table.order.map_perm
      exact (hperm.trans h.table.loads).trans hperm'.symm
  constructor
  · intro hirr hc ha
    have hiff := hirr.1
    rw [accepts_iff, accepts_iff, ← hchecked, ← hapart] at hiff
    constructor
    · exact fun ht => (hiff.mp ⟨hc, ha, ht⟩).2.2
    · exact fun ht => (hiff.mpr ⟨hc, ha, ht⟩).2.2
  · intro hties
    refine ⟨?_, hsame⟩
    rw [accepts_iff, accepts_iff, ← hchecked, ← hapart]
    constructor
    · exact fun hacc => ⟨hacc.1, hacc.2.1, (hties hacc.1 hacc.2.1).mp hacc.2.2⟩
    · exact fun hacc => ⟨hacc.1, hacc.2.1, (hties hacc.1 hacc.2.1).mpr hacc.2.2⟩

section Small

open AddressSpace

def pairElf (ph ph' : Phdr) : Bytes := buildElf .x86_64 ET_DYN 0x1000 [ph, ph'] []

theorem permuted_pairElf {ph ph' : Phdr} (hload : ph.pType = PT_LOAD) (hload' : ph'.pType = PT_LOAD)
    (hlength : (pairElf ph ph').length = (pairElf ph' ph).length)
    (hhead : bytesAt (pairElf ph ph') 0 EHDR_SIZE = bytesAt (pairElf ph' ph) 0 EHDR_SIZE)
    (htable : phdrsAt (pairElf ph ph') = [ph, ph'])
    (htable' : phdrsAt (pairElf ph' ph) = [ph', ph]) :
    PermutedFiles (pairElf ph ph') (pairElf ph' ph) := by
  constructor
  · exact hlength
  · exact hhead
  · rw [htable, htable']
    constructor
    · exact .cons (Or.inr ⟨hload, hload'⟩) (.cons (Or.inr ⟨hload', hload⟩) .nil)
    · exact (List.Perm.swap ph' ph []).filter _

/-- A page of `.bss`, another one, and an empty segment where the first one starts. -/
def lowPhdr : Phdr := ⟨PT_LOAD, PF_R ||| PF_X, 0, 0x1000, 0x1000, 0, 0x10, 0x1000⟩

def highPhdr : Phdr := ⟨PT_LOAD, PF_R ||| PF_W, 0, 0x2000, 0x2000, 0, 0x10, 0x1000⟩

def emptyPhdr : Phdr := ⟨PT_LOAD, PF_R ||| PF_W, 0, 0x1000, 0x1000, 0, 0, 0x1000⟩

/-- Segments at different addresses may stand in any order. -/
theorem high_low_irrelevant :
    OrderIrrelevant .x86_64 page4K (pairElf highPhdr lowPhdr) (pairElf lowPhdr highPhdr) := by
  let f : Slice := ⟨pairElf highPhdr lowPhdr, by decide +kernel⟩
  let g : Slice := ⟨pairElf lowPhdr highPhdr, by decide +kernel⟩
  have hperm : PermutedFiles f.val g.val :=
    permuted_pairElf rfl rfl (by decide +kernel) (by decide +kernel) (by decide +kernel)
      (by decide +kernel)
  apply (load_order_irrelevant_iff .x86_64 page4K hperm).mpr
  intro _ _
  have hties : TiesInOrder (phdrsAt (pairElf highPhdr lowPhdr)) := by decide +kernel
  have hties' : TiesInOrder (phdrsAt (pairElf lowPhdr highPhdr)) := by decide +kernel
  exact iff_of_true hties hties'

/-- With the empty segment in front the file is accepted; behind the other one it is
    refused as overlapping. -/
theorem empty_order_matters :
    PermutedFiles (pairElf emptyPhdr lowPhdr) (pairElf lowPhdr emptyPhdr) ∧
      parseSlice .x86_64 (pairElf lowPhdr emptyPhdr) page4K =
        some (err (.malformed "overlapping PT_LOAD segments")) ∧
      ¬ OrderIrrelevant .x86_64 page4K (pairElf emptyPhdr lowPhdr) (pairElf lowPhdr emptyPhdr) := by
  have hok : parseSlice .x86_64 (pairElf emptyPhdr lowPhdr) page4K =
      some (ok (imageOf (ehdrAt (pairElf emptyPhdr lowPhdr)) [emptyPhdr, lowPhdr] [0, 1])) := by
    decide +kernel
  have herr : parseSlice .x86_64 (pairElf lowPhdr emptyPhdr) page4K =
      some (err (.malformed "overlapping PT_LOAD segments")) := by
    decide +kernel
  refine ⟨?_, herr, ?_⟩
  · exact permuted_pairElf rfl rfl (by decide +kernel) (by decide +kernel) (by decide +kernel)
      (by decide +kernel)
  · intro hirr
    rcases hirr.1.mp ⟨_, hok⟩ with ⟨image, himage⟩
    rw [herr] at himage
    cases himage

end Small

end ElfLoader.Elf
