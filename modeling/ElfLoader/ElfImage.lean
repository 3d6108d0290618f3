import ElfLoader.ElfValidation
import ElfLoader.StableSort

/-!
# The image the parser assembles

Classification, sort and overlap test, and from them the invariant of a parsed
image: its loadable segments occupy page ranges that follow one another.
-/

namespace ElfLoader.Elf

open ElfLoader Outcome

/-! ### Classification -/

/-- `classifyOne` without its tests. -/
def collectOne (c : Classified) (i : Nat) (ph : Phdr) : Classified :=
  if ph.pType = PT_LOAD then { c with loads := c.loads ++ [i] }
  else if ph.pType = PT_INTERP then { c with interp := some ph }
  else if ph.pType = PT_PHDR then { c with phdrSeg := some ph }
  else if ph.pType = PT_TLS then { c with tls := some ph }
  else if ph.pType = PT_GNU_RELRO then { c with relro := some ph }
  else if ph.pType = PT_GNU_STACK then { c with execStack := ph.isExec }
  else c

/-- `classify` without its tests. -/
def collect : List Phdr → Nat → Classified → Classified
  | [], _, c => c
  | ph :: rest, i, c => collect rest (i + 1) (collectOne c i ph)

theorem classifyOne_eq_ok (pg : PageSize) {size : Option Nat} {c c' : Classified} {i : Nat}
    {ph : Phdr} :
    classifyOne pg.bytes size c i ph = ok c' ↔
      (ph.pType = PT_LOAD → LoadOk pg.bytes size ph) ∧
      (ph.pType = PT_INTERP → c.interp = none ∧ InterpOk size ph) ∧
      c' = collectOne c i ph := by
  have hne : PT_LOAD ≠ PT_INTERP := by decide
  unfold classifyOne collectOne
  by_cases hload : ph.pType = PT_LOAD
  · simp only [hload, if_true, bind_eq_ok, validateLoad_eq_ok pg, ok.injEq, hne, true_implies,
      false_implies, true_and]
    constructor
    · rintro ⟨-, h, rfl⟩
      exact ⟨h, rfl⟩
    · rintro ⟨h, rfl⟩
      exact ⟨(), h, rfl⟩
  · by_cases hinterp : ph.pType = PT_INTERP
    · simp only [hinterp, hne.symm, if_true, if_false, bind_eq_ok, validateInterp_eq_ok,
        ok.injEq, true_implies, false_implies, true_and]
      constructor
      · rintro ⟨-, h, rfl⟩
        exact ⟨h, rfl⟩
      · rintro ⟨h, rfl⟩
        exact ⟨(), h, rfl⟩
    · simp only [hload, hinterp, if_false, false_implies, true_and]
      repeat' split
      all_goals simp only [ok.injEq, eq_comm]

theorem classifyOne_ne_panic (pg : PageSize) (size : Option Nat) (c : Classified) (i : Nat)
    (ph : Phdr) : classifyOne pg.bytes size c i ph ≠ panic := by
  unfold classifyOne
  split
  · exact bind_ne_panic (validateLoad_ne_panic pg ph size) fun _ _ => ok_ne_panic
  · split
    · exact bind_ne_panic (validateInterp_ne_panic ph _ size) fun _ _ => ok_ne_panic
    · repeat' split
      all_goals exact ok_ne_panic

theorem classify_ne_panic (pg : PageSize) (size : Option Nat) (phdrs : List Phdr) (i : Nat)
    (c : Classified) : classify pg.bytes size phdrs i c ≠ panic := by
  induction phdrs generalizing i c with
  | nil => exact ok_ne_panic
  | cons ph rest ih =>
    exact bind_ne_panic (classifyOne_ne_panic pg size c i ph) fun c _ => ih (i + 1) c

def interpCount (phdrs : List Phdr) : Nat := phdrs.countP fun ph => ph.pType == PT_INTERP

theorem collectOne_interp_ne (c : Classified) (i : Nat) {ph : Phdr}
    (h : ph.pType ≠ PT_INTERP) : (collectOne c i ph).interp = c.interp := by
  unfold collectOne
  rw [if_neg h]
  repeat' split
  all_goals rfl

theorem collectOne_interp_eq (c : Classified) (i : Nat) {ph : Phdr}
    (h : ph.pType = PT_INTERP) : (collectOne c i ph).interp = some ph := by
  have hne : PT_INTERP ≠ PT_LOAD := by decide
  simp [collectOne, h, hne]

/-- The classification loop accepts exactly the tables whose `PT_LOAD` and
    `PT_INTERP` headers pass their tests and that have at most one of the
    latter. -/
theorem classify_eq_ok (pg : PageSize) {size : Option Nat} (phdrs : List Phdr) (i : Nat)
    (c c' : Classified) :
    classify pg.bytes size phdrs i c = ok c' ↔
      (∀ ph ∈ phdrs, ph.pType = PT_LOAD → LoadOk pg.bytes size ph) ∧
      (∀ ph ∈ phdrs, ph.pType = PT_INTERP → InterpOk size ph) ∧
      interpCount phdrs + c.interp.toList.length ≤ 1 ∧
      c' = collect phdrs i c := by
  induction phdrs generalizing i c with
  | nil =>
    have h : c.interp.toList.length ≤ 1 := by cases c.interp <;> simp
    simp only [classify, collect, interpCount, List.countP_nil, ok.injEq]
    constructor
    · rintro rfl
      exact ⟨by simp, by simp, by omega, rfl⟩
    · rintro ⟨-, -, -, rfl⟩
      rfl
  | cons ph rest ih =>
    simp only [classify, bind_eq_ok, classifyOne_eq_ok pg, collect, List.forall_mem_cons]
    constructor
    · rintro ⟨c₁, ⟨hload, hinterp, rfl⟩, hrest⟩
      obtain ⟨hloads, hinterps, hcount, rfl⟩ := (ih _ _).mp hrest
      refine ⟨⟨hload, hloads⟩, ⟨fun h => (hinterp h).2, hinterps⟩, ?_, rfl⟩
      by_cases h : ph.pType = PT_INTERP
      · rw [collectOne_interp_eq c i h] at hcount
        simp only [interpCount, List.countP_cons, h, (hinterp h).1] at hcount ⊢
        simpa using hcount
      · rw [collectOne_interp_ne c i h] at hcount
        simpa [interpCount, List.countP_cons, h] using hcount
    · rintro ⟨⟨hload, hloads⟩, ⟨hinterp, hinterps⟩, hcount, rfl⟩
      refine ⟨_, ⟨hload, fun h => ⟨?_, hinterp h⟩, rfl⟩, (ih _ _).mpr ⟨hloads, hinterps, ?_, rfl⟩⟩
      · simp only [interpCount, List.countP_cons, h, beq_self_eq_true, if_true] at hcount
        cases hc : c.interp with
        | none => rfl
        | some q => simp [hc] at hcount
      · by_cases h : ph.pType = PT_INTERP
        · rw [collectOne_interp_eq c i h]
          simp only [interpCount, List.countP_cons, h, beq_self_eq_true, if_true] at hcount
          simp only [interpCount, Option.toList_some, List.length_singleton]
          omega
        · rw [collectOne_interp_ne c i h]
          simpa [interpCount, List.countP_cons, h] using hcount

/-- The positions of the `PT_LOAD` headers, counted from `i`. -/
def loadIdxs : List Phdr → Nat → List Nat
  | [], _ => []
  | ph :: rest, i => if ph.pType = PT_LOAD then i :: loadIdxs rest (i + 1) else loadIdxs rest (i + 1)

theorem collect_loads (phdrs : List Phdr) (i : Nat) (c : Classified) :
    (collect phdrs i c).loads = c.loads ++ loadIdxs phdrs i := by
  induction phdrs generalizing i c with
  | nil => simp [collect, loadIdxs]
  | cons ph rest ih =>
    rw [collect, ih, loadIdxs]
    by_cases h : ph.pType = PT_LOAD
    · simp [collectOne, h]
    · have hl : (collectOne c i ph).loads = c.loads := by
        unfold collectOne
        rw [if_neg h]
        repeat' split
        all_goals rfl
      rw [hl, if_neg h]

theorem mem_loadIdxs {phdrs : List Phdr} {i j : Nat} :
    j ∈ loadIdxs phdrs i ↔ i ≤ j ∧ ∃ ph, phdrs[j - i]? = some ph ∧ ph.pType = PT_LOAD := by
  induction phdrs generalizing i with
  | nil => simp [loadIdxs]
  | cons ph rest ih =>
    have hstep : (i ≤ j ∧ ∃ q, (ph :: rest)[j - i]? = some q ∧ q.pType = PT_LOAD) ↔
        (j = i ∧ ph.pType = PT_LOAD) ∨ j ∈ loadIdxs rest (i + 1) := by
      rw [ih]
      rcases Nat.lt_trichotomy j i with hlt | rfl | hgt
      · constructor
        · rintro ⟨h, -⟩
          omega
        · rintro (⟨h, -⟩ | ⟨h, -⟩) <;> omega
      · simp
      · have hidx : j - i = j - (i + 1) + 1 := by omega
        rw [hidx, List.getElem?_cons_succ]
        constructor
        · rintro ⟨-, h⟩
          exact Or.inr ⟨hgt, h⟩
        · rintro (⟨h, -⟩ | ⟨-, h⟩)
          · omega
          · exact ⟨le_of_lt hgt, h⟩
    rw [hstep, loadIdxs]
    by_cases h : ph.pType = PT_LOAD <;> simp [h]

theorem pairwise_loadIdxs (phdrs : List Phdr) (i : Nat) :
    (loadIdxs phdrs i).Pairwise (· < ·) := by
  induction phdrs generalizing i with
  | nil => exact List.Pairwise.nil
  | cons ph rest ih =>
    rw [loadIdxs]
    split
    · refine List.pairwise_cons.mpr ⟨?_, ih (i + 1)⟩
      intro j hj
      exact (mem_loadIdxs.mp hj).1
    · exact ih (i + 1)

/-! ### Order -/

/-- Header `i` of the table; the default header past its end. -/
def hdr (phdrs : List Phdr) (i : Nat) : Phdr := phdrs.getD i default

theorem hdr_eq {phdrs : List Phdr} {i : Nat} {ph : Phdr} (h : phdrs[i]? = some ph) :
    hdr phdrs i = ph := by
  simp [hdr, List.getD_eq_getElem?_getD, h]

theorem index_hdr {ε : Type} {phdrs : List Phdr} {i : Nat} (h : i < phdrs.length) :
    (index phdrs i : Outcome ε Phdr) = ok (hdr phdrs i) := by
  rw [index_of_lt h, hdr_eq (List.getElem?_eq_getElem h)]

theorem hdr_mem {phdrs : List Phdr} {i : Nat} (h : i < phdrs.length) : hdr phdrs i ∈ phdrs := by
  rw [hdr_eq (List.getElem?_eq_getElem h)]
  exact List.getElem_mem h

/-- Ascending `p_vaddr`, ties in table order. -/
def VaddrLt (phdrs : List Phdr) (i j : Nat) : Prop :=
  (hdr phdrs i).pVaddr < (hdr phdrs j).pVaddr ∨
    ((hdr phdrs i).pVaddr = (hdr phdrs j).pVaddr ∧ i < j)

theorem VaddrLt.ne {phdrs : List Phdr} {i j : Nat} (h : VaddrLt phdrs i j) : i ≠ j := by
  rintro rfl
  rcases h with h | h <;> omega

theorem VaddrLt.asymm {phdrs : List Phdr} {i j : Nat} (h : VaddrLt phdrs i j) :
    ¬ VaddrLt phdrs j i := by
  unfold VaddrLt at *
  omega

theorem loadKeys_eq {phdrs : List Phdr} {loads : List Nat}
    (h : ∀ i ∈ loads, i < phdrs.length) :
    loadKeys phdrs loads = ok (loads.map fun i => ((hdr phdrs i).pVaddr, i)) := by
  induction loads with
  | nil => rfl
  | cons i rest ih =>
    rw [List.forall_mem_cons] at h
    rw [loadKeys, index_hdr h.1, ok_bind, ih h.2, ok_bind, List.map_cons]

/-- The sort of the `PT_LOAD` indices succeeds, permutes them and orders them. -/
theorem sortLoads_eq {phdrs : List Phdr} {loads : List Nat}
    (h : ∀ i ∈ loads, i < phdrs.length) (hlt : loads.Pairwise (· < ·)) :
    ∃ sorted, sortLoads phdrs loads = ok sorted ∧ sorted.Perm loads ∧
      sorted.Pairwise (VaddrLt phdrs) := by
  let keys := loads.map fun i => ((hdr phdrs i).pVaddr, i)
  let r : Nat × Nat → Nat × Nat → Prop := fun a b => a.1 ≤ b.1
  have : Std.Total r := ⟨fun a b => Nat.le_total a.1 b.1⟩
  have : IsTrans (Nat × Nat) r := ⟨fun a b c => Nat.le_trans⟩
  refine ⟨(keys.insertionSort r).map Prod.snd, ?_, ?_, ?_⟩
  · rw [sortLoads, loadKeys_eq h, ok_bind]
  · have hperm : ((keys.insertionSort r).map Prod.snd).Perm (keys.map Prod.snd) :=
      (List.perm_insertionSort r keys).map _
    have hmap : keys.map Prod.snd = loads := by
      simp [keys, Function.comp_def]
    exact hmap ▸ hperm
  · have hkeys : keys.Pairwise fun a b => a.2 < b.2 := List.pairwise_map.mpr hlt
    have hsorted := pairwise_insertionSort_lex (r := r) keys hkeys
    refine List.pairwise_map.mpr (hsorted.imp_of_mem ?_)
    intro a b ha hb hab
    have hkey (x : Nat × Nat) (hx : x ∈ keys.insertionSort r) :
        x.1 = (hdr phdrs x.2).pVaddr := by
      obtain ⟨i, -, rfl⟩ := List.mem_map.mp ((List.mem_insertionSort r).mp hx)
      rfl
    unfold VaddrLt
    rw [← hkey a ha, ← hkey b hb]
    rcases Nat.lt_or_eq_of_le hab.1 with hlt | heq
    · exact Or.inl hlt
    · exact Or.inr ⟨heq, hab.2 (le_of_eq heq.symm)⟩

/-! ### Page ranges -/

/-- Segment `i` ends, rounded to its page, before segment `j` starts. -/
def SegBefore (pg : PageSize) (phdrs : List Phdr) (i j : Nat) : Prop :=
  roundUp pg.bytes ((hdr phdrs i).pVaddr + (hdr phdrs i).pMemsz) ≤ (hdr phdrs j).pVaddr

instance (pg : PageSize) (phdrs : List Phdr) :
    Trans (SegBefore pg phdrs) (SegBefore pg phdrs) (SegBefore pg phdrs) where
  trans := by
    intro i j k hij hjk
    have hup := le_roundUp pg.pos ((hdr phdrs j).pVaddr + (hdr phdrs j).pMemsz)
    unfold SegBefore at *
    omega

/-- The neighbour test accepts exactly the orders in which each segment ends
    before the next one starts.  The second half of the code's condition is
    implied by the first, since the rounded end is a multiple of the page. -/
theorem checkOverlap_eq_ok (pg : PageSize) {phdrs : List Phdr} {loads : List Nat} {u : Unit}
    (hlt : ∀ i ∈ loads, i < phdrs.length)
    (hok : ∀ i ∈ loads, (hdr phdrs i).pVaddr + (hdr phdrs i).pMemsz < 2 ^ 64) :
    checkOverlap phdrs pg.bytes loads = ok u ↔ loads.IsChain (SegBefore pg phdrs) := by
  induction loads with
  | nil => simp [checkOverlap]
  | cons i rest ih =>
    cases rest with
    | nil => simp [checkOverlap]
    | cons j rest =>
      rw [List.forall_mem_cons] at hlt hok
      have hj := hlt.2 j (by simp)
      have hjlt : (hdr phdrs j).pVaddr < 2 ^ 64 :=
        lt_of_le_of_lt (Nat.le_add_right _ _) (hok.2 j (by simp))
      rw [checkOverlap, index_hdr hlt.1, ok_bind, index_hdr hj, ok_bind,
        U64.add_of_lt hok.1, ok_bind, alignUp_eq, ok_bind, List.isChain_cons_cons,
        ← ih hlt.2 hok.2]
      by_cases hup : roundUp pg.bytes ((hdr phdrs i).pVaddr + (hdr phdrs i).pMemsz) < 2 ^ 64
      · rw [if_pos hup, okOr_some, ok_bind, alignDown_eq pg hjlt, ok_bind,
          alignDown_eq pg hup, ok_bind, roundDown_of_dvd (dvd_roundUp _ _), bind_eq_ok]
        simp only [guardErr_eq_ok]
        have hdown := roundDown_le pg.bytes (hdr phdrs j).pVaddr
        constructor
        · rintro ⟨-, hno, hrest⟩
          refine ⟨?_, hrest⟩
          unfold SegBefore
          omega
        · rintro ⟨hbefore, hrest⟩
          refine ⟨(), ?_, hrest⟩
          unfold SegBefore at hbefore
          omega
      · rw [if_neg hup, okOr_none, err_bind]
        constructor
        · intro h
          exact absurd h (by simp)
        · rintro ⟨hbefore, -⟩
          unfold SegBefore at hbefore
          omega

theorem checkOverlap_ne_panic (pg : PageSize) {phdrs : List Phdr} {loads : List Nat}
    (hlt : ∀ i ∈ loads, i < phdrs.length)
    (hok : ∀ i ∈ loads, (hdr phdrs i).pVaddr + (hdr phdrs i).pMemsz < 2 ^ 64) :
    checkOverlap phdrs pg.bytes loads ≠ panic := by
  induction loads with
  | nil => exact ok_ne_panic
  | cons i rest ih =>
    cases rest with
    | nil => exact ok_ne_panic
    | cons j rest =>
      rw [List.forall_mem_cons] at hlt hok
      have hj := hlt.2 j (by simp)
      have hjlt : (hdr phdrs j).pVaddr < 2 ^ 64 :=
        lt_of_le_of_lt (Nat.le_add_right _ _) (hok.2 j (by simp))
      rw [checkOverlap, index_hdr hlt.1, ok_bind, index_hdr hj, ok_bind,
        U64.add_of_lt hok.1, ok_bind, alignUp_eq, ok_bind]
      by_cases hup : roundUp pg.bytes ((hdr phdrs i).pVaddr + (hdr phdrs i).pMemsz) < 2 ^ 64
      · rw [if_pos hup, okOr_some, ok_bind, alignDown_eq pg hjlt, ok_bind,
          alignDown_eq pg hup, ok_bind]
        exact bind_ne_panic guardErr_ne_panic fun _ _ => ih hlt.2 hok.2
      · rw [if_neg hup, okOr_none, err_bind]
        simp

/-! ### The assembled image -/

/-- A header table that can be loaded, with the order its segments are in. -/
structure LoadTable (pg : PageSize) (size : Option Nat) (phdrs : List Phdr)
    (loads : List Nat) : Prop where
  load_ok : ∀ ph ∈ phdrs, ph.pType = PT_LOAD → LoadOk pg.bytes size ph
  interp_ok : ∀ ph ∈ phdrs, ph.pType = PT_INTERP → InterpOk size ph
  interp_one : interpCount phdrs ≤ 1
  ne_nil : loads ≠ []
  mem_iff : ∀ i, i ∈ loads ↔ ∃ ph, phdrs[i]? = some ph ∧ ph.pType = PT_LOAD
  sorted : loads.Pairwise (VaddrLt phdrs)
  chain : loads.IsChain (SegBefore pg phdrs)

/-- The image made of a header table and an order of its segments. -/
def imageOf (ehdr : Ehdr) (phdrs : List Phdr) (loads : List Nat) : Image :=
  let c := collect phdrs 0 .empty
  { ehdr, phdrs, loads, interp := c.interp, phdrSeg := c.phdrSeg, tls := c.tls,
    relro := c.relro, execStack := c.execStack }

theorem mem_loadIdxs_zero {phdrs : List Phdr} {i : Nat} :
    i ∈ loadIdxs phdrs 0 ↔ ∃ ph, phdrs[i]? = some ph ∧ ph.pType = PT_LOAD := by
  simp [mem_loadIdxs]

/-- What a `PT_LOAD` index points at. -/
theorem hdr_of_load {phdrs : List Phdr} {i : Nat}
    (h : ∃ ph, phdrs[i]? = some ph ∧ ph.pType = PT_LOAD) :
    i < phdrs.length ∧ (hdr phdrs i).pType = PT_LOAD := by
  obtain ⟨ph, hget, htype⟩ := h
  obtain ⟨hlt, -⟩ := List.getElem?_eq_some_iff.mp hget
  exact ⟨hlt, by rw [hdr_eq hget]; exact htype⟩

theorem assemble_eq_ok (pg : PageSize) {ehdr : Ehdr} {phdrs : List Phdr} {size : Option Nat}
    {image : Image} :
    assemble ehdr phdrs pg.bytes size = ok image ↔
      ∃ loads, LoadTable pg size phdrs loads ∧ image = imageOf ehdr phdrs loads := by
  have hlt : ∀ i ∈ loadIdxs phdrs 0, i < phdrs.length := fun i hi =>
    (hdr_of_load (mem_loadIdxs_zero.mp hi)).1
  obtain ⟨sorted, hsort, hperm, hpair⟩ := sortLoads_eq hlt (pairwise_loadIdxs phdrs 0)
  have hloads : (collect phdrs 0 .empty).loads = loadIdxs phdrs 0 := by
    rw [collect_loads]
    rfl
  have hmem (i : Nat) : i ∈ sorted ↔ ∃ ph, phdrs[i]? = some ph ∧ ph.pType = PT_LOAD :=
    hperm.mem_iff.trans mem_loadIdxs_zero
  have hlt' : ∀ i ∈ sorted, i < phdrs.length := fun i hi => hlt i (hperm.mem_iff.mp hi)
  have hmemlt (hall : ∀ ph ∈ phdrs, ph.pType = PT_LOAD → LoadOk pg.bytes size ph) :
      ∀ i ∈ sorted, (hdr phdrs i).pVaddr + (hdr phdrs i).pMemsz < 2 ^ 64 := fun i hi =>
    (hall _ (hdr_mem (hlt' i hi)) (hdr_of_load ((hmem i).mp hi)).2).mem_lt
  have hcount : interpCount phdrs + Classified.empty.interp.toList.length = interpCount phdrs := rfl
  simp only [assemble, bind_eq_ok, guardErr_eq_ok, classify_eq_ok pg, hcount]
  constructor
  · rintro ⟨c, ⟨hload, hinterp, hone, rfl⟩, -, hne, l, hl, _, hover, himg⟩
    rw [hloads] at hne hl
    rw [hsort, ok.injEq] at hl
    subst hl
    rw [ok.injEq] at himg
    refine ⟨sorted, ⟨hload, hinterp, hone, ?_, hmem, hpair, ?_⟩, himg.symm⟩
    · rintro rfl
      rw [List.nil_perm.mp hperm] at hne
      simp at hne
    · exact (checkOverlap_eq_ok pg hlt' (hmemlt hload)).mp hover
  · rintro ⟨loads, h, rfl⟩
    have hnodup : loads.Nodup := h.sorted.imp VaddrLt.ne
    have hnodup' : sorted.Nodup := hpair.imp VaddrLt.ne
    have hp : loads.Perm sorted :=
      (List.perm_ext_iff_of_nodup hnodup hnodup').mpr fun i => (h.mem_iff i).trans (hmem i).symm
    have heq : loads = sorted :=
      hp.eq_of_pairwise (fun a b _ _ hab hba => absurd hba hab.asymm) h.sorted hpair
    subst heq
    refine ⟨_, ⟨h.load_ok, h.interp_ok, h.interp_one, rfl⟩, (), ?_, loads, ?_, (), ?_, rfl⟩
    · rw [hloads]
      intro hempty
      have hnil : loadIdxs phdrs 0 = [] := by simpa using hempty
      rw [hnil] at hperm
      exact h.ne_nil (List.perm_nil.mp hperm)
    · rw [hloads, hsort]
    · exact (checkOverlap_eq_ok pg hlt' (hmemlt h.load_ok)).mpr h.chain

theorem assemble_ne_panic (pg : PageSize) (ehdr : Ehdr) (phdrs : List Phdr)
    (size : Option Nat) : assemble ehdr phdrs pg.bytes size ≠ panic := by
  refine bind_ne_panic (classify_ne_panic pg size phdrs 0 _) fun c hc => ?_
  refine bind_ne_panic guardErr_ne_panic fun _ _ => ?_
  obtain ⟨hload, -, -, rfl⟩ := (classify_eq_ok pg phdrs 0 _ c).mp hc
  have hlt : ∀ i ∈ loadIdxs phdrs 0, i < phdrs.length := fun i hi =>
    (hdr_of_load (mem_loadIdxs_zero.mp hi)).1
  obtain ⟨sorted, hsort, hperm, -⟩ := sortLoads_eq hlt (pairwise_loadIdxs phdrs 0)
  rw [collect_loads, show Classified.empty.loads = [] from rfl, List.nil_append, hsort, ok_bind]
  refine bind_ne_panic (checkOverlap_ne_panic pg ?_ ?_) fun _ _ => ok_ne_panic
  · exact fun i hi => hlt i (hperm.mem_iff.mp hi)
  · intro i hi
    have hload' := hdr_of_load (mem_loadIdxs_zero.mp (hperm.mem_iff.mp hi))
    exact (hload _ (hdr_mem hload'.1) hload'.2).mem_lt

end ElfLoader.Elf
