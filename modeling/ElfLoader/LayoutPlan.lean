import ElfLoader.ElfParse
import ElfLoader.Layout

/-!
# What a plan says

For a valid image every computation of `layout.rs` has a closed form: the checked
operators succeed because of what the parser established, and rounding commutes
with a bias that is a multiple of the page.  `planOf` is the plan in closed form;
its segments lie between the page boundaries of the image, and these lie in the
reservation.
-/

namespace ElfLoader.Layout

open ElfLoader Outcome Elf

variable {ε : Type} {pg : PageSize} {image : Image}

/-! ### Alignment -/

def alignOf (pg : PageSize) (image : Image) : Nat :=
  max (min (image.loads.foldl (fun a i => strongerAlign a (image.seg i).pAlign) pg.bytes)
    MAX_SEG_ALIGN) pg.bytes

theorem segAlign_eq (hv : image.Valid pg) :
    (segAlign image pg.bytes : Outcome ε Nat) = ok (alignOf pg image) := by
  have hload : (image.loadAlign pg.bytes : Outcome ε Nat) =
      ok (image.loads.foldl (fun a i => strongerAlign a (image.seg i).pAlign) pg.bytes) := by
    refine foldlM_of_forall _ ?_
    intro a i hi
    rw [hv.index_seg hi, ok_bind]
  rw [segAlign, hload, ok_bind]
  rfl

/-- A power of two that is a multiple of the page and fits the word. -/
def IsAlign (pg : PageSize) (a : Nat) : Prop := ∃ k, pg.shift ≤ k ∧ k < 64 ∧ a = 2 ^ k

theorem isAlign_strongerAlign {a pa : Nat} (ha : IsAlign pg a) (hpa : pa < 2 ^ 64) :
    IsAlign pg (strongerAlign a pa) := by
  unfold strongerAlign
  split
  · rename_i h
    obtain ⟨k, hk, -, rfl⟩ := ha
    obtain ⟨m, rfl⟩ := U64.isPowerOfTwo_iff.mp h.2
    have hkm : k < m := (Nat.pow_lt_pow_iff_right (by decide)).mp h.1
    exact ⟨m, by omega, (Nat.pow_lt_pow_iff_right (by decide)).mp hpa, rfl⟩
  · exact ha

theorem isAlign_foldl (loads : List Nat) (h : ∀ i ∈ loads, (image.seg i).pAlign < 2 ^ 64) (a : Nat)
    (ha : IsAlign pg a) :
    IsAlign pg (loads.foldl (fun a i => strongerAlign a (image.seg i).pAlign) a) := by
  induction loads generalizing a with
  | nil => exact ha
  | cons i rest ih =>
    rw [List.forall_mem_cons] at h
    exact ih h.2 _ (isAlign_strongerAlign ha h.1)

theorem isAlign_alignOf (hv : image.Valid pg) : IsAlign pg (alignOf pg image) := by
  have hpage : IsAlign pg pg.bytes := ⟨pg.shift, le_rfl, pg.shift_lt, rfl⟩
  obtain ⟨k, hk, hk', heq⟩ :=
    isAlign_foldl image.loads (fun i hi => (hv.seg_bounded hi).align) pg.bytes hpage
  have hmax : MAX_SEG_ALIGN = 2 ^ 21 := by decide
  rw [alignOf, heq, hmax]
  rcases Nat.le_total k 21 with h | h
  · have hle : 2 ^ k ≤ 2 ^ 21 := Nat.pow_le_pow_right (by decide) h
    have hpg : pg.bytes ≤ 2 ^ k := Nat.pow_le_pow_right (by decide) hk
    rw [min_eq_left hle, max_eq_left hpg]
    exact ⟨k, hk, hk', rfl⟩
  · rw [min_eq_right (Nat.pow_le_pow_right (by decide) h)]
    rcases Nat.le_total pg.shift 21 with hs | hs
    · rw [max_eq_left (show pg.bytes ≤ 2 ^ 21 from Nat.pow_le_pow_right (by decide) hs)]
      exact ⟨21, hs, by decide, rfl⟩
    · rw [max_eq_right (show 2 ^ 21 ≤ pg.bytes from Nat.pow_le_pow_right (by decide) hs)]
      exact hpage

namespace IsAlign

variable {a : Nat}

theorem page_dvd (h : IsAlign pg a) : pg.bytes ∣ a := by
  obtain ⟨k, hk, -, rfl⟩ := h
  exact Nat.pow_dvd_pow 2 hk

theorem pos (h : IsAlign pg a) : 0 < a := by
  obtain ⟨k, -, -, rfl⟩ := h
  exact Nat.two_pow_pos k

theorem page_le (h : IsAlign pg a) : pg.bytes ≤ a := Nat.le_of_dvd h.pos h.page_dvd

theorem alignUp_eq (h : IsAlign pg a) (v : Nat) :
    (alignUp v a : Outcome ε (Option Nat)) =
      ok (if roundUp a v < 2 ^ 64 then some (roundUp a v) else none) := by
  obtain ⟨k, -, hk, rfl⟩ := h
  exact alignUp_two_pow v hk

/-- The aligned base lies at most the slack above the start. -/
theorem roundUp_le_slack (h : IsAlign pg a) {raw : Nat} (hraw : pg.bytes ∣ raw) :
    roundUp a raw ≤ raw + (a - pg.bytes) := by
  have hlt := roundUp_lt h.pos raw
  have hdvd : pg.bytes ∣ roundUp a raw := h.page_dvd.trans (dvd_roundUp a raw)
  have hle := add_le_of_dvd_of_lt hdvd (Nat.dvd_add hraw h.page_dvd) hlt
  have := h.page_le
  omega

end IsAlign

/-! ### The reservation -/

/-- What a position-independent image reserves: its span and the slack. -/
def needOf (pg : PageSize) (image : Image) : Nat :=
  image.hi pg - image.lo pg + (alignOf pg image - pg.bytes)

theorem dvd_needOf (hv : image.Valid pg) : pg.bytes ∣ needOf pg image :=
  Nat.dvd_add (Nat.dvd_sub hv.dvd_hi hv.dvd_lo)
    (Nat.dvd_sub (isAlign_alignOf hv).page_dvd dvd_rfl)

theorem reservationLen_eq (hv : image.Valid pg) :
    reservationLen image pg.bytes =
      if image.hi pg < 2 ^ 64 ∧ needOf pg image < 2 ^ 64 then ok (needOf pg image)
      else err Error.ENOEXEC := by
  rw [reservationLen, hv.vaSpan_eq]
  by_cases hhi : image.hi pg < 2 ^ 64
  · rw [if_pos hhi]
    simp only [ok_bind, segAlign_eq hv, U64.checkedSub_of_le hv.lo_le_hi, okOr_some,
      U64.sub_of_le (isAlign_alignOf hv).page_le, hhi, true_and]
    by_cases hneed : needOf pg image < 2 ^ 64
    · rw [if_pos hneed, U64.checkedAdd_of_lt hneed]
      rfl
    · rw [if_neg hneed, U64.checkedAdd_of_le (not_lt.mp hneed)]
      rfl
  · rw [if_neg hhi, if_neg (fun h => hhi h.1)]
    rfl

/-! ### Segments -/

/-- Page-rounded end of the file bytes of a segment, as linked. -/
def fileFin (pg : PageSize) (ph : Phdr) : Nat :=
  if 0 < ph.pFilesz then roundUp pg.bytes (ph.pVaddr + ph.pFilesz) else ph.start pg

def segOf (pg : PageSize) (bias i : Nat) (ph : Phdr) : SegmentPlan :=
  let start := ph.start pg + bias
  let fend := ph.pVaddr + bias + ph.pFilesz
  let zero : Option AnonMap :=
    if 0 < ph.pFilesz ∧ fend < fileFin pg ph + bias then
      some { addr := fend, len := fileFin pg ph + bias - fend }
    else none
  { idx := i
    file :=
      if 0 < ph.pFilesz then
        some {
          addr := start, len := fileFin pg ph + bias - start,
          off := ph.pOffset - ph.pVaddr % pg.bytes }
      else none
    zero
    anon :=
      if fileFin pg ph < ph.fin pg then
        some { addr := fileFin pg ph + bias, len := ph.fin pg - fileFin pg ph }
      else none
    prot := protOf ph
    needsWriteWindow := zero.isSome && protOf ph &&& PROT_WRITE == 0 }

section Segment

variable {size : Option Nat} {ph : Phdr}

theorem start_le_fileFin (pg : PageSize) (ph : Phdr) : ph.start pg ≤ fileFin pg ph := by
  unfold fileFin
  split
  · exact (roundDown_le _ _).trans ((Nat.le_add_right _ _).trans (le_roundUp pg.pos _))
  · exact le_rfl

theorem fileFin_le_fin (hok : LoadOk pg.bytes size ph) : fileFin pg ph ≤ ph.fin pg := by
  unfold fileFin
  split
  · exact roundUp_mono pg.pos (Nat.add_le_add_left hok.filesz_le _)
  · exact Phdr.start_le_fin pg ph

theorem start_lt_fileFin (pg : PageSize) (h : 0 < ph.pFilesz) : ph.start pg < fileFin pg ph := by
  have h₁ := roundDown_le pg.bytes ph.pVaddr
  have h₂ := le_roundUp pg.pos (ph.pVaddr + ph.pFilesz)
  unfold fileFin Phdr.start
  rw [if_pos h]
  omega

theorem mem_le_fin (pg : PageSize) (ph : Phdr) : ph.pVaddr + ph.pMemsz ≤ ph.fin pg := le_roundUp pg.pos _

theorem file_le_fileFin (pg : PageSize) (h : 0 < ph.pFilesz) : ph.pVaddr + ph.pFilesz ≤ fileFin pg ph := by
  unfold fileFin
  rw [if_pos h]
  exact le_roundUp pg.pos _

theorem dvd_start (pg : PageSize) (ph : Phdr) : pg.bytes ∣ ph.start pg := dvd_roundDown _ _

theorem dvd_fin (pg : PageSize) (ph : Phdr) : pg.bytes ∣ ph.fin pg := dvd_roundUp _ _

theorem dvd_fileFin (pg : PageSize) (ph : Phdr) : pg.bytes ∣ fileFin pg ph := by
  unfold fileFin
  split
  · exact dvd_roundUp _ _
  · exact dvd_start pg ph

/-- Where the pages of a segment end, once it is moved. -/
theorem roundUp_fin {bias : Nat} (hdvd : pg.bytes ∣ bias) :
    roundUp pg.bytes (ph.pVaddr + bias + ph.pMemsz) = ph.fin pg + bias := by
  rw [Phdr.fin, ← roundUp_add hdvd]
  congr 1
  omega

theorem planFile_eq {bias : Nat} (hdvd : pg.bytes ∣ bias) (hok : LoadOk pg.bytes size ph)
    (hfin : ph.fin pg + bias < 2 ^ 64) :
    planFile ph pg.bytes (ph.pVaddr + bias) (ph.start pg + bias) (ph.pVaddr % pg.bytes) =
      ok ((segOf pg bias 0 ph).file, (segOf pg bias 0 ph).zero, fileFin pg ph + bias) := by
  have hle := fileFin_le_fin hok
  unfold planFile segOf
  by_cases hpos : 0 < ph.pFilesz
  · have hstart := start_lt_fileFin pg hpos
    have hfile := file_le_fileFin pg hpos
    have hup : roundUp pg.bytes (ph.pVaddr + bias + ph.pFilesz) = fileFin pg ph + bias := by
      rw [fileFin, if_pos hpos, ← roundUp_add hdvd]
      congr 1
      omega
    have hoff : ph.pVaddr % pg.bytes ≤ ph.pOffset := by
      rw [hok.congr hpos]
      exact Nat.mod_le _ _
    rw [if_pos hpos, U64.add_of_lt (by omega), ok_bind, Elf.alignUp_eq, ok_bind, hup,
      if_pos (by omega), okOr_some, ok_bind, U64.sub_of_le (by omega), ok_bind,
      U64.sub_of_le hoff, ok_bind]
    simp only [hpos, if_true, true_and]
    by_cases htail : ph.pVaddr + bias + ph.pFilesz < fileFin pg ph + bias
    · rw [if_pos htail, if_pos htail, U64.sub_of_le (le_of_lt htail), ok_bind]
    · rw [if_neg htail, if_neg htail]
  · rw [if_neg hpos]
    simp only [hpos, if_false, false_and]
    rw [fileFin, if_neg hpos]

theorem planSegment_eq {bias i : Nat} (hv : image.Valid pg) (hi : i ∈ image.loads)
    (hdvd : pg.bytes ∣ bias) (hfin : (image.seg i).fin pg + bias < 2 ^ 64) :
    planSegment image pg.bytes bias i = ok (segOf pg bias i (image.seg i)) := by
  obtain ⟨size, hok⟩ := hv.seg_ok hi
  have hmem := mem_le_fin pg (image.seg i)
  have hdown : roundDown pg.bytes ((image.seg i).pVaddr + bias) =
      (image.seg i).start pg + bias := roundDown_add hdvd
  have hdelta : (image.seg i).pVaddr + bias - ((image.seg i).start pg + bias) =
      (image.seg i).pVaddr % pg.bytes := by
    rw [Nat.add_sub_add_right]
    exact sub_roundDown _ _
  have hup : roundUp pg.bytes ((image.seg i).pVaddr + bias + (image.seg i).pMemsz) =
      (image.seg i).fin pg + bias := roundUp_fin hdvd
  have hstart : (image.seg i).start pg ≤ (image.seg i).pVaddr := roundDown_le _ _
  rw [planSegment, hv.index_seg hi, ok_bind, U64.checkedAdd_of_lt (by omega), okOr_some, ok_bind,
    alignDown_eq pg (by omega), ok_bind, hdown, U64.sub_of_le (by omega), ok_bind, hdelta,
    U64.add_of_lt (by omega), ok_bind, Elf.alignUp_eq, ok_bind, hup, if_pos hfin, okOr_some,
    ok_bind, planFile_eq hdvd hok hfin, ok_bind]
  simp only [segOf]
  by_cases hanon : fileFin pg (image.seg i) < (image.seg i).fin pg
  · rw [if_pos (by omega), if_pos hanon, U64.sub_of_le (by omega)]
    simp only [ok_bind, Nat.add_sub_add_right]
  · rw [if_neg (by omega), if_neg hanon]
    rfl

/-- The range of a segment, or nothing if it has no page. -/
theorem range_segOf {bias i : Nat} (hok : LoadOk pg.bytes size ph)
    (hfin : ph.fin pg + bias < 2 ^ 64) :
    ((segOf pg bias i ph).range : Outcome ε (Nat × Nat)) =
      ok (if ph.start pg < ph.fin pg then (ph.start pg + bias, ph.fin pg + bias) else (0, 0)) := by
  have hle := fileFin_le_fin hok
  have hstart := start_le_fileFin pg ph
  unfold SegmentPlan.range segOf
  by_cases hpos : 0 < ph.pFilesz
  · have hlt := start_lt_fileFin pg hpos
    rw [if_pos (show ph.start pg < ph.fin pg by omega)]
    by_cases hanon : fileFin pg ph < ph.fin pg
    · simp only [hpos, hanon, if_true]
      rw [U64.add_of_lt (by omega), ok_bind]
      congr 2
      omega
    · simp only [hpos, hanon, if_true, if_false]
      rw [U64.add_of_lt (by omega), ok_bind]
      congr 2
      omega
  · have hfile : fileFin pg ph = ph.start pg := by rw [fileFin, if_neg hpos]
    rw [hfile]
    by_cases hanon : ph.start pg < ph.fin pg
    · simp only [hpos, hanon, if_true, if_false]
      rw [U64.add_of_lt (by omega), ok_bind]
      congr 2
      omega
    · simp only [hpos, hanon, if_false]
      rfl

end Segment

/-! ### The plan -/

/-- The plan with a given bias and reservation, in closed form. -/
def planOf (pg : PageSize) (image : Image) (bias addr len : Nat) : LoadPlan where
  bias := bias
  reserveAddr := addr
  reserveLen := len
  base := image.lo pg + bias
  fin := image.hi pg + bias
  align := alignOf pg image
  segments := image.loads.map fun i => segOf pg bias i (image.seg i)
  entry := image.ehdr.eEntry + bias

/-- The bias a position-independent image gets from a reservation at `raw`. -/
def biasAt (pg : PageSize) (image : Image) (raw : Nat) : Nat :=
  roundUp (alignOf pg image) raw - image.lo pg

def planFor (pg : PageSize) (image : Image) : Placement → LoadPlan
  | .fixed => planOf pg image 0 (image.lo pg) (image.hi pg - image.lo pg)
  | .at raw => planOf pg image (biasAt pg image raw) raw (needOf pg image)

/-- The placements a plan can be made for.  An aligned base that is past the end
    of the address space or below the link address is refused, and so is an entry
    point that the bias takes past the end. -/
def PlanFits (pg : PageSize) (image : Image) : Placement → Prop
  | .fixed => True
  | .at raw =>
      roundUp (alignOf pg image) raw < 2 ^ 64 ∧ image.lo pg ≤ roundUp (alignOf pg image) raw ∧
        image.ehdr.eEntry + biasAt pg image raw < 2 ^ 64

/-- The placements whose image ends inside the address space. -/
def EndsInside (pg : PageSize) (image : Image) : Placement → Prop
  | .fixed => True
  | .at raw => roundUp (alignOf pg image) raw + (image.hi pg - image.lo pg) < 2 ^ 64

theorem planSegments_eq {bias : Nat} (hv : image.Valid pg) (hdvd : pg.bytes ∣ bias)
    (hfin : image.hi pg + bias < 2 ^ 64) :
    image.loads.mapM (planSegment image pg.bytes bias) =
      ok (image.loads.map fun i => segOf pg bias i (image.seg i)) := by
  refine mapM_of_forall ?_
  intro i hi
  have hle := hv.le_hi hi
  exact planSegment_eq hv hi hdvd (by omega)

theorem dvd_biasAt (hv : image.Valid pg) (raw : Nat) : pg.bytes ∣ biasAt pg image raw :=
  Nat.dvd_sub ((isAlign_alignOf hv).page_dvd.trans (dvd_roundUp _ _)) hv.dvd_lo

theorem plan_fixed_eq (hv : image.Valid pg) (hhi : image.hi pg < 2 ^ 64) (reserved : Bool) :
    plan reserved image pg.bytes .fixed =
      if reserved = true then ok (planFor pg image .fixed) else err Error.ENOMEM := by
  have hlo := hv.lo_le_hi
  rw [plan, hv.vaSpan_eq, if_pos hhi]
  simp only [ok_bind, segAlign_eq hv, U64.sub_of_le hlo, place]
  rw [U64.add_of_lt (by omega), ok_bind, U64.add_of_lt (by omega), ok_bind]
  cases reserved with
  | false => rfl
  | true =>
    rw [guardErr_of rfl, ok_bind, planSegments_eq hv (Nat.dvd_zero _) (by omega), ok_bind,
      U64.checkedAdd_of_lt (by have := hv.entry_lt; omega), okOr_some, ok_bind]
    rfl

theorem plan_at_eq (hv : image.Valid pg) (hhi : image.hi pg < 2 ^ 64)
    (hneed : needOf pg image < 2 ^ 64) (reserved : Bool) (raw : Nat)
    (hend : EndsInside pg image (.at raw)) [Decidable (PlanFits pg image (.at raw))] :
    plan reserved image pg.bytes (.at raw) =
      if reserved = true ∧ PlanFits pg image (.at raw) then ok (planFor pg image (.at raw))
      else err Error.ENOMEM := by
  have hlo := hv.lo_le_hi
  have ha := isAlign_alignOf hv
  simp only [EndsInside] at hend
  have hup : roundUp (alignOf pg image) raw < 2 ^ 64 := by omega
  rw [plan, hv.vaSpan_eq, if_pos hhi]
  simp only [ok_bind, segAlign_eq hv, U64.sub_of_le hlo, place, ha.alignUp_eq, if_pos hup,
    okOr_some]
  by_cases hbase : image.lo pg ≤ roundUp (alignOf pg image) raw
  · have hbias : image.lo pg + biasAt pg image raw = roundUp (alignOf pg image) raw := by
      unfold biasAt
      omega
    rw [U64.checkedSub_of_le hbase, okOr_some, ok_bind, U64.sub_of_le ha.page_le, ok_bind,
      U64.add_of_lt hneed, ok_bind, ← biasAt, ← needOf, ok_bind]
    simp only
    rw [U64.add_of_lt (by omega), ok_bind, U64.add_of_lt (by omega), ok_bind]
    cases reserved with
    | false => rfl
    | true =>
      rw [guardErr_of rfl, ok_bind, planSegments_eq hv (dvd_biasAt hv raw) (by omega), ok_bind]
      by_cases hentry : image.ehdr.eEntry + biasAt pg image raw < 2 ^ 64
      · rw [U64.checkedAdd_of_lt hentry, okOr_some, ok_bind, if_pos ⟨rfl, hup, hbase, hentry⟩]
        rfl
      · rw [U64.checkedAdd_of_le (not_lt.mp hentry), okOr_none, err_bind,
          if_neg (fun h => hentry h.2.2.2)]
  · rw [U64.checkedSub_of_lt (not_le.mp hbase), okOr_none, err_bind,
      if_neg (fun h => hbase h.2.2.1)]
    rfl

/-- An image that would end past the address space is refused or stops the
    machine, but no plan is made for it. -/
theorem plan_at_ne_ok (hv : image.Valid pg) (hhi : image.hi pg < 2 ^ 64)
    (hneed : needOf pg image < 2 ^ 64) (reserved : Bool) (raw : Nat)
    (hend : ¬ EndsInside pg image (.at raw)) :
    plan reserved image pg.bytes (.at raw) = err Error.ENOMEM ∨
      plan reserved image pg.bytes (.at raw) = panic := by
  have hlo := hv.lo_le_hi
  have ha := isAlign_alignOf hv
  simp only [EndsInside] at hend
  rw [plan, hv.vaSpan_eq, if_pos hhi]
  simp only [ok_bind, segAlign_eq hv, U64.sub_of_le hlo, place, ha.alignUp_eq]
  by_cases hup : roundUp (alignOf pg image) raw < 2 ^ 64
  · rw [if_pos hup, okOr_some, ok_bind]
    by_cases hbase : image.lo pg ≤ roundUp (alignOf pg image) raw
    · rw [U64.checkedSub_of_le hbase, okOr_some, ok_bind, U64.sub_of_le ha.page_le, ok_bind,
        U64.add_of_lt hneed, ok_bind, ok_bind]
      simp only
      rw [U64.add_of_lt (by omega), ok_bind, U64.add_of_le (by omega)]
      exact Or.inr rfl
    · rw [U64.checkedSub_of_lt (not_le.mp hbase), okOr_none]
      exact Or.inl rfl
  · rw [if_neg hup]
    exact Or.inl rfl

/-- The address a placement starts from is a page boundary. -/
def Placement.PageAligned (pg : PageSize) : Placement → Prop
  | .fixed => True
  | .at raw => pg.bytes ∣ raw

/-- **When there is a plan, and which one.** -/
theorem plan_eq_ok (hv : image.Valid pg) (hhi : image.hi pg < 2 ^ 64)
    (hneed : needOf pg image < 2 ^ 64) {reserved : Bool} {pl : Placement} {p : LoadPlan} :
    plan reserved image pg.bytes pl = ok p ↔
      reserved = true ∧ PlanFits pg image pl ∧ EndsInside pg image pl ∧ p = planFor pg image pl := by
  classical
  cases pl with
  | fixed =>
    rw [plan_fixed_eq hv hhi]
    cases reserved <;> simp [PlanFits, EndsInside, eq_comm]
  | «at» raw =>
    by_cases hend : EndsInside pg image (.at raw)
    · rw [plan_at_eq hv hhi hneed reserved raw hend]
      split <;> simp_all [eq_comm]
    · rcases plan_at_ne_ok hv hhi hneed reserved raw hend with h | h <;> simp [h, hend]

/-- What it takes to have a plan, whatever the image and the placement. -/
theorem plan_ok_inv (hv : image.Valid pg) {reserved : Bool} {pl : Placement} {p : LoadPlan}
    (h : plan reserved image pg.bytes pl = ok p) :
    image.hi pg < 2 ^ 64 ∧ (pl = .fixed ∨ needOf pg image < 2 ^ 64) ∧ PlanFits pg image pl ∧
      EndsInside pg image pl ∧ p = planFor pg image pl := by
  have hhi : image.hi pg < 2 ^ 64 := by
    by_contra hge
    rw [plan, hv.vaSpan_eq, if_neg hge, err_bind] at h
    cases h
  cases pl with
  | fixed =>
    rw [plan_fixed_eq hv hhi] at h
    split at h
    · exact ⟨hhi, Or.inl rfl, trivial, trivial, (ok.inj h).symm⟩
    · cases h
  | «at» raw =>
    have hneed : needOf pg image < 2 ^ 64 := by
      rw [plan, hv.vaSpan_eq, if_pos hhi] at h
      simp only [ok_bind, segAlign_eq hv, U64.sub_of_le hv.lo_le_hi, place, bind_eq_ok] at h
      obtain ⟨-, ⟨-, -, -, -, -, -, slack, hslack, len, hlen, -⟩, -⟩ := h
      rw [U64.sub_eq_ok] at hslack
      rw [U64.add_eq_ok] at hlen
      unfold needOf
      omega
    obtain ⟨-, hfits, hend, heq⟩ := (plan_eq_ok hv hhi hneed).mp h
    exact ⟨hhi, Or.inr hneed, hfits, hend, heq⟩

theorem plan_ne_panic (hv : image.Valid pg) (hhi : image.hi pg < 2 ^ 64)
    (hneed : needOf pg image < 2 ^ 64) {reserved : Bool} {pl : Placement}
    (hend : EndsInside pg image pl) : plan reserved image pg.bytes pl ≠ panic := by
  classical
  cases pl with
  | fixed =>
    rw [plan_fixed_eq hv hhi]
    split <;> simp
  | «at» raw =>
    rw [plan_at_eq hv hhi hneed reserved raw hend]
    split <;> simp

/-! ### Where a plan puts things -/

/-- What the plan says about addresses: the bias is a multiple of the page, the
    image ends inside the address space, and it lies in its reservation. -/
structure Placed (pg : PageSize) (image : Image) (p : LoadPlan) : Prop where
  plan_eq : p = planOf pg image p.bias p.reserveAddr p.reserveLen
  dvd_bias : pg.bytes ∣ p.bias
  fin_lt : image.hi pg + p.bias < 2 ^ 64
  reserve_le : p.reserveAddr ≤ image.lo pg + p.bias
  le_reserve : image.hi pg + p.bias ≤ p.reserveAddr + p.reserveLen

theorem placed_planFor (hv : image.Valid pg) (hhi : image.hi pg < 2 ^ 64) {pl : Placement}
    (hfits : PlanFits pg image pl) (hend : EndsInside pg image pl) (hpage : pl.PageAligned pg) :
    Placed pg image (planFor pg image pl) := by
  have hlo := hv.lo_le_hi
  cases pl with
  | fixed =>
    refine ⟨rfl, Nat.dvd_zero _, ?_, ?_, ?_⟩ <;> simp only [planFor, planOf] <;> omega
  | «at» raw =>
    have ha := isAlign_alignOf hv
    have hbase := hfits.2.1
    have hslack := ha.roundUp_le_slack hpage
    have hle := le_roundUp ha.pos raw
    simp only [EndsInside] at hend
    refine ⟨rfl, dvd_biasAt hv raw, ?_, ?_, ?_⟩ <;>
      simp only [planFor, planOf, biasAt, needOf] <;> omega

/-- The image ends inside the address space, wherever the reservation is. -/
theorem fin_lt_of_planFor (hv : image.Valid pg) (hhi : image.hi pg < 2 ^ 64) {pl : Placement}
    {p : LoadPlan} (hfits : PlanFits pg image pl) (hend : EndsInside pg image pl)
    (hp : p = planFor pg image pl) : image.hi pg + p.bias < 2 ^ 64 := by
  subst hp
  have hlo := hv.lo_le_hi
  cases pl with
  | fixed => exact hhi
  | «at» raw =>
    have hbase := hfits.2.1
    simp only [EndsInside] at hend
    simp only [planFor, planOf, biasAt]
    omega

/-- A reservation inside the address space holds the image inside it. -/
theorem endsInside_of_le (hv : image.Valid pg) {raw : Nat} (hpage : pg.bytes ∣ raw)
    (hle : raw + needOf pg image < 2 ^ 64) : EndsInside pg image (.at raw) := by
  have hslack := (isAlign_alignOf hv).roundUp_le_slack hpage
  simp only [EndsInside, needOf] at *
  omega

namespace Placed

variable {p : LoadPlan}

theorem segments_eq (hp : Placed pg image p) :
    p.segments = image.loads.map fun i => segOf pg p.bias i (image.seg i) := by
  rw [hp.plan_eq]
  rfl

theorem base_eq (hp : Placed pg image p) : p.base = image.lo pg + p.bias := by
  rw [hp.plan_eq]
  rfl

theorem fin_eq (hp : Placed pg image p) : p.fin = image.hi pg + p.bias := by
  rw [hp.plan_eq]
  rfl

theorem seg_fin_lt (hp : Placed pg image p) (hv : image.Valid pg) {i : Nat}
    (hi : i ∈ image.loads) : (image.seg i).fin pg + p.bias < 2 ^ 64 :=
  lt_of_le_of_lt (Nat.add_le_add_right (hv.le_hi hi) _) hp.fin_lt

/-- Every segment lies in the reservation. -/
theorem seg_inside (hp : Placed pg image p) (hv : image.Valid pg) {i : Nat}
    (hi : i ∈ image.loads) :
    p.reserveAddr ≤ (image.seg i).start pg + p.bias ∧
      (image.seg i).fin pg + p.bias ≤ p.reserveAddr + p.reserveLen :=
  ⟨hp.reserve_le.trans (Nat.add_le_add_right (hv.lo_le hi) _),
    (Nat.add_le_add_right (hv.le_hi hi) _).trans hp.le_reserve⟩

end Placed

/-- Start and length of the pages of a segment, `(0, 0)` if it has none. -/
def pagesOf (pg : PageSize) (bias : Nat) (ph : Phdr) : Nat × Nat :=
  if ph.start pg < ph.fin pg then (ph.start pg + bias, ph.fin pg - ph.start pg) else (0, 0)

/-- `range()` of a segment of a placed plan. -/
theorem Placed.range_eq {p : LoadPlan} {i : Nat} (hp : Placed pg image p) (hv : image.Valid pg)
    (hi : i ∈ image.loads) :
    ((segOf pg p.bias i (image.seg i)).range : Outcome ε (Nat × Nat)) =
      ok ((pagesOf pg p.bias (image.seg i)).1,
        (pagesOf pg p.bias (image.seg i)).1 + (pagesOf pg p.bias (image.seg i)).2) := by
  obtain ⟨size, hok⟩ := hv.seg_ok hi
  rw [range_segOf hok (hp.seg_fin_lt hv hi), pagesOf]
  by_cases h : (image.seg i).start pg < (image.seg i).fin pg
  · simp only [h, if_true]
    congr 2
    omega
  · simp only [h, if_false]

theorem execRanges_eq {p : LoadPlan} (hv : image.Valid pg) (hp : Placed pg image p) :
    (p.execRanges image : Outcome ε (List (Nat × Nat))) =
      ok ((image.loads.filter fun i => (image.seg i).isExec).map fun i =>
        pagesOf pg p.bias (image.seg i)) := by
  have hseg : ∀ seg ∈ p.segments, ∃ i ∈ image.loads, segOf pg p.bias i (image.seg i) = seg := by
    intro seg hseg
    rw [hp.segments_eq] at hseg
    exact List.mem_map.mp hseg
  have hfilter : (p.segments.filterM fun seg => do
      let ph ← index image.phdrs seg.idx
      ok ph.isExec : Outcome ε (List SegmentPlan)) =
      ok (p.segments.filter fun seg => (image.seg seg.idx).isExec) := by
    refine filterM_of_forall ?_
    intro seg hmem
    obtain ⟨i, hi, rfl⟩ := hseg seg hmem
    rw [show (segOf pg p.bias i (image.seg i)).idx = i from rfl, hv.index_seg hi, ok_bind]
  rw [LoadPlan.execRanges, hfilter, ok_bind, mapM_of_forall (g := fun seg =>
    pagesOf pg p.bias (image.seg seg.idx))]
  · rw [hp.segments_eq, List.filter_map, List.map_map]
    rfl
  · intro seg hmem
    obtain ⟨i, hi, rfl⟩ := hseg seg (List.mem_of_mem_filter hmem)
    rw [hp.range_eq hv hi, ok_bind]
    simp only
    rw [U64.sub_of_le (Nat.le_add_right _ _), ok_bind, Nat.add_sub_cancel_left]
    rfl

theorem phdrSearch_ne_panic {p : LoadPlan} (loads : List Nat)
    (h : ∀ i ∈ loads, i < image.phdrs.length) :
    (p.phdrSearch image loads : Outcome ε (Option Nat)) ≠ panic := by
  induction loads with
  | nil => exact ok_ne_panic
  | cons i rest ih =>
    rw [List.forall_mem_cons] at h
    rw [LoadPlan.phdrSearch, index_of_lt h.1, ok_bind]
    simp only
    by_cases hle : image.ehdr.ePhoff ≥ image.phdrs[i].pOffset
    · rw [if_pos hle]
      split
      · exact ok_ne_panic
      · split
        · rw [U64.sub_of_le hle, ok_bind]
          exact ok_ne_panic
        · exact ih h.2
    · rw [if_neg hle]
      exact ih h.2

theorem phdrAddr_ne_panic {p : LoadPlan} (hv : image.Valid pg) :
    (p.phdrAddr image : Outcome ε (Option Nat)) ≠ panic := by
  have hsearch := phdrSearch_ne_panic (ε := ε) (p := p) image.loads fun i hi => hv.lt_length hi
  unfold LoadPlan.phdrAddr
  split
  · split
    · exact ok_ne_panic
    · split
      · exact ok_ne_panic
      · exact hsearch
  · exact hsearch

end ElfLoader.Layout
