import ElfLoader.LayoutPlan
import ElfLoader.Machine
import ElfLoader.Tiling

/-!
# A plan tiles its segments

For every segment of a plan the file piece and the anonymous piece lie end to end
and cover the pages of the segment, no more and no less.  The reservation holds
them all.  What a plan does not promise is the alignment of the segments: the
lowest page of the image is put at a multiple of the strongest alignment, wherever
it was linked.
-/

namespace ElfLoader.Layout

open ElfLoader Outcome Elf

/-- The pieces of a segment that get mapped, the file bytes first. -/
def SegmentPlan.pieces (seg : SegmentPlan) : List (Nat × Nat) :=
  (seg.file.map fun f => (f.addr, f.len)).toList ++ (seg.anon.map fun a => (a.addr, a.len)).toList

structure TiledSegment (pg : PageSize) (bias : Nat) (ph : Phdr) (seg : SegmentPlan) : Prop where
  tiles : Tiles (roundDown pg.bytes (ph.pVaddr + bias)) seg.pieces
    (roundUp pg.bytes (ph.pVaddr + bias + ph.pMemsz))
  aligned : ∀ r ∈ seg.pieces, pg.bytes ∣ r.1 ∧ pg.bytes ∣ r.2
  file_some : seg.file.isSome = true ↔ 0 < ph.pFilesz
  offset : ∀ f ∈ seg.file, pg.bytes ∣ f.off ∧ f.off ≤ ph.pOffset ∧
    f.addr + (ph.pOffset - f.off) = ph.pVaddr + bias
  zero : ∀ x, (∃ z ∈ seg.zero, Holds (z.addr, z.len) x) ↔
    ∃ f ∈ seg.file, ph.pVaddr + bias + ph.pFilesz ≤ x ∧ x < f.addr + f.len

def ReservesFor (pg : PageSize) (image : Image) (p : LoadPlan) : Placement → Prop
  | .fixed => ∃ lo hi, image.vaSpan pg.bytes = ok (lo, hi) ∧ p.reserveLen = hi - lo
  | .at _ => reservationLen image pg.bytes = ok p.reserveLen

section Segment

variable {pg : PageSize} {size : Option Nat} {bias i : Nat} {ph : Phdr}

/-- The file piece and the anonymous piece, or the one of them that is there. -/
theorem pieces_segOf (pg : PageSize) (bias i : Nat) (ph : Phdr) :
    (segOf pg bias i ph).pieces =
      (if 0 < ph.pFilesz then [(ph.start pg + bias, fileFin pg ph - ph.start pg)] else []) ++
        if fileFin pg ph < ph.fin pg then [(fileFin pg ph + bias, ph.fin pg - fileFin pg ph)]
        else [] := by
  simp only [SegmentPlan.pieces, segOf]
  by_cases hpos : 0 < ph.pFilesz
  · by_cases hanon : fileFin pg ph < ph.fin pg
    · simp [hpos, hanon, Nat.add_sub_add_right]
    · simp [hpos, hanon, Nat.add_sub_add_right]
  · by_cases hanon : fileFin pg ph < ph.fin pg
    · simp [hpos, hanon]
    · simp [hpos, hanon]

theorem tiles_segOf (hdvd : pg.bytes ∣ bias) (hok : LoadOk pg.bytes size ph) :
    Tiles (roundDown pg.bytes (ph.pVaddr + bias)) (segOf pg bias i ph).pieces
      (roundUp pg.bytes (ph.pVaddr + bias + ph.pMemsz)) := by
  have hle := fileFin_le_fin hok
  rw [roundUp_fin hdvd, roundDown_add hdvd, ← Phdr.start, pieces_segOf]
  by_cases hpos : 0 < ph.pFilesz
  · have hlt := start_lt_fileFin pg hpos
    rw [if_pos hpos]
    split
    · simp only [List.cons_append, List.nil_append, tiles_cons, tiles_nil, true_and]
      omega
    · simp only [List.append_nil, tiles_cons, tiles_nil, true_and]
      omega
  · have hfile : fileFin pg ph = ph.start pg := by rw [fileFin, if_neg hpos]
    rw [if_neg hpos, hfile]
    split
    · simp only [List.nil_append, tiles_cons, tiles_nil, true_and]
      omega
    · have hstart := Phdr.start_le_fin pg ph
      simp only [List.nil_append, tiles_nil]
      omega

theorem aligned_segOf (hdvd : pg.bytes ∣ bias) (r : Nat × Nat)
    (hr : r ∈ (segOf pg bias i ph).pieces) : pg.bytes ∣ r.1 ∧ pg.bytes ∣ r.2 := by
  have hstart : pg.bytes ∣ ph.start pg := dvd_roundDown _ _
  have hfile := dvd_fileFin pg ph
  have hfin : pg.bytes ∣ ph.fin pg := dvd_roundUp _ _
  rw [pieces_segOf, List.mem_append] at hr
  rcases hr with hr | hr
  · split at hr
    · rw [List.mem_singleton.mp hr]
      exact ⟨Nat.dvd_add hstart hdvd, Nat.dvd_sub hfile hstart⟩
    · cases hr
  · split at hr
    · rw [List.mem_singleton.mp hr]
      exact ⟨Nat.dvd_add hfile hdvd, Nat.dvd_sub hfin hfile⟩
    · cases hr

/-- The file is mapped so that its bytes come to lie at their addresses. -/
theorem offset_segOf (hok : LoadOk pg.bytes size ph) {f : FileMap}
    (hf : f ∈ (segOf pg bias i ph).file) :
    pg.bytes ∣ f.off ∧ f.off ≤ ph.pOffset ∧ f.addr + (ph.pOffset - f.off) = ph.pVaddr + bias := by
  simp only [segOf] at hf
  split at hf
  · rename_i hpos
    cases hf
    have hmod := Nat.mod_le ph.pOffset pg.bytes
    have hmod' := Nat.mod_le ph.pVaddr pg.bytes
    dsimp only [Phdr.start, roundDown]
    rw [hok.congr hpos] at hmod' ⊢
    refine ⟨Nat.dvd_sub_mod _, Nat.sub_le _ _, ?_⟩
    omega
  · cases hf

/-- What gets cleared is what the last page of the file piece has behind the file
    bytes. -/
theorem zero_segOf (x : Nat) :
    (∃ z ∈ (segOf pg bias i ph).zero, Holds (z.addr, z.len) x) ↔
      ∃ f ∈ (segOf pg bias i ph).file,
        ph.pVaddr + bias + ph.pFilesz ≤ x ∧ x < f.addr + f.len := by
  simp only [segOf]
  by_cases hpos : 0 < ph.pFilesz
  · have hlt := start_lt_fileFin pg hpos
    by_cases htail : ph.pVaddr + bias + ph.pFilesz < fileFin pg ph + bias
    · simp only [hpos, htail, and_self, if_true, Option.mem_def, Option.some.injEq,
        exists_eq_left', Holds]
      omega
    · simp only [hpos, htail, and_false, if_true, if_false, Option.mem_def, Option.some.injEq,
        exists_eq_left', reduceCtorEq, false_and, exists_false, false_iff]
      omega
  · simp [hpos]

theorem tiledSegment_segOf (hdvd : pg.bytes ∣ bias) (hok : LoadOk pg.bytes size ph) :
    TiledSegment pg bias ph (segOf pg bias i ph) where
  tiles := tiles_segOf hdvd hok
  aligned := aligned_segOf hdvd
  file_some := by
    simp only [segOf]
    split <;> simp_all
  offset := fun _ hf => offset_segOf hok hf
  zero := zero_segOf

end Segment

section Plan

variable {arch : Arch} {pg : PageSize} {image : Image} {reserved : Bool} {pl : Placement}
  {p : LoadPlan}

theorem reservesFor_planFor (hv : image.Valid pg) (hhi : image.hi pg < 2 ^ 64)
    (hneed : pl = .fixed ∨ needOf pg image < 2 ^ 64) : ReservesFor pg image (planFor pg image pl) pl := by
  cases pl with
  | fixed => exact ⟨image.lo pg, image.hi pg, by rw [hv.vaSpan_eq, if_pos hhi], rfl⟩
  | «at» raw =>
    rcases hneed with hfixed | hneed
    · cases hfixed
    · change reservationLen image pg.bytes = ok (needOf pg image)
      rw [reservationLen_eq hv, if_pos ⟨hhi, hneed⟩]

/-- **A plan tiles every segment.**  For every image the parser accepts, every page
    size and every placement from a page boundary: the bias is a multiple of the
    page, and the reservation has the length that was asked for and holds the image.
    Each `PT_LOAD` has one segment of the plan, whose pieces lie end to end from the
    first page of the `PT_LOAD` to its last, and pieces of two segments share no
    address. -/
theorem plan_tiles (himage : Accepted arch pg image) (hpage : pl.PageAligned pg)
    (hplan : plan reserved image pg.bytes pl = ok p) :
    pg.bytes ∣ p.bias ∧ ReservesFor pg image p pl ∧
    p.reserveAddr ≤ p.base ∧ p.fin ≤ p.reserveAddr + p.reserveLen ∧
    (p.segments.map (·.idx)).Nodup ∧
    (∀ i ph, image.phdrs[i]? = some ph → ph.pType = PT_LOAD →
      ∃ seg ∈ p.segments, seg.idx = i ∧ TiledSegment pg p.bias ph seg) ∧
    (∀ seg ∈ p.segments, ∃ ph, image.phdrs[seg.idx]? = some ph ∧ ph.pType = PT_LOAD) ∧
    p.segments.Pairwise fun seg seg' =>
      ∀ r ∈ seg.pieces, ∀ r' ∈ seg'.pieces, ∀ x, ¬ (Holds r x ∧ Holds r' x) := by
  have hv := himage.valid
  obtain ⟨hhi, hneed, hfits, hend, rfl⟩ := plan_ok_inv hv hplan
  have hp := placed_planFor hv hhi hfits hend hpage
  have hsegs := hp.segments_eq
  generalize hq : planFor pg image pl = q at hp hsegs
  have hres : ReservesFor pg image q pl := hq ▸ reservesFor_planFor hv hhi hneed
  obtain ⟨size, ht⟩ := hv.table
  have hidx : q.segments.map (·.idx) = image.loads := by
    rw [hsegs, List.map_map]
    exact List.map_id image.loads
  refine ⟨hp.dvd_bias, hres, ?_, ?_, ?_, ?_, ?_, ?_⟩
  · rw [hp.base_eq]
    exact hp.reserve_le
  · rw [hp.fin_eq]
    exact hp.le_reserve
  · rw [hidx]
    exact ht.sorted.imp VaddrLt.ne
  · intro i ph hget htype
    have hi := (ht.mem_iff i).mpr ⟨ph, hget, htype⟩
    have hseg : image.seg i = ph := hdr_eq hget
    refine ⟨segOf pg q.bias i (image.seg i), ?_, rfl, ?_⟩
    · rw [hsegs]
      exact List.mem_map.mpr ⟨i, hi, rfl⟩
    · rcases hv.seg_ok hi with ⟨size, hok⟩
      rw [hseg] at hok ⊢
      exact tiledSegment_segOf hp.dvd_bias hok
  · intro seg hseg
    exact (ht.mem_iff _).mp (hidx ▸ List.mem_map_of_mem hseg)
  · rw [hsegs, List.pairwise_map]
    refine hv.pairwise.imp_of_mem ?_
    intro i j hi hj hbefore r hr r' hr' x
    rcases hv.seg_ok hi with ⟨size, hok⟩
    rcases hv.seg_ok hj with ⟨size', hok'⟩
    apply (tiles_segOf hp.dvd_bias hok).disjoint (tiles_segOf hp.dvd_bias hok') _ hr hr' x
    rw [roundUp_fin hp.dvd_bias, roundDown_add hp.dvd_bias]
    exact Nat.add_le_add_right hbefore _

end Plan

/-- The plan of the small program, from a reservation at `0x10000`. -/
def smallPlan : LoadPlan := planFor AddressSpace.page4K (AddressSpace.smallImage 0x1100) (.at 0x10000)

theorem plan_small :
    plan true (AddressSpace.smallImage 0x1100) AddressSpace.page4K.bytes (.at 0x10000) =
      ok smallPlan := by
  decide +kernel

/-- The plan of the small program: its bias is the base of the reservation less one
    page, and four pages are reserved. -/
theorem small_plan_tiles :
    AddressSpace.page4K.bytes ∣ smallPlan.bias ∧ smallPlan.reserveLen = 0x4000 ∧
      smallPlan.fin ≤ smallPlan.reserveAddr + 0x4000 := by
  have hlen : smallPlan.reserveLen = 0x4000 := by decide +kernel
  obtain ⟨hbias, -, -, hfin, -⟩ := plan_tiles
    (accepted_of_parseSlice AddressSpace.parse_smallElf)
    (show Placement.PageAligned AddressSpace.page4K (.at 0x10000) by
      unfold Placement.PageAligned; decide) plan_small
  exact ⟨hbias, hlen, hlen ▸ hfin⟩

/-! ### Alignment -/

section Alignment

variable {arch : Arch} {pg : PageSize} {image : Image} {raw : Nat} {p : LoadPlan}

theorem le_strongerAlign (a pa : Nat) : a ≤ strongerAlign a pa := by
  unfold strongerAlign
  split <;> omega

theorem le_strongerAlign_right {a pa k : Nat} (hpa : pa = 2 ^ k) : pa ≤ strongerAlign a pa := by
  unfold strongerAlign
  by_cases h : pa > a
  · rw [if_pos ⟨h, U64.isPowerOfTwo_iff.mpr ⟨k, hpa⟩⟩]
  · rw [if_neg (fun hc => h hc.1)]
    omega

/-- The alignment of the reservation is at least what each segment asks for. -/
theorem le_foldl_strongerAlign (loads : List Nat) (a : Nat) :
    a ≤ loads.foldl (fun a i => strongerAlign a (image.seg i).pAlign) a ∧
      ∀ i ∈ loads, (∃ k, (image.seg i).pAlign = 2 ^ k) →
        (image.seg i).pAlign ≤ loads.foldl (fun a i => strongerAlign a (image.seg i).pAlign) a := by
  induction loads generalizing a with
  | nil => exact ⟨le_rfl, by simp⟩
  | cons j rest ih =>
    rcases ih (strongerAlign a (image.seg j).pAlign) with ⟨hle, hrest⟩
    refine ⟨(le_strongerAlign _ _).trans hle, ?_⟩
    intro i hi hpow
    rcases List.mem_cons.mp hi with rfl | hi
    · obtain ⟨k, hk⟩ := hpow
      exact (le_strongerAlign_right hk).trans hle
    · exact hrest i hi hpow

theorem align_dvd_alignOf (hv : image.Valid pg) {i : Nat} (hi : i ∈ image.loads)
    (hpos : 0 < (image.seg i).pAlign) (hmax : (image.seg i).pAlign ≤ MAX_SEG_ALIGN) :
    (image.seg i).pAlign ∣ alignOf pg image := by
  rcases hv.seg_ok hi with ⟨size, hok⟩
  obtain ⟨k, hk⟩ : ∃ k, (image.seg i).pAlign = 2 ^ k := by
    rcases hok.align with hzero | hpow
    · omega
    · exact hpow
  have hle : (image.seg i).pAlign ≤ alignOf pg image := by
    have hfold := (le_foldl_strongerAlign image.loads pg.bytes).2 i hi ⟨k, hk⟩
    exact (le_min hfold hmax).trans (le_max_left _ _)
  obtain ⟨m, -, -, hm⟩ := isAlign_alignOf hv
  rw [hk, hm] at hle ⊢
  exact Nat.pow_dvd_pow 2 ((Nat.pow_le_pow_iff_right (by decide)).mp hle)

/-- The run-time address of a segment is congruent to its link address. -/
def KeepsAlign (bias : Nat) (ph : Phdr) : Prop :=
  (ph.pVaddr + bias) % ph.pAlign = ph.pVaddr % ph.pAlign

/-- A base that is a multiple keeps the alignment if the lowest page was linked at
    one. -/
theorem keepsAlign_iff {ph : Phdr} {base lo : Nat} (hbase : ph.pAlign ∣ base) (hle : lo ≤ base) :
    KeepsAlign (base - lo) ph ↔ ph.pAlign ∣ lo := by
  constructor
  · intro h
    have hmod := Nat.sub_mod_eq_zero_of_mod_eq h
    rw [Nat.add_sub_cancel_left] at hmod
    have hsub := Nat.dvd_sub hbase (Nat.dvd_of_mod_eq_zero hmod)
    rwa [Nat.sub_sub_self hle] at hsub
  · intro h
    obtain ⟨c, hc⟩ := Nat.dvd_sub hbase h
    rw [KeepsAlign, hc, Nat.add_mul_mod_self_left]

def Aligned (ph : Phdr) : Prop := 0 < ph.pAlign ∧ ph.pAlign ≤ MAX_SEG_ALIGN

/-- **When a relocated image keeps the alignment of its segments.**  The lowest page
    of the image is put at a multiple of the strongest alignment; so exactly if every
    alignment asked for divides the address it was linked at. -/
theorem relocation_keeps_alignment_iff {reserved : Bool} (himage : Accepted arch pg image)
    (hplan : plan reserved image pg.bytes (.at raw) = ok p) :
    (∀ ph ∈ image.phdrs, ph.pType = PT_LOAD → Aligned ph → KeepsAlign p.bias ph) ↔
      ∀ ph ∈ image.phdrs, ph.pType = PT_LOAD → Aligned ph → ph.pAlign ∣ image.lo pg := by
  have hv := himage.valid
  obtain ⟨-, -, hfits, -, rfl⟩ := plan_ok_inv hv hplan
  have hiff : ∀ ph ∈ image.phdrs, ph.pType = PT_LOAD → Aligned ph →
      (KeepsAlign (biasAt pg image raw) ph ↔ ph.pAlign ∣ image.lo pg) := by
    intro ph hph htype halign
    rcases hv.exists_seg hph htype with ⟨i, hi, rfl⟩
    have hdvd := align_dvd_alignOf hv hi halign.1 halign.2
    exact keepsAlign_iff (hdvd.trans (dvd_roundUp _ raw)) hfits.2.1
  constructor
  · intro h ph hph htype halign
    exact (hiff ph hph htype halign).mp (h ph hph htype halign)
  · intro h ph hph htype halign
    exact (hiff ph hph htype halign).mpr (h ph hph htype halign)

open AddressSpace in
/-- The small program asks for pages, and was linked at one. -/
theorem small_keeps_alignment : KeepsAlign smallPlan.bias smallPhdrs[1] := by
  have hlo : (smallImage 0x1100).lo page4K = 0x1000 := by decide +kernel
  have halign : ∀ ph ∈ smallPhdrs, ph.pAlign ∣ 0x1000 := by decide +kernel
  have hkept := (relocation_keeps_alignment_iff (accepted_of_parseSlice parse_smallElf)
    plan_small).mpr (by
      intro ph hph _ _
      rw [hlo]
      exact halign ph hph)
  exact hkept _ (List.getElem_mem (by decide)) rfl (by unfold Aligned; decide)

/-- One segment that asks for 64 KiB, linked at the second page. -/
def misalignedPhdr : Phdr := ⟨PT_LOAD, PF_R ||| PF_X, 0, 0x1000, 0x1000, 0, 0x10, 0x10000⟩

def misalignedElf : Bytes := AddressSpace.buildElf .x86_64 ET_DYN 0x1000 [misalignedPhdr] []

def misalignedImage : Image := imageOf (ehdrAt misalignedElf) [misalignedPhdr] [0]

open AddressSpace in
/-- Its address was one page above a multiple of 64 KiB, and is put at one. -/
theorem misaligned_not_kept :
    parseSlice .x86_64 misalignedElf page4K = some (ok misalignedImage) ∧
      misalignedImage.ehdr.eType = ET_DYN ∧
      ∃ p, plan true misalignedImage page4K.bytes (.at 0x10000) = ok p ∧
        misalignedPhdr ∈ misalignedImage.phdrs ∧ misalignedPhdr.pType = PT_LOAD ∧
        Aligned misalignedPhdr ∧ ¬ KeepsAlign p.bias misalignedPhdr := by
  refine ⟨by decide +kernel, by decide +kernel,
    planFor page4K misalignedImage (.at 0x10000), by decide +kernel, by simp [misalignedImage, imageOf],
    rfl, by unfold Aligned; decide, ?_⟩
  unfold KeepsAlign
  decide +kernel

end Alignment

end ElfLoader.Layout
