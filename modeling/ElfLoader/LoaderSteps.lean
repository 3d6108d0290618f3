import ElfLoader.LayoutPlan
import ElfLoader.Program

/-!
# The loader, step by step

For a valid image and a plan that places it, none of the checked operators in
`loader.rs` fails.  Each lemma here states one routine of the loader without
them, as the calls it makes; the proofs about address spaces and about the
reservation protocol start from these.
-/

namespace ElfLoader.Loader

open ElfLoader Outcome Prog Elf Layout

section Segment

variable {pg : PageSize} {image : Image} {p : LoadPlan} {i : Nat}

/-- There is a tail to clear behind the file bytes. -/
def HasTail (pg : PageSize) (bias : Nat) (ph : Phdr) : Prop :=
  0 < ph.pFilesz ∧ ph.pVaddr + bias + ph.pFilesz < fileFin pg ph + bias

instance (pg : PageSize) (bias : Nat) (ph : Phdr) : Decidable (HasTail pg bias ph) :=
  inferInstanceAs (Decidable (_ ∧ _))

/-- The segment is mapped writable first and narrowed afterwards. -/
def HasWindow (pg : PageSize) (bias : Nat) (ph : Phdr) : Prop :=
  HasTail pg bias ph ∧ protOf ph &&& PROT_WRITE = 0

instance (pg : PageSize) (bias : Nat) (ph : Phdr) : Decidable (HasWindow pg bias ph) :=
  inferInstanceAs (Decidable (_ ∧ _))

/-- The protection the file-backed part is mapped with at first. -/
def openProt (pg : PageSize) (bias : Nat) (ph : Phdr) : Nat :=
  if HasWindow pg bias ph then protOf ph ||| PROT_WRITE else protOf ph

theorem needsWriteWindow_segOf {bias : Nat} {ph : Phdr} :
    (segOf pg bias i ph).needsWriteWindow = true ↔ HasWindow pg bias ph := by
  simp only [segOf, HasWindow, HasTail]
  split <;> simp_all

theorem mapFilePart_segOf (fd : Int) (bias : Nat) (ph : Phdr) :
    mapFilePart fd (segOf pg bias i ph) =
      if 0 < ph.pFilesz then do
        let _ ← Vm.map (.exact (ph.start pg + bias)) (fileFin pg ph + bias - (ph.start pg + bias))
          (openProt pg bias ph) (.file fd (ph.pOffset - ph.pVaddr % pg.bytes))
        pure ()
      else pure () := by
  have hwindow : (segOf pg bias i ph).needsWriteWindow = true ↔ HasWindow pg bias ph :=
    needsWriteWindow_segOf
  unfold mapFilePart
  by_cases hpos : 0 < ph.pFilesz
  · rw [if_pos hpos, show (segOf pg bias i ph).file = some _ from if_pos hpos]
    simp only [hwindow]
    rfl
  · rw [if_neg hpos, show (segOf pg bias i ph).file = none from if_neg hpos]

theorem clearTail_segOf (bias : Nat) (ph : Phdr) :
    clearTail (segOf pg bias i ph) =
      if HasTail pg bias ph then
        Vm.zero (ph.pVaddr + bias + ph.pFilesz)
          (fileFin pg ph + bias - (ph.pVaddr + bias + ph.pFilesz))
      else pure () := by
  unfold clearTail
  by_cases htail : HasTail pg bias ph
  · rw [if_pos htail, show (segOf pg bias i ph).zero = some _ from if_pos htail]
  · rw [if_neg htail, show (segOf pg bias i ph).zero = none from if_neg htail]

theorem mapAnonPart_segOf (bias : Nat) (ph : Phdr) :
    mapAnonPart (segOf pg bias i ph) =
      if fileFin pg ph < ph.fin pg then do
        let _ ← Vm.map (.exact (fileFin pg ph + bias)) (ph.fin pg - fileFin pg ph) (protOf ph) .anon
        pure ()
      else pure () := by
  unfold mapAnonPart
  by_cases hanon : fileFin pg ph < ph.fin pg
  · rw [if_pos hanon, show (segOf pg bias i ph).anon = some _ from if_pos hanon]
    rfl
  · rw [if_neg hanon, show (segOf pg bias i ph).anon = none from if_neg hanon]

theorem closeWriteWindow_eq (hv : image.Valid pg) (hp : Placed pg image p)
    (hi : i ∈ image.loads) :
    closeWriteWindow (segOf pg p.bias i (image.seg i)) =
      if HasWindow pg p.bias (image.seg i) then do
        let r ← Vm.protect (pagesOf pg p.bias (image.seg i)).1
          (pagesOf pg p.bias (image.seg i)).2 (protOf (image.seg i))
        liftM (Outcome.ofExcept r : Outcome Error Unit)
      else pure () := by
  unfold closeWriteWindow
  simp only [needsWriteWindow_segOf]
  split
  · rw [hp.range_eq hv hi, lift_ok_bind]
    simp only
    rw [U64.sub_of_le (Nat.le_add_right _ _), lift_ok_bind, Nat.add_sub_cancel_left]
    rfl
  · rfl

theorem protectSegment_eq (hv : image.Valid pg) (hp : Placed pg image p)
    (hi : i ∈ image.loads) :
    protectSegment (segOf pg p.bias i (image.seg i)) = (do
      let _ ← Vm.protect (pagesOf pg p.bias (image.seg i)).1
        (pagesOf pg p.bias (image.seg i)).2 (protOf (image.seg i))
      pure ()) := by
  rw [protectSegment, hp.range_eq hv hi, lift_ok_bind]
  simp only
  rw [U64.sub_of_le (Nat.le_add_right _ _), lift_ok_bind, Nat.add_sub_cancel_left]
  rfl

theorem fillMappedSegment_eq (hv : image.Valid pg) (hp : Placed pg image p)
    (hi : i ∈ image.loads) (fd : Int) :
    fillMappedSegment image fd (segOf pg p.bias i (image.seg i)) = (do
      mapFilePart fd (segOf pg p.bias i (image.seg i))
      clearTail (segOf pg p.bias i (image.seg i))
      mapAnonPart (segOf pg p.bias i (image.seg i))
      closeWriteWindow (segOf pg p.bias i (image.seg i))) := by
  rw [fillMappedSegment, show (segOf pg p.bias i (image.seg i)).idx = i from rfl,
    hv.index_seg hi, lift_ok_bind, hp.range_eq hv hi, lift_ok_bind]

theorem syncMappedSegment_eq (hv : image.Valid pg) (hi : i ∈ image.loads) (bias : Nat) :
    syncMappedSegment image (segOf pg bias i (image.seg i)) =
      if (image.seg i).isExec ∧ HasTail pg bias (image.seg i) then
        Vm.icacheSync ((image.seg i).pVaddr + bias + (image.seg i).pFilesz)
          (fileFin pg (image.seg i) + bias -
            ((image.seg i).pVaddr + bias + (image.seg i).pFilesz))
      else pure () := by
  rw [syncMappedSegment, show (segOf pg bias i (image.seg i)).idx = i from rfl,
    hv.index_seg hi, lift_ok_bind]
  by_cases hexec : (image.seg i).isExec = true
  · rw [if_pos hexec]
    by_cases htail : HasTail pg bias (image.seg i)
    · rw [if_pos ⟨hexec, htail⟩,
        show (segOf pg bias i (image.seg i)).zero = some _ from if_pos htail]
    · rw [if_neg (fun h => htail h.2),
        show (segOf pg bias i (image.seg i)).zero = none from if_neg htail]
  · rw [if_neg hexec, if_neg (fun h => hexec h.1)]

/-- A segment is copied, then the rest of its last page and its `.bss` cleared. -/
theorem copySegment_eq (hv : image.Valid pg) (hp : Placed pg image p) (hi : i ∈ image.loads)
    (src : Source) :
    copySegment image src pg.bytes p (segOf pg p.bias i (image.seg i)) = (do
      copyLoop src (image.seg i) ((image.seg i).pVaddr + p.bias) 0
      clearRest ((image.seg i).pVaddr + p.bias + (image.seg i).pFilesz)
        ((image.seg i).fin pg + p.bias)) := by
  obtain ⟨size, hok⟩ := hv.seg_ok hi
  have hfin := hp.seg_fin_lt hv hi
  have hmem := mem_le_fin pg (image.seg i)
  have hfile := hok.filesz_le
  have hup : roundUp pg.bytes ((image.seg i).pVaddr + p.bias + (image.seg i).pMemsz) =
      (image.seg i).fin pg + p.bias := roundUp_fin hp.dvd_bias
  rw [copySegment, show (segOf pg p.bias i (image.seg i)).idx = i from rfl, hv.index_seg hi,
    lift_ok_bind, U64.add_of_lt (by omega), lift_ok_bind]
  congr 1
  funext _
  rw [U64.add_of_lt (by omega), lift_ok_bind, alignUp_eq, lift_ok_bind, hup, if_pos hfin,
    okOr_some, lift_ok_bind, U64.add_of_lt (by omega), lift_ok_bind]

end Segment

/-! ### The copy loop -/

section Copy

variable {src : Source} {ph : Phdr} {vaddr : Nat}

theorem copyLoop_done {done : Nat} (h : ¬ done < ph.pFilesz) :
    copyLoop src ph vaddr done = pure () := by
  rw [copyLoop, dif_neg h]

theorem copyLoop_step {done : Nat} (h : done < ph.pFilesz) (hoff : ph.pOffset + ph.pFilesz < 2 ^ 64)
    (hva : vaddr + ph.pFilesz < 2 ^ 64) :
    copyLoop src ph vaddr done = (do
      let data ← readExactAt src (ph.pOffset + done) (min COPY_CHUNK (ph.pFilesz - done))
      Vm.write (vaddr + done) data.val
      copyLoop src ph vaddr (done + min COPY_CHUNK (ph.pFilesz - done))) := by
  rw [copyLoop, dif_pos h, U64.sub_of_le (le_of_lt h), lift_ok_bind]
  simp only
  rw [U64.sub_of_le (min_le_left _ _), lift_ok_bind, U64.add_of_lt (by omega), lift_ok_bind]
  congr 1
  funext data
  rw [U64.add_of_lt (by omega), lift_ok_bind]
  congr 1
  funext _
  rw [U64.add_of_lt (by omega), lift_ok_bind]

/-- The rule for the copy loop: an invariant indexed by the bytes copied. -/
theorem wp_copyLoop_chunks {σ : Type} {H : Handler Host σ} {pre : σ → HostOp → Prop}
    {E : σ → Error → Prop} {X : Prop} (Inv : Nat → σ → Prop)
    (hoff : ph.pOffset + ph.pFilesz < 2 ^ 64) (hva : vaddr + ph.pFilesz < 2 ^ 64)
    (hstep : ∀ done n s, 0 < n → n ≤ COPY_CHUNK → done + n ≤ ph.pFilesz → Inv done s →
      wp H pre (do
        let data ← readExactAt src (ph.pOffset + done) n
        Vm.write (vaddr + done) data.val) (post (fun s _ => Inv (done + n) s) E X) s)
    {done : Nat} {s : σ} (hs : Inv done s) (hle : done ≤ ph.pFilesz) :
    wp H pre (copyLoop src ph vaddr done) (post (fun s _ => Inv ph.pFilesz s) E X) s := by
  induction hn : ph.pFilesz - done using Nat.strong_induction_on generalizing done s with
  | _ left ih =>
    by_cases h : done < ph.pFilesz
    · have hpos : 0 < min COPY_CHUNK (ph.pFilesz - done) := by
        simp only [COPY_CHUNK]
        omega
      have hmin := min_le_right COPY_CHUNK (ph.pFilesz - done)
      rw [copyLoop_step h hoff hva, ← bind_assoc]
      refine wp_bind_post (hstep done _ s hpos (min_le_left _ _) (by omega) hs) ?_
      intro s _ hs
      exact ih _ (by omega) hs (by omega) rfl
    · rw [copyLoop_done h]
      obtain rfl : done = ph.pFilesz := by omega
      exact hs

theorem wp_copyLoop {σ : Type} {H : Handler Host σ} {pre : σ → HostOp → Prop}
    {E : σ → Error → Prop} {X : Prop} (Inv : Nat → σ → Prop)
    (hoff : ph.pOffset + ph.pFilesz < 2 ^ 64) (hva : vaddr + ph.pFilesz < 2 ^ 64)
    (hstep : ∀ done n s, 0 < n → done + n ≤ ph.pFilesz → Inv done s →
      wp H pre (do
        let data ← readExactAt src (ph.pOffset + done) n
        Vm.write (vaddr + done) data.val) (post (fun s _ => Inv (done + n) s) E X) s)
    {done : Nat} {s : σ} (hs : Inv done s) (hle : done ≤ ph.pFilesz) :
    wp H pre (copyLoop src ph vaddr done) (post (fun s _ => Inv ph.pFilesz s) E X) s :=
  wp_copyLoop_chunks Inv hoff hva (fun done n s hn _ => hstep done n s hn) hs hle

end Copy

/-! ### Whole loads -/

section Load

variable {pg : PageSize} {image : Image}

/-- The span and the reservation fit the word; otherwise the image is refused. -/
def SpanFits (pg : PageSize) (image : Image) : Prop :=
  image.hi pg < 2 ^ 64 ∧ needOf pg image < 2 ^ 64

instance (pg : PageSize) (image : Image) : Decidable (SpanFits pg image) :=
  inferInstanceAs (Decidable (_ ∧ _))

theorem reserveMapped_eq (hv : image.Valid pg) (hspan : SpanFits pg image) :
    reserveMapped image pg.bytes (image.lo pg) (needOf pg image) =
      (if image.ehdr.eType = ET_DYN then do
        let raw ← Vm.map .anywhere (needOf pg image) PROT_NONE .anon
        pure (.at raw)
      else do
        let got ← Vm.map (.hint (image.lo pg)) (image.hi pg - image.lo pg) PROT_NONE .anon
        if got ≠ image.lo pg then do
          let _ ← Vm.unmap got (image.hi pg - image.lo pg)
          .done (.err Error.ENOMEM)
        else pure .fixed) := by
  unfold reserveMapped
  split
  · rfl
  · rw [hv.vaSpan_eq, if_pos hspan.1, lift_ok_bind]
    simp only
    rw [U64.sub_of_le hv.lo_le_hi, lift_ok_bind]

theorem loadMapped_eq (hv : image.Valid pg) (fd : Int) :
    loadMapped image fd pg.bytes =
      if SpanFits pg image then do
        let placement ← reserveMapped image pg.bytes (image.lo pg) (needOf pg image)
        let plan ← makePlan image pg.bytes placement
        fillOrUnload { plan, allocated := false } (fillMapped image fd plan)
      else .done (.err Error.ENOEXEC) := by
  rw [loadMapped, hv.vaSpan_eq, reservationLen_eq hv]
  by_cases hhi : image.hi pg < 2 ^ 64
  · rw [if_pos hhi, lift_ok_bind]
    simp only
    by_cases hneed : needOf pg image < 2 ^ 64
    · rw [if_pos ⟨hhi, hneed⟩, if_pos ⟨hhi, hneed⟩, lift_ok_bind]
    · rw [if_neg (fun h => hneed h.2), if_neg (fun h => hneed h.2), lift_err_bind]
  · rw [if_neg hhi, lift_err_bind, if_neg (fun h => hhi h.1)]

theorem loadCopied_eq (hv : image.Valid pg) (src : Source) :
    loadCopied image src pg.bytes =
      if image.ehdr.eType ≠ ET_DYN then .done (.err Error.ENOTSUP)
      else if SpanFits pg image then do
        let raw ← Vm.allocAligned (alignOf pg image) (needOf pg image)
        let plan ← makePlan image pg.bytes (.at raw)
        fillOrUnload { plan, allocated := true } (fillCopied image src pg.bytes plan)
      else .done (.err Error.ENOEXEC) := by
  rw [loadCopied]
  by_cases htype : image.ehdr.eType = ET_DYN
  · rw [guardErr_of (by simpa using htype), lift_ok_bind, if_neg (by simpa using htype),
      reservationLen_eq hv]
    by_cases hspan : image.hi pg < 2 ^ 64 ∧ needOf pg image < 2 ^ 64
    · rw [if_pos hspan, if_pos (show SpanFits pg image from hspan), lift_ok_bind, segAlign_eq hv,
        lift_ok_bind]
    · rw [if_neg hspan, if_neg (show ¬ SpanFits pg image from hspan), lift_err_bind]
  · rw [guardErr_of_not (by simpa using htype), lift_err_bind, if_pos (by simpa using htype)]

theorem fillMapped_eq {p : LoadPlan} (hp : Placed pg image p) (fd : Int) :
    fillMapped image fd p = (do
      image.loads.forM fun i => fillMappedSegment image fd (segOf pg p.bias i (image.seg i))
      image.loads.forM fun i => syncMappedSegment image (segOf pg p.bias i (image.seg i))) := by
  rw [fillMapped, hp.segments_eq]
  simp only [List.forM_eq_forM, List.forM_map]

theorem fillCopied_eq {p : LoadPlan} (hv : image.Valid pg) (hp : Placed pg image p)
    (src : Source) :
    fillCopied image src pg.bytes p = (do
      tryReserve COPY_CHUNK Error.ENOMEM
      image.loads.forM fun i =>
        copySegment image src pg.bytes p (segOf pg p.bias i (image.seg i))
      (image.loads.filter fun i => (image.seg i).isExec).forM fun i =>
        Vm.icacheSync (pagesOf pg p.bias (image.seg i)).1 (pagesOf pg p.bias (image.seg i)).2
      image.loads.forM fun i => protectSegment (segOf pg p.bias i (image.seg i))) := by
  rw [fillCopied, execRanges_eq hv hp, hp.segments_eq]
  simp only [List.forM_eq_forM, List.forM_map, lift_ok_bind]

/-- The start-up check of the entry point always has an answer. -/
theorem entryIsExecutable_eq_ok {ε : Type} {p : LoadPlan} (hv : image.Valid pg)
    (hp : Placed pg image p) : ∃ hit, (entryIsExecutable image p : Outcome ε Bool) = ok hit := by
  rw [entryIsExecutable, hp.segments_eq, anyM_of_forall (g := fun seg =>
    let r := pagesOf pg p.bias (image.seg seg.idx)
    seg.prot &&& PROT_EXEC != 0 && decide (p.entry ≥ r.1) && decide (p.entry < r.1 + r.2))]
  · exact ⟨_, rfl⟩
  · intro seg hseg
    obtain ⟨i, hi, rfl⟩ := List.mem_map.mp hseg
    rw [hp.range_eq hv hi, ok_bind]
    rfl

end Load

end ElfLoader.Loader
