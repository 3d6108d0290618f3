import ElfLoader.AddressSpace

/-!
# The mmap path on an address space

Segment by segment: the file-backed part is mapped, its tail cleared, the
anonymous part mapped, and a write window opened for the tail closed again.  What
is left is the segment's bytes, zeros behind them, and the protection its header
asks for, with nothing changed outside of the segment.
-/

namespace ElfLoader.AddressSpace

open ElfLoader Outcome Prog Elf Layout Loader

def segPages (pg : PageSize) (bias : Nat) (ph : Phdr) : Nat → Prop :=
  Within (ph.start pg + bias) (ph.fin pg + bias)

instance (pg : PageSize) (bias : Nat) (ph : Phdr) (x : Nat) : Decidable (segPages pg bias ph x) :=
  inferInstanceAs (Decidable (Within _ _ x))

/-- A segment shows its file bytes, and zeros up to the end of its last page. -/
structure Shown (pg : PageSize) (f : Bytes) (bias : Nat) (ph : Phdr) (s : Space) : Prop where
  file : ∀ k < ph.pFilesz, s.mem (ph.pVaddr + bias + k) = f.getD (ph.pOffset + k) 0
  rest : ∀ x, ph.pVaddr + bias + ph.pFilesz ≤ x → x < ph.fin pg + bias → s.mem x = 0

def HasProt (pg : PageSize) (bias : Nat) (ph : Phdr) (s : Space) : Prop :=
  ∀ x, segPages pg bias ph x → s.protAt pg x = some (protOf ph)

section Stable

variable {pg : PageSize} {f : Bytes} {bias : Nat} {ph : Phdr} {s s' : Space}

theorem start_le_vaddr (pg : PageSize) (ph : Phdr) : ph.start pg ≤ ph.pVaddr := roundDown_le _ _

theorem Shown.of_agreeOn {size : Option Nat} (hok : LoadOk pg.bytes size ph)
    (h : Shown pg f bias ph s) (ha : AgreeOn pg (segPages pg bias ph) s s') :
    Shown pg f bias ph s' := by
  have hstart := start_le_vaddr pg ph
  have hmem := mem_le_fin pg ph
  have hfile := hok.filesz_le
  constructor
  · intro k hk
    rw [ha.mem _ ⟨by omega, by omega⟩, h.file k hk]
  · intro x hlo hhi
    rw [ha.mem _ ⟨by omega, hhi⟩, h.rest x hlo hhi]

theorem HasProt.of_agreeOn (h : HasProt pg bias ph s)
    (ha : AgreeOn pg (segPages pg bias ph) s s') : HasProt pg bias ph s' :=
  fun x hx => (ha.prot x hx).trans (h x hx)

end Stable

section Segment

variable {pg : PageSize} {w : World} {image : Image} {p : LoadPlan} {i : Nat} {s : Space}
  {X : Prop}

theorem protOf_or_write (ph : Phdr) : (protOf ph ||| PROT_WRITE) &&& PROT_WRITE ≠ 0 := by
  unfold protOf
  cases ph.isRead <;> cases ph.isWrite <;> cases ph.isExec <;> decide

/-- While there is a tail to clear, the file-backed part is writable. -/
theorem openProt_write {bias : Nat} {ph : Phdr} (h : HasTail pg bias ph) :
    openProt pg bias ph &&& PROT_WRITE ≠ 0 := by
  unfold openProt
  split
  · exact protOf_or_write ph
  · rename_i hw
    exact fun hz => hw ⟨h, hz⟩

/-- The file-backed part of a segment is mapped. -/
structure FileMapped (pg : PageSize) (f : Bytes) (bias : Nat) (ph : Phdr) (s : Space) : Prop where
  prot : ∀ x, Within (ph.start pg + bias) (fileFin pg ph + bias) x →
    s.protAt pg x = some (openProt pg bias ph)
  file : ∀ k < ph.pFilesz, s.mem (ph.pVaddr + bias + k) = f.getD (ph.pOffset + k) 0

/-- … and the tail of its last page cleared. -/
structure TailCleared (pg : PageSize) (f : Bytes) (bias : Nat) (ph : Phdr) (s : Space) : Prop
    extends FileMapped pg f bias ph s where
  tail : ∀ x, Within (ph.pVaddr + bias + ph.pFilesz) (fileFin pg ph + bias) x → s.mem x = 0

/-- … and the anonymous part mapped. -/
structure AnonMapped (pg : PageSize) (f : Bytes) (bias : Nat) (ph : Phdr) (s : Space) : Prop
    extends TailCleared pg f bias ph s where
  anon : ∀ x, Within (fileFin pg ph + bias) (ph.fin pg + bias) x →
    s.protAt pg x = some (protOf ph) ∧ s.mem x = 0

theorem wp_mapFilePart (hv : image.Valid pg) (hp : Placed pg image p) (hi : i ∈ image.loads)
    (fd : Int) :
    wp (step pg w) (fillPre pg) (mapFilePart fd (segOf pg p.bias i (image.seg i)))
      (post (fun s' _ => AgreeOff pg (segPages pg p.bias (image.seg i)) s s' ∧
          FileMapped pg (w.fdBytes fd) p.bias (image.seg i) s')
        (fun s' _ => AgreeOff pg (segPages pg p.bias (image.seg i)) s s') X) s := by
  obtain ⟨size, hok⟩ := hv.seg_ok hi
  have hle := fileFin_le_fin hok
  have hstart := start_le_fileFin pg (image.seg i)
  rw [mapFilePart_segOf]
  split
  · rename_i hpos
    have hfile := file_le_fileFin pg hpos
    have hva := start_le_vaddr pg (image.seg i)
    have hoff : (image.seg i).pVaddr % pg.bytes ≤ (image.seg i).pOffset := by
      rw [hok.congr hpos]
      exact Nat.mod_le _ _
    have hmod : (image.seg i).pVaddr - (image.seg i).start pg = (image.seg i).pVaddr % pg.bytes :=
      sub_roundDown _ _
    have ha : pg.bytes ∣ (image.seg i).start pg + p.bias :=
      Nat.dvd_add (dvd_start pg _) hp.dvd_bias
    have hlen : pg.bytes ∣ fileFin pg (image.seg i) + p.bias - ((image.seg i).start pg + p.bias) :=
      Nat.dvd_sub (Nat.dvd_add (dvd_fileFin pg _) hp.dvd_bias) ha
    refine wp_bind.mpr ⟨⟨trivial, trivial⟩, ?_⟩
    rintro (e | raw) s' ⟨hans, rfl⟩
    · exact AgreeOff.refl pg _ _
    · obtain rfl : raw = (image.seg i).start pg + p.bias := hans
      refine ⟨(agreeOff_mapIn ha hlen).mono ?_, ?_, ?_⟩
      · rintro x ⟨hlo, hhi⟩
        exact ⟨hlo, by omega⟩
      · rintro x ⟨hlo, hhi⟩
        exact (protAt_mapIn ha hlen).trans (if_pos ⟨hlo, by omega⟩)
      · intro k hk
        refine (mem_mapIn ha hlen).trans ((if_pos ⟨by omega, by omega⟩).trans ?_)
        simp only [World.fill]
        congr 1
        omega
  · rename_i hpos
    have hfile : fileFin pg (image.seg i) = (image.seg i).start pg := by
      rw [fileFin, if_neg hpos]
    refine ⟨AgreeOff.refl pg _ _, ?_, ?_⟩
    · rintro x ⟨hlo, hhi⟩
      omega
    · intro k hk
      omega

theorem wp_clearTail (hv : image.Valid pg) (hi : i ∈ image.loads) {f : Bytes}
    (hs : FileMapped pg f p.bias (image.seg i) s) :
    wp (step pg w) (fillPre pg) (clearTail (segOf pg p.bias i (image.seg i)))
      (post (fun s' _ => AgreeOff pg (segPages pg p.bias (image.seg i)) s s' ∧
          TailCleared pg f p.bias (image.seg i) s')
        (fun s' _ => AgreeOff pg (segPages pg p.bias (image.seg i)) s s') X) s := by
  obtain ⟨size, hok⟩ := hv.seg_ok hi
  have hle := fileFin_le_fin hok
  have hva := start_le_vaddr pg (image.seg i)
  rw [clearTail_segOf]
  split
  · rename_i htail
    have hrange (x : Nat) (hlo : (image.seg i).pVaddr + p.bias + (image.seg i).pFilesz ≤ x)
        (hhi : x < (image.seg i).pVaddr + p.bias + (image.seg i).pFilesz +
          (fileFin pg (image.seg i) + p.bias -
            ((image.seg i).pVaddr + p.bias + (image.seg i).pFilesz))) :
        x < fileFin pg (image.seg i) + p.bias := by
      have := htail.2
      omega
    refine ⟨⟨trivial, ?_⟩, ?_⟩
    · intro x hlo hhi
      exact ⟨_, hs.prot x ⟨by omega, hrange x hlo hhi⟩, openProt_write htail⟩
    · rintro (e | u) s' ⟨-, rfl⟩
      · exact AgreeOff.refl pg _ _
      · have hoff : AgreeOff pg _ s (s.zeroed
            ((image.seg i).pVaddr + p.bias + (image.seg i).pFilesz)
            (fileFin pg (image.seg i) + p.bias -
              ((image.seg i).pVaddr + p.bias + (image.seg i).pFilesz))) := agreeOff_zeroed
        refine ⟨hoff.mono ?_, ⟨fun x hx => hs.prot x hx, ?_⟩, ?_⟩
        · rintro x ⟨hlo, hhi⟩
          have := hrange x hlo hhi
          exact ⟨by omega, by omega⟩
        · intro k hk
          rw [← hs.file k hk]
          exact hoff.mem _ (by unfold Within; omega)
        · rintro x ⟨hlo, hhi⟩
          exact if_pos ⟨hlo, by omega⟩
  · rename_i htail
    refine ⟨AgreeOff.refl pg _ _, hs, ?_⟩
    rintro x ⟨hlo, hhi⟩
    -- without a tail the file bytes end on the page boundary
    exfalso
    by_cases hpos : 0 < (image.seg i).pFilesz
    · exact htail ⟨hpos, by omega⟩
    · have hfile : fileFin pg (image.seg i) = (image.seg i).start pg := by
        rw [fileFin, if_neg hpos]
      omega

theorem wp_mapAnonPart (hv : image.Valid pg) (hp : Placed pg image p) (hi : i ∈ image.loads)
    {f : Bytes} (hs : TailCleared pg f p.bias (image.seg i) s) :
    wp (step pg w) (fillPre pg) (mapAnonPart (segOf pg p.bias i (image.seg i)))
      (post (fun s' _ => AgreeOff pg (segPages pg p.bias (image.seg i)) s s' ∧
          AnonMapped pg f p.bias (image.seg i) s')
        (fun s' _ => AgreeOff pg (segPages pg p.bias (image.seg i)) s s') X) s := by
  obtain ⟨size, hok⟩ := hv.seg_ok hi
  have hle := fileFin_le_fin hok
  have hstart := start_le_fileFin pg (image.seg i)
  rw [mapAnonPart_segOf]
  split
  · rename_i hanon
    have ha : pg.bytes ∣ fileFin pg (image.seg i) + p.bias :=
      Nat.dvd_add (dvd_fileFin pg _) hp.dvd_bias
    have hlen : pg.bytes ∣ (image.seg i).fin pg - fileFin pg (image.seg i) :=
      Nat.dvd_sub (dvd_fin pg _) (dvd_fileFin pg _)
    refine wp_bind.mpr ⟨⟨trivial, trivial⟩, ?_⟩
    rintro (e | raw) s' ⟨hans, rfl⟩
    · exact AgreeOff.refl pg _ _
    · obtain rfl : raw = fileFin pg (image.seg i) + p.bias := hans
      have hoff : AgreeOff pg _ s (s.mapIn pg (fileFin pg (image.seg i) + p.bias)
          ((image.seg i).fin pg - fileFin pg (image.seg i)) (protOf (image.seg i))
          (w.fill .anon)) := agreeOff_mapIn ha hlen
      refine ⟨hoff.mono ?_, ⟨⟨?_, ?_⟩, ?_⟩, ?_⟩
      · rintro x ⟨hlo, hhi⟩
        exact ⟨by omega, by omega⟩
      · rintro x ⟨hlo, hhi⟩
        rw [← hs.prot x ⟨hlo, hhi⟩]
        exact hoff.prot x (by unfold Within; omega)
      · intro k hk
        have hfile := file_le_fileFin pg (show 0 < (image.seg i).pFilesz by omega)
        rw [← hs.file k hk]
        exact hoff.mem _ (by unfold Within; omega)
      · rintro x ⟨hlo, hhi⟩
        rw [← hs.tail x ⟨hlo, hhi⟩]
        exact hoff.mem x (by unfold Within; omega)
      · rintro x ⟨hlo, hhi⟩
        exact ⟨(protAt_mapIn ha hlen).trans (if_pos ⟨hlo, by omega⟩),
          (mem_mapIn ha hlen).trans (if_pos ⟨hlo, by omega⟩)⟩
  · rename_i hanon
    refine ⟨AgreeOff.refl pg _ _, hs, ?_⟩
    rintro x ⟨hlo, hhi⟩
    omega

/-- The tail and the anonymous part together are everything behind the file bytes. -/
theorem AnonMapped.shown {f : Bytes} {bias : Nat} {ph : Phdr}
    (hs : AnonMapped pg f bias ph s) : Shown pg f bias ph s := by
  refine ⟨hs.file, ?_⟩
  intro x hlo hhi
  by_cases hx : x < fileFin pg ph + bias
  · exact hs.tail x ⟨hlo, hx⟩
  · exact (hs.anon x ⟨by omega, hhi⟩).2

theorem wp_closeWriteWindow (hv : image.Valid pg) (hp : Placed pg image p)
    (hi : i ∈ image.loads) {f : Bytes} (hs : AnonMapped pg f p.bias (image.seg i) s) :
    wp (step pg w) (fillPre pg) (closeWriteWindow (segOf pg p.bias i (image.seg i)))
      (post (fun s' _ => AgreeOff pg (segPages pg p.bias (image.seg i)) s s' ∧
          Shown pg f p.bias (image.seg i) s' ∧ HasProt pg p.bias (image.seg i) s')
        (fun s' _ => AgreeOff pg (segPages pg p.bias (image.seg i)) s s') X) s := by
  obtain ⟨size, hok⟩ := hv.seg_ok hi
  have hle := fileFin_le_fin hok
  rw [closeWriteWindow_eq hv hp hi]
  split
  · rename_i hw
    have hlt : (image.seg i).start pg < (image.seg i).fin pg :=
      lt_of_lt_of_le (start_lt_fileFin pg hw.1.1) hle
    rw [pagesOf, if_pos hlt]
    have ha : pg.bytes ∣ (image.seg i).start pg + p.bias :=
      Nat.dvd_add (dvd_start pg _) hp.dvd_bias
    have hlen : pg.bytes ∣ (image.seg i).fin pg - (image.seg i).start pg :=
      Nat.dvd_sub (dvd_fin pg _) (dvd_start pg _)
    refine wp_bind.mpr ⟨⟨trivial, trivial⟩, ?_⟩
    rintro (e | u) s' ⟨-, rfl⟩
    · exact AgreeOff.refl pg _ _
    · refine ⟨(agreeOff_withProt ha hlen).mono ?_, ⟨hs.shown.file, hs.shown.rest⟩, ?_⟩
      · rintro x ⟨hlo, hhi⟩
        exact ⟨hlo, by omega⟩
      · rintro x ⟨hlo, hhi⟩
        refine (protAt_withProt ha hlen).trans ((if_pos ⟨hlo, by omega⟩).trans ?_)
        by_cases hx : x < fileFin pg (image.seg i) + p.bias
        · rw [hs.prot x ⟨hlo, hx⟩, Option.map_some]
        · rw [(hs.anon x ⟨by omega, hhi⟩).1, Option.map_some]
  · rename_i hw
    refine ⟨AgreeOff.refl pg _ _, hs.shown, ?_⟩
    rintro x ⟨hlo, hhi⟩
    by_cases hx : x < fileFin pg (image.seg i) + p.bias
    · rw [hs.prot x ⟨hlo, hx⟩, openProt, if_neg hw]
    · exact (hs.anon x ⟨by omega, hhi⟩).1

theorem wp_fillMappedSegment (hv : image.Valid pg) (hp : Placed pg image p)
    (hi : i ∈ image.loads) (fd : Int) :
    wp (step pg w) (fillPre pg) (fillMappedSegment image fd (segOf pg p.bias i (image.seg i)))
      (post (fun s' _ => AgreeOff pg (segPages pg p.bias (image.seg i)) s s' ∧
          Shown pg (w.fdBytes fd) p.bias (image.seg i) s' ∧ HasProt pg p.bias (image.seg i) s')
        (fun s' _ => AgreeOff pg (segPages pg p.bias (image.seg i)) s s') X) s := by
  rw [fillMappedSegment_eq hv hp hi]
  refine wp_bind_post (wp_mapFilePart hv hp hi fd) ?_
  rintro s₁ _ ⟨hoff₁, hs₁⟩
  refine wp_bind_err (wp_clearTail hv hi hs₁) (fun _ _ h => hoff₁.trans h) ?_
  rintro s₂ _ ⟨hoff₂, hs₂⟩
  refine wp_bind_err (wp_mapAnonPart hv hp hi hs₂) (fun _ _ h => (hoff₁.trans hoff₂).trans h) ?_
  rintro s₃ _ ⟨hoff₃, hs₃⟩
  have hoff := (hoff₁.trans hoff₂).trans hoff₃
  exact wp_post_mono (wp_closeWriteWindow hv hp hi hs₃)
    (fun _ _ h => ⟨hoff.trans h.1, h.2⟩) fun _ _ h => hoff.trans h

theorem wp_syncMappedSegment (hv : image.Valid pg) (hi : i ∈ image.loads) :
    wp (step pg w) (fillPre pg) (syncMappedSegment image (segOf pg p.bias i (image.seg i)))
      (post (fun s' _ => s' = s) (fun s' _ => s' = s) X) s := by
  rw [syncMappedSegment_eq hv hi]
  split
  · exact ⟨⟨trivial, trivial⟩, fun _ _ h => h.2⟩
  · rfl

end Segment

def imagePages (pg : PageSize) (bias : Nat) (image : Image) (x : Nat) : Prop :=
  ∃ i ∈ image.loads, segPages pg bias (image.seg i) x

/-- The segments, moved by the bias, still follow one another. -/
theorem pairwise_segPages {pg : PageSize} {image : Image} (hv : image.Valid pg) (bias : Nat) :
    image.loads.Pairwise fun i j =>
      (image.seg i).fin pg + bias ≤ (image.seg j).start pg + bias :=
  hv.pairwise.imp fun h => Nat.add_le_add_right h bias

/-- **`fill_mapped`**: every segment shows its bytes and has its protection, and
    nothing else has changed. -/
theorem wp_fillMapped {pg : PageSize} {w : World} {image : Image} {p : LoadPlan} {s : Space}
    {X : Prop} (hv : image.Valid pg) (hp : Placed pg image p) (fd : Int) :
    wp (step pg w) (fillPre pg) (fillMapped image fd p)
      (post (fun s' _ => AgreeOff pg (imagePages pg p.bias image) s s' ∧
          ∀ i ∈ image.loads, Shown pg (w.fdBytes fd) p.bias (image.seg i) s' ∧
            HasProt pg p.bias (image.seg i) s')
        (fun s' _ => AgreeOff pg (imagePages pg p.bias image) s s') X) s := by
  rw [fillMapped_eq hp]
  refine wp_bind_err (wp_forM_ranges image.loads
    (fun i => (image.seg i).start pg + p.bias) (fun i => (image.seg i).fin pg + p.bias) True (fun _ => True)
    (fun i s' => i ∈ image.loads → Shown pg (w.fdBytes fd) p.bias (image.seg i) s' ∧
      HasProt pg p.bias (image.seg i) s')
    (pairwise_segPages hv p.bias) ?_ ?_ trivial) (fun _ _ h => h.2.2) ?_
  · intro i s s' hQ hagree hi
    obtain ⟨size, hok⟩ := hv.seg_ok hi
    exact ⟨(hQ hi).1.of_agreeOn hok hagree, (hQ hi).2.of_agreeOn hagree⟩
  · intro i hi s _
    exact wp_post_mono (wp_fillMappedSegment hv hp hi fd)
      (fun _ _ h => ⟨trivial, h.1, fun _ => h.2⟩) fun _ _ h => ⟨trivial, trivial, h⟩
  · rintro s₁ _ ⟨-, hoff, hall⟩
    refine wp_post_mono (wp_forM_still fun i hi => wp_syncMappedSegment hv hi) ?_ ?_
    · rintro s' _ rfl
      exact ⟨hoff, fun i hi => hall i hi hi⟩
    · rintro s' _ rfl
      exact hoff

end ElfLoader.AddressSpace
