import ElfLoader.MappedLoad

/-!
# The copy path on an address space

The bytes of each segment are read and written chunk by chunk into a heap block,
and everything behind them is cleared; all of this happens while the block is
still readable and writable.  Protections are set last, and only where the system
can enforce them.
-/

namespace ElfLoader.AddressSpace

open ElfLoader Outcome Prog Elf Layout Loader

section Copy

variable {pg : PageSize} {w : World} {image : Image} {p : LoadPlan} {i : Nat} {s : Space}
  {X : Prop}

/-- `done` bytes of a segment have been copied. -/
structure Copied (pg : PageSize) (f : Bytes) (bias : Nat) (ph : Phdr) (s : Space) (done : Nat)
    (s' : Space) : Prop where
  prot : s'.prot = s.prot
  frame : AgreeOff pg (segPages pg bias ph) s s'
  file : ∀ k < done, s'.mem (ph.pVaddr + bias + k) = f.getD (ph.pOffset + k) 0

theorem getD_bytesAt {f : Bytes} {off n k : Nat} (hk : k < n) :
    (bytesAt f off n).getD k 0 = f.getD (off + k) 0 := by
  rw [List.getD_eq_getElem?_getD, List.getD_eq_getElem?_getD, getElem?_bytesAt hk]

/-- A chunk more. -/
theorem Copied.write {f : Bytes} {bias done n : Nat} {ph : Phdr} {s' : Space} {data : Bytes}
    {size : Option Nat} (hok : LoadOk pg.bytes size ph) (h : Copied pg f bias ph s done s')
    (hlen : data.length = n) (hdata : data = bytesAt f (ph.pOffset + done) n)
    (hle : done + n ≤ ph.pFilesz) :
    Copied pg f bias ph s (done + n) (s'.written (ph.pVaddr + bias + done) data) := by
  have hstart := start_le_vaddr pg ph
  have hmem := mem_le_fin pg ph
  have hfile := hok.filesz_le
  have hoff : AgreeOff pg _ s' (s'.written (ph.pVaddr + bias + done) data) := agreeOff_written
  rw [hlen] at hoff
  refine ⟨h.prot, h.frame.trans (hoff.mono ?_), ?_⟩
  · rintro x ⟨hlo, hhi⟩
    exact ⟨by omega, by omega⟩
  · intro k hk
    by_cases hkd : k < done
    · rw [← h.file k hkd]
      exact hoff.mem _ (by unfold Within; omega)
    · have hin : ph.pVaddr + bias + done ≤ ph.pVaddr + bias + k ∧
          ph.pVaddr + bias + k < ph.pVaddr + bias + done + data.length := by omega
      refine (if_pos hin).trans ?_
      rw [hdata, getD_bytesAt (by omega)]
      congr 1
      omega

theorem wp_copySegment (hv : image.Valid pg) (hp : Placed pg image p) (hi : i ∈ image.loads)
    (src : Source) (hwr : ∀ x, segPages pg p.bias (image.seg i) x → s.Writable pg x) :
    wp (step pg w) (fillPre pg)
      (copySegment image src pg.bytes p (segOf pg p.bias i (image.seg i)))
      (post (fun s' _ => s'.prot = s.prot ∧ AgreeOff pg (segPages pg p.bias (image.seg i)) s s' ∧
          Shown pg (w.bytes src.handle) p.bias (image.seg i) s')
        (fun s' _ => s'.prot = s.prot ∧ AgreeOff pg (segPages pg p.bias (image.seg i)) s s')
        X) s := by
  obtain ⟨size, hok⟩ := hv.seg_ok hi
  have hfin := hp.seg_fin_lt hv hi
  have hmem := mem_le_fin pg (image.seg i)
  have hfile := hok.filesz_le
  have hstart := start_le_vaddr pg (image.seg i)
  have hwr' {s' : Space} (hprot : s'.prot = s.prot) (x : Nat)
      (hx : segPages pg p.bias (image.seg i) x) : s'.Writable pg x := by
    unfold Space.Writable Space.protAt
    rw [hprot]
    exact hwr x hx
  rw [copySegment_eq hv hp hi]
  refine wp_bind_post (wp_copyLoop (Copied pg (w.bytes src.handle) p.bias (image.seg i) s)
    hok.file_lt (by omega) ?_ ⟨rfl, AgreeOff.refl pg _ _, by simp⟩ (Nat.zero_le _)) ?_
  · intro done n s₁ hn hle hs₁
    refine wp_bind_err ((reads_step s₁ src).wp_read rfl _ _) ?_ ?_
    · rintro s₂ _ rfl
      exact ⟨hs₁.prot, hs₁.frame⟩
    rintro s₂ data ⟨rfl, hdata⟩
    rw [data.property] at hdata
    refine ⟨⟨trivial, ?_⟩, ?_⟩
    · intro x hlo hhi
      rw [data.property] at hhi
      exact hwr' hs₁.prot x ⟨by omega, by omega⟩
    · rintro (e | u) s₃ ⟨-, rfl⟩
      · exact ⟨hs₁.prot, hs₁.frame⟩
      · exact hs₁.write hok data.property hdata hle
  · intro s₁ _ hs₁
    unfold clearRest
    split
    · rw [U64.sub_of_le (by omega), lift_ok_bind]
      refine ⟨⟨trivial, fun x hlo hhi => hwr' hs₁.prot x ⟨by omega, by omega⟩⟩, ?_⟩
      rintro (e | u) s₂ ⟨-, rfl⟩
      · exact ⟨hs₁.prot, hs₁.frame⟩
      · have hoff : AgreeOff pg _ s₁ (s₁.zeroed
            ((image.seg i).pVaddr + p.bias + (image.seg i).pFilesz)
            ((image.seg i).fin pg + p.bias -
              ((image.seg i).pVaddr + p.bias + (image.seg i).pFilesz))) := agreeOff_zeroed
        refine ⟨hs₁.prot, hs₁.frame.trans (hoff.mono ?_), ?_, ?_⟩
        · rintro x ⟨hlo, hhi⟩
          exact ⟨by omega, by omega⟩
        · intro k hk
          rw [← hs₁.file k hk]
          exact hoff.mem _ (by unfold Within; omega)
        · intro x hlo hhi
          exact if_pos ⟨hlo, by omega⟩
    · refine ⟨hs₁.prot, hs₁.frame, hs₁.file, ?_⟩
      intro x hlo hhi
      omega

end Copy

def Enforced (pg : PageSize) (w : World) (bias : Nat) (ph : Phdr) : Prop :=
  w.accepts (pagesOf pg bias ph).1 (pagesOf pg bias ph).2 (protOf ph) = true

instance (pg : PageSize) (w : World) (bias : Nat) (ph : Phdr) : Decidable (Enforced pg w bias ph) :=
  inferInstanceAs (Decidable (_ = true))

def enforcedPages (pg : PageSize) (w : World) (bias : Nat) (image : Image) (x : Nat) : Prop :=
  ∃ i ∈ image.loads, Enforced pg w bias (image.seg i) ∧ segPages pg bias (image.seg i) x

section Protect

variable {pg : PageSize} {w : World} {image : Image} {p : LoadPlan} {i : Nat} {s : Space}
  {X : Prop}

/-- The end of the range whose protection changes: the start if none does. -/
def enforcedFin (pg : PageSize) (w : World) (bias : Nat) (ph : Phdr) : Nat :=
  if Enforced pg w bias ph then ph.fin pg + bias else ph.start pg + bias

theorem wp_protectSegment (hv : image.Valid pg) (hp : Placed pg image p) (hi : i ∈ image.loads)
    (hmapped : ∀ x, segPages pg p.bias (image.seg i) x → (s.protAt pg x).isSome) :
    wp (step pg w) (fillPre pg) (protectSegment (segOf pg p.bias i (image.seg i)))
      (post (fun s' _ => s'.mem = s.mem ∧
          AgreeOff pg (Within ((image.seg i).start pg + p.bias)
            (enforcedFin pg w p.bias (image.seg i))) s s' ∧
          (Enforced pg w p.bias (image.seg i) → HasProt pg p.bias (image.seg i) s'))
        (fun _ _ => False) X) s := by
  rw [protectSegment_eq hv hp hi]
  refine wp_bind.mpr ⟨⟨trivial, trivial⟩, ?_⟩
  rintro (e | u) s' ⟨hans, rfl⟩
  · have hno : ¬ Enforced pg w p.bias (image.seg i) := by
      rw [Enforced, hans]
      simp
    exact ⟨rfl, AgreeOff.refl pg _ _, fun h => absurd h hno⟩
  · have hyes : Enforced pg w p.bias (image.seg i) := hans
    have hfin : enforcedFin pg w p.bias (image.seg i) = (image.seg i).fin pg + p.bias :=
      if_pos hyes
    by_cases hlt : (image.seg i).start pg < (image.seg i).fin pg
    · have ha : pg.bytes ∣ (image.seg i).start pg + p.bias :=
        Nat.dvd_add (dvd_start pg _) hp.dvd_bias
      have hlen : pg.bytes ∣ (image.seg i).fin pg - (image.seg i).start pg :=
        Nat.dvd_sub (dvd_fin pg _) (dvd_start pg _)
      have hpages : pagesOf pg p.bias (image.seg i) =
          ((image.seg i).start pg + p.bias, (image.seg i).fin pg - (image.seg i).start pg) :=
        if_pos hlt
      rw [hpages]
      refine ⟨rfl, (agreeOff_withProt ha hlen).mono ?_, ?_⟩
      · rintro x ⟨hlo, hhi⟩
        exact ⟨hlo, by omega⟩
      · rintro - x ⟨hlo, hhi⟩
        obtain ⟨prot, hprot⟩ := Option.isSome_iff_exists.mp (hmapped x ⟨hlo, hhi⟩)
        refine (protAt_withProt ha hlen).trans ((if_pos ⟨hlo, by omega⟩).trans ?_)
        rw [hprot, Option.map_some]
    · have hpages : pagesOf pg p.bias (image.seg i) = (0, 0) := if_neg hlt
      rw [hpages]
      refine ⟨rfl, ⟨rfl, fun x _ => ?_, fun _ _ => rfl⟩, ?_⟩
      · exact if_neg not_touches_zero
      · rintro - x ⟨hlo, hhi⟩
        omega

/-- The pages of a segment lie between the ends of the image. -/
theorem segPages_within (hv : image.Valid pg) (hi : i ∈ image.loads) {bias x : Nat}
    (hx : segPages pg bias (image.seg i) x) :
    Within (image.lo pg + bias) (image.hi pg + bias) x := by
  have hlo := hv.lo_le hi
  have hhi := hv.le_hi hi
  exact ⟨by have := hx.1; omega, by have := hx.2; omega⟩

theorem within_enforcedFin {bias x : Nat} {ph : Phdr} :
    Within (ph.start pg + bias) (enforcedFin pg w bias ph) x ↔
      Enforced pg w bias ph ∧ segPages pg bias ph x := by
  unfold enforcedFin
  split
  · rename_i henf
    exact ⟨fun hx => ⟨henf, hx⟩, fun hx => hx.2⟩
  · rename_i henf
    apply iff_of_false
    · unfold Within
      omega
    · exact fun hx => henf hx.1

/-- The loop that copies. -/
theorem wp_copySegments (hv : image.Valid pg) (hp : Placed pg image p) (src : Source)
    (hwr : ∀ x, Within (image.lo pg + p.bias) (image.hi pg + p.bias) x → s.Writable pg x) :
    wp (step pg w) (fillPre pg)
      (image.loads.forM fun i => copySegment image src pg.bytes p (segOf pg p.bias i (image.seg i)))
      (post (fun s' _ => s'.prot = s.prot ∧ AgreeOff pg (imagePages pg p.bias image) s s' ∧
          ∀ i ∈ image.loads, Shown pg (w.bytes src.handle) p.bias (image.seg i) s')
        (fun s' _ => s'.prot = s.prot ∧ AgreeOff pg (imagePages pg p.bias image) s s') X) s := by
  refine wp_post_mono (wp_forM_ranges image.loads (fun i => (image.seg i).start pg + p.bias)
    (fun i => (image.seg i).fin pg + p.bias) True (fun s' => s'.prot = s.prot)
    (fun i s' => i ∈ image.loads → Shown pg (w.bytes src.handle) p.bias (image.seg i) s')
    (pairwise_segPages hv p.bias) ?_ ?_ rfl) ?_ fun _ _ h => h.2
  · intro i s s' hQ hagree hi
    obtain ⟨size, hok⟩ := hv.seg_ok hi
    exact (hQ hi).of_agreeOn hok hagree
  · intro i hi s₁ hprot
    have hwr₁ (x : Nat) (hx : segPages pg p.bias (image.seg i) x) : s₁.Writable pg x := by
      unfold Space.Writable Space.protAt
      rw [hprot]
      exact hwr x (segPages_within hv hi hx)
    exact wp_post_mono (wp_copySegment hv hp hi src hwr₁)
      (fun _ _ h => ⟨h.1.trans hprot, h.2.1, fun _ => h.2.2⟩)
      fun _ _ h => ⟨trivial, h.1.trans hprot, h.2⟩
  · intro s' _ hdone
    rcases hdone with ⟨hprot, hoff, hshown⟩
    exact ⟨hprot, hoff, fun i hi => hshown i hi hi⟩

/-- The loop that protects, over pages that are there. -/
theorem wp_protectSegments (hv : image.Valid pg) (hp : Placed pg image p)
    (hmapped : ∀ x, Within (image.lo pg + p.bias) (image.hi pg + p.bias) x →
      (s.protAt pg x).isSome) :
    wp (step pg w) (fillPre pg)
      (image.loads.forM fun i => protectSegment (segOf pg p.bias i (image.seg i)))
      (post (fun s' _ => s'.mem = s.mem ∧ AgreeOff pg (enforcedPages pg w p.bias image) s s' ∧
          ∀ i ∈ image.loads,
            Enforced pg w p.bias (image.seg i) → HasProt pg p.bias (image.seg i) s')
        (fun _ _ => False) X) s := by
  refine wp_post_mono (wp_forM_ranges image.loads (fun i => (image.seg i).start pg + p.bias)
    (fun i => enforcedFin pg w p.bias (image.seg i)) False
    (fun s' => s'.mem = s.mem ∧ ∀ x, Within (image.lo pg + p.bias) (image.hi pg + p.bias) x →
      (s'.protAt pg x).isSome)
    (fun i s' => Enforced pg w p.bias (image.seg i) → HasProt pg p.bias (image.seg i) s')
    ?_ ?_ ?_ ⟨rfl, hmapped⟩) ?_ fun _ _ h => h.1.elim
  · refine (pairwise_segPages hv p.bias).imp ?_
    intro i j hij
    have hstart := Phdr.start_le_fin pg (image.seg i)
    unfold enforcedFin
    split <;> omega
  · intro i s s' hQ hagree henf
    refine (hQ henf).of_agreeOn ?_
    rwa [enforcedFin, if_pos henf] at hagree
  · intro i hi s₁ hs₁
    rcases hs₁ with ⟨hmem, hsome⟩
    refine wp_post_mono (wp_protectSegment hv hp hi fun x hx =>
      hsome x (segPages_within hv hi hx)) ?_ fun _ _ h => h.elim
    intro s₂ _ hdone
    rcases hdone with ⟨hmem₂, hoff, henf⟩
    refine ⟨⟨hmem₂.trans hmem, ?_⟩, hoff, henf⟩
    intro x hx
    by_cases hxi : Within ((image.seg i).start pg + p.bias)
        (enforcedFin pg w p.bias (image.seg i)) x
    · rcases within_enforcedFin.mp hxi with ⟨he, hpages⟩
      rw [henf he x hpages]
      rfl
    · rw [hoff.prot x hxi]
      exact hsome x hx
  · intro s' _ hdone
    rcases hdone with ⟨⟨hmem, -⟩, hoff, henf⟩
    refine ⟨hmem, hoff.mono ?_, henf⟩
    intro x hx
    rcases hx with ⟨i, hi, hxi⟩
    exact ⟨i, hi, within_enforcedFin.mp hxi⟩

/-- **`fill_copied`** in a block that can be written: every segment shows its
    bytes, protections have changed exactly where they are enforced, and nothing
    else has.  If it fails, no protection has changed. -/
theorem wp_fillCopied (hv : image.Valid pg) (hp : Placed pg image p) (src : Source)
    (hwr : ∀ x, Within (image.lo pg + p.bias) (image.hi pg + p.bias) x → s.Writable pg x) :
    wp (step pg w) (fillPre pg) (fillCopied image src pg.bytes p)
      (post (fun s' _ => s'.blocks = s.blocks ∧
          (∀ x, ¬ imagePages pg p.bias image x → s'.mem x = s.mem x) ∧
          (∀ x, ¬ enforcedPages pg w p.bias image x → s'.protAt pg x = s.protAt pg x) ∧
          ∀ i ∈ image.loads, Shown pg (w.bytes src.handle) p.bias (image.seg i) s' ∧
            (Enforced pg w p.bias (image.seg i) → HasProt pg p.bias (image.seg i) s'))
        (fun s' _ => s'.prot = s.prot ∧ AgreeOff pg (imagePages pg p.bias image) s s') X) s := by
  rw [fillCopied_eq hv hp]
  refine wp_bind_err ((reads_step s src).wp_tryReserve rfl _ _) ?_ ?_
  · rintro s' _ rfl
    exact ⟨rfl, AgreeOff.refl pg _ _⟩
  rintro s₀ _ rfl
  apply wp_bind_post (wp_copySegments hv hp src hwr)
  intro s₁ _ hcopied
  rcases hcopied with ⟨hprot, hoff, hshown⟩
  refine wp_bind_err (wp_forM_still (s := s₁) ?_) ?_ ?_
  · exact fun i _ => ⟨⟨trivial, trivial⟩, fun _ _ h => h.2⟩
  · rintro s' _ rfl
    exact ⟨hprot, hoff⟩
  rintro s₂ _ rfl
  have hmapped : ∀ x, Within (image.lo pg + p.bias) (image.hi pg + p.bias) x →
      (s₂.protAt pg x).isSome := by
    intro x hx
    obtain ⟨prot, h, -⟩ := hwr x hx
    unfold Space.protAt at h ⊢
    rw [hprot, h]
    rfl
  refine wp_post_mono (wp_protectSegments hv hp hmapped) ?_ fun _ _ h => h.elim
  intro s' _ hdone
  rcases hdone with ⟨hmem, hoff', henf⟩
  refine ⟨hoff'.blocks.trans hoff.blocks, ?_, ?_, ?_⟩
  · intro x hx
    rw [hmem]
    exact hoff.mem x hx
  · intro x hx
    rw [hoff'.prot x hx, Space.protAt, hprot, ← Space.protAt]
  · intro i hi
    have hs := hshown i hi
    exact ⟨⟨fun k hk => by rw [hmem, hs.file k hk], fun x hlo hhi => by rw [hmem, hs.rest x hlo hhi]⟩,
      henf i hi⟩

end Protect

end ElfLoader.AddressSpace
