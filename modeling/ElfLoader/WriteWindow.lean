import ElfLoader.Implement
import ElfLoader.MappedLoad

/-!
# The write window of a segment

To clear the tail of a segment that must not be written, the mmap path maps the file part of
the segment writable and narrows it afterwards.  For an executable segment that opens a
window: until it is narrowed, its pages can be written and executed.  Here the pages with
both rights are followed through the two ways to fill a reservation, call by call: the mmap
path has one window open at a time, and the copy path none.
-/

namespace ElfLoader.AddressSpace

open ElfLoader Outcome Prog Elf Layout Loader

def BothRights (prot : Nat) : Prop := prot &&& PROT_WRITE ≠ 0 ∧ prot &&& PROT_EXEC ≠ 0

def Space.WriteExec (pg : PageSize) (s : Space) (x : Nat) : Prop :=
  ∃ prot, s.protAt pg x = some prot ∧ BothRights prot

/-- Only addresses in `B` can be written and executed. -/
def Only (pg : PageSize) (B : Nat → Prop) (s : Space) : Prop := ∀ x, s.WriteExec pg x → B x

/-- The pages of the window of an executable segment that must not be written: those the
    file was mapped to. -/
structure InWindow (pg : PageSize) (bias : Nat) (ph : Phdr) (x : Nat) : Prop where
  exec : ph.isExec = true
  window : HasWindow pg bias ph
  pages : Within (ph.start pg + bias) (fileFin pg ph + bias) x

theorem bothRights_protOf {ph : Phdr} :
    BothRights (protOf ph) ↔ ph.isWrite = true ∧ ph.isExec = true := by
  unfold BothRights protOf
  cases ph.isRead <;> cases ph.isWrite <;> cases ph.isExec <;> decide

theorem bothRights_openProt {pg : PageSize} {bias : Nat} {ph : Phdr}
    (h : BothRights (openProt pg bias ph)) :
    ph.isExec = true ∧ (ph.isWrite = true ∨ HasWindow pg bias ph) := by
  unfold openProt at h
  split at h
  · rename_i hwindow
    refine ⟨?_, Or.inr hwindow⟩
    have hexec := h.2
    revert hexec
    unfold protOf
    cases ph.isRead <;> cases ph.isWrite <;> cases ph.isExec <;> decide
  · exact ⟨(bothRights_protOf.mp h).2, Or.inl (bothRights_protOf.mp h).1⟩

section Only

variable {pg : PageSize} {B B' : Nat → Prop} {s s' : Space} {a len prot : Nat}

theorem Only.mono (h : Only pg B s) (hB : ∀ x, B x → B' x) : Only pg B' s :=
  fun x hx => hB x (h x hx)

/-- Only the protections matter. -/
theorem Only.of_prot (h : Only pg B s) (hprot : s'.prot = s.prot) : Only pg B s' := by
  intro x hx
  apply h x
  rcases hx with ⟨v, hv, hboth⟩
  rw [Space.protAt, hprot] at hv
  exact ⟨v, hv, hboth⟩

theorem Only.mapIn {fill : Nat → UInt8} (h : Only pg B s) (ha : pg.bytes ∣ a)
    (hlen : pg.bytes ∣ len) (hnew : BothRights prot → ∀ x, Within a (a + len) x → B x) :
    Only pg B (s.mapIn pg a len prot fill) := by
  intro x hx
  rcases hx with ⟨v, hv, hboth⟩
  rw [protAt_mapIn ha hlen] at hv
  split at hv
  · rename_i hin
    cases hv
    exact hnew hboth x hin
  · exact h x ⟨v, hv, hboth⟩

/-- A change of protection settles its range, whatever was there before. -/
theorem Only.withProt (h : Only pg B' s) (ha : pg.bytes ∣ a) (hlen : pg.bytes ∣ len)
    (hold : ∀ x, B' x → ¬ Within a (a + len) x → B x)
    (hnew : BothRights prot → ∀ x, Within a (a + len) x → B x) :
    Only pg B (s.withProt pg a len prot) := by
  intro x hx
  rcases hx with ⟨v, hv, hboth⟩
  rw [protAt_withProt ha hlen] at hv
  split at hv
  · rename_i hin
    rcases Option.map_eq_some_iff.mp hv with ⟨_, -, rfl⟩
    exact hnew hboth x hin
  · rename_i hout
    exact hold x (h x ⟨v, hv, hboth⟩) hout

theorem Only.unmapped (h : Only pg B' s) (ha : pg.bytes ∣ a) (hlen : pg.bytes ∣ len)
    (hold : ∀ x, B' x → ¬ Within a (a + len) x → B x) : Only pg B (s.unmapped pg a len) := by
  intro x hx
  rcases hx with ⟨v, hv, hboth⟩
  rw [protAt_unmapped ha hlen] at hv
  split at hv
  · cases hv
  · rename_i hout
    exact hold x (h x ⟨v, hv, hboth⟩) hout

/-- Nothing is gained by unmapping. -/
theorem Only.less (h : Only pg B s) : Only pg B (s.unmapped pg a len) := by
  intro x hx
  rcases hx with ⟨v, hv, hboth⟩
  apply h x
  refine ⟨v, ?_, hboth⟩
  simp only [Space.protAt, Space.unmapped, onPages] at hv
  split at hv
  · cases hv
  · exact hv

end Only

/-! ### Filling a reservation -/

section Fill

variable {pg : PageSize} {w : World} {image : Image} {p : LoadPlan} {i : Nat} {B : Nat → Prop}
  {s : Space} {X : Prop}

/-- `B` has the pages of the segments that ask for both rights. -/
def HoldsAsked (pg : PageSize) (image : Image) (bias : Nat) (B : Nat → Prop) : Prop :=
  ∀ i ∈ image.loads, BothRights (protOf (image.seg i)) →
    ∀ x, segPages pg bias (image.seg i) x → B x

/-- Both rights are found in `B` and in the window of one segment at most. -/
def Windowed (pg : PageSize) (image : Image) (bias : Nat) (B : Nat → Prop) (s : Space) : Prop :=
  ∃ window : Option Nat, (∀ i ∈ window, i ∈ image.loads) ∧
    Only pg (fun x => B x ∨ ∃ i ∈ window, InWindow pg bias (image.seg i) x) s

theorem Only.windowed {bias : Nat} (h : Only pg B s) : Windowed pg image bias B s :=
  ⟨none, by simp, h.mono fun _ hx => Or.inl hx⟩

theorem windowed_of_one {bias : Nat} (hi : i ∈ image.loads)
    (h : Only pg (fun x => B x ∨ InWindow pg bias (image.seg i) x) s) :
    Windowed pg image bias B s := by
  refine ⟨some i, by simpa using hi, ?_⟩
  refine h.mono ?_
  intro x hx
  exact hx.imp_right fun hwin => ⟨i, rfl, hwin⟩

/-- The calls of a fill leave `K`. -/
def fillLeaves (pg : PageSize) (w : World) (K : Space → Prop) (s : Space) (op : HostOp) : Prop :=
  FillCall op ∧ upholds (step pg w) K s op

/-- A call of a fill, from what holds after it. -/
theorem wp_fillCall {α : Type} {op : HostOp} {meaning : op.Res → Outcome Error α}
    {J K : Space → Prop} (hop : FillCall op) (hJ : ∀ s', J s' → K s')
    (hafter : ∀ r s', step pg w s op r s' → J s') :
    wp (step pg w) (fillLeaves pg w K) (Prog.ask (I := Host) op meaning)
      (post (fun s' _ => J s') (fun s' _ => K s') True) s := by
  refine ⟨⟨hop, fun r s' hr => hJ s' (hafter r s' hr)⟩, ?_⟩
  intro r s' hr
  change post _ _ _ s' (meaning r)
  cases hm : meaning r with
  | ok a => exact hafter r s' hr
  | err e => exact hJ s' (hafter r s' hr)
  | panic => trivial

/-- Calls that change no protection. -/
theorem wp_fillCall_still {α : Type} {op : HostOp} {meaning : op.Res → Outcome Error α}
    {B' : Nat → Prop} {K : Space → Prop} (hop : FillCall op) (hJ : ∀ s', Only pg B' s' → K s')
    (hs : Only pg B' s) (hsame : ∀ r, (s.after pg w op r).prot = s.prot) :
    wp (step pg w) (fillLeaves pg w K) (Prog.ask (I := Host) op meaning)
      (post (fun s' _ => Only pg B' s') (fun s' _ => K s') True) s := by
  apply wp_fillCall hop hJ
  intro r s' hr
  rw [hr.2]
  exact hs.of_prot (hsame r)

theorem prot_after_zero (a len : Nat) (r : (HostOp.vm (.zero a len)).Res) :
    (s.after pg w (.vm (.zero a len)) r).prot = s.prot := by
  cases r with
  | error e => rfl
  | ok u => rfl

theorem prot_after_write (a : Nat) (data : Bytes) (r : (HostOp.vm (.write a data)).Res) :
    (s.after pg w (.vm (.write a data)) r).prot = s.prot := by
  cases r with
  | error e => rfl
  | ok u => rfl

/-- The pages of a segment get the protection its header asks for. -/
theorem Only.protected {B' : Nat → Prop} (h : Only pg B' s) (hp : Placed pg image p)
    (hi : i ∈ image.loads) (hB : HoldsAsked pg image p.bias B)
    (hold : ∀ x, B' x → ¬ segPages pg p.bias (image.seg i) x → B x) :
    Only pg B (s.withProt pg (pagesOf pg p.bias (image.seg i)).1
      (pagesOf pg p.bias (image.seg i)).2 (protOf (image.seg i))) := by
  unfold pagesOf
  split
  · rename_i hlt
    have hpages (x : Nat) : Within ((image.seg i).start pg + p.bias)
        ((image.seg i).start pg + p.bias + ((image.seg i).fin pg - (image.seg i).start pg)) x ↔
        segPages pg p.bias (image.seg i) x := by
      unfold segPages Within
      omega
    refine h.withProt (Nat.dvd_add (dvd_start pg _) hp.dvd_bias)
      (Nat.dvd_sub (dvd_fin pg _) (dvd_start pg _)) ?_ ?_
    · intro x hx hout
      exact hold x hx (mt (hpages x).mpr hout)
    · intro hboth x hx
      exact hB i hi hboth x ((hpages x).mp hx)
  · rename_i hlt
    refine h.withProt (Nat.dvd_zero _) (Nat.dvd_zero _) ?_ ?_
    · intro x hx _
      apply hold x hx
      unfold segPages Within
      omega
    · intro _ x hx
      exact absurd hx.2 (by omega)

theorem wp_mapFilePart_window (hv : image.Valid pg) (hp : Placed pg image p)
    (hi : i ∈ image.loads) (hB : HoldsAsked pg image p.bias B) (fd : Int) (hs : Only pg B s) :
    wp (step pg w) (fillLeaves pg w (Windowed pg image p.bias B))
      (mapFilePart fd (segOf pg p.bias i (image.seg i)))
      (post (fun s' _ => Only pg (fun x => B x ∨ InWindow pg p.bias (image.seg i) x) s')
        (fun s' _ => Windowed pg image p.bias B s') True) s := by
  rcases hv.seg_ok hi with ⟨size, hok⟩
  have hle := fileFin_le_fin hok
  have hstart := start_le_fileFin pg (image.seg i)
  have hopen : Only pg (fun x => B x ∨ InWindow pg p.bias (image.seg i) x) s :=
    hs.mono fun _ hx => Or.inl hx
  rw [mapFilePart_segOf]
  split
  · have ha : pg.bytes ∣ (image.seg i).start pg + p.bias :=
      Nat.dvd_add (dvd_start pg _) hp.dvd_bias
    have hlen : pg.bytes ∣ fileFin pg (image.seg i) + p.bias - ((image.seg i).start pg + p.bias) :=
      Nat.dvd_sub (Nat.dvd_add (dvd_fileFin pg _) hp.dvd_bias) ha
    refine wp_bind_post (wp_fillCall trivial (fun _ => windowed_of_one hi) ?_) fun _ _ h => h
    intro r s' hr
    rcases hr with ⟨hans, rfl⟩
    cases r with
    | error e => exact hopen
    | ok raw =>
      obtain rfl : raw = (image.seg i).start pg + p.bias := hans
      refine hopen.mapIn ha hlen ?_
      intro hboth x hx
      have hx' : Within ((image.seg i).start pg + p.bias) (fileFin pg (image.seg i) + p.bias) x :=
        ⟨hx.1, by have := hx.2; omega⟩
      rcases bothRights_openProt hboth with ⟨hexec, hwrite | hwindow⟩
      · left
        apply hB i hi (bothRights_protOf.mpr ⟨hwrite, hexec⟩) x
        exact ⟨hx'.1, by have := hx'.2; omega⟩
      · exact Or.inr ⟨hexec, hwindow, hx'⟩
  · exact hopen

theorem wp_mapAnonPart_window (hp : Placed pg image p) (hi : i ∈ image.loads)
    (hB : HoldsAsked pg image p.bias B)
    (hs : Only pg (fun x => B x ∨ InWindow pg p.bias (image.seg i) x) s) :
    wp (step pg w) (fillLeaves pg w (Windowed pg image p.bias B))
      (mapAnonPart (segOf pg p.bias i (image.seg i)))
      (post (fun s' _ => Only pg (fun x => B x ∨ InWindow pg p.bias (image.seg i) x) s')
        (fun s' _ => Windowed pg image p.bias B s') True) s := by
  have hstart := start_le_fileFin pg (image.seg i)
  rw [mapAnonPart_segOf]
  split
  · have ha : pg.bytes ∣ fileFin pg (image.seg i) + p.bias :=
      Nat.dvd_add (dvd_fileFin pg _) hp.dvd_bias
    have hlen : pg.bytes ∣ (image.seg i).fin pg - fileFin pg (image.seg i) :=
      Nat.dvd_sub (dvd_fin pg _) (dvd_fileFin pg _)
    refine wp_bind_post (wp_fillCall trivial (fun _ => windowed_of_one hi) ?_) fun _ _ h => h
    intro r s' hr
    rcases hr with ⟨hans, rfl⟩
    cases r with
    | error e => exact hs
    | ok raw =>
      obtain rfl : raw = fileFin pg (image.seg i) + p.bias := hans
      refine hs.mapIn ha hlen ?_
      intro hboth x hx
      exact Or.inl (hB i hi hboth x ⟨by have := hx.1; omega, by have := hx.2; omega⟩)
  · exact hs

theorem InWindow.segPages (hv : image.Valid pg) (hi : i ∈ image.loads) {bias x : Nat}
    (h : InWindow pg bias (image.seg i) x) : segPages pg bias (image.seg i) x := by
  rcases hv.seg_ok hi with ⟨size, hok⟩
  have hle := fileFin_le_fin hok
  exact ⟨h.pages.1, by have := h.pages.2; omega⟩

theorem wp_closeWriteWindow_window (hv : image.Valid pg) (hp : Placed pg image p)
    (hi : i ∈ image.loads) (hB : HoldsAsked pg image p.bias B)
    (hs : Only pg (fun x => B x ∨ InWindow pg p.bias (image.seg i) x) s) :
    wp (step pg w) (fillLeaves pg w (Windowed pg image p.bias B))
      (closeWriteWindow (segOf pg p.bias i (image.seg i)))
      (post (fun s' _ => Only pg B s') (fun s' _ => Windowed pg image p.bias B s') True) s := by
  rw [closeWriteWindow_eq hv hp hi]
  split
  · have hnarrowed : Only pg B (s.withProt pg (pagesOf pg p.bias (image.seg i)).1
        (pagesOf pg p.bias (image.seg i)).2 (protOf (image.seg i))) := by
      apply hs.protected hp hi hB
      intro x hx hout
      exact hx.resolve_right fun hwin => hout (hwin.segPages hv hi)
    refine wp_bind.mpr ⟨⟨trivial, ?_⟩, ?_⟩
    · intro r s' hr
      rw [hr.2]
      cases r with
      | error e => exact windowed_of_one hi hs
      | ok u => exact hnarrowed.windowed
    · intro r s' hr
      rw [hr.2]
      cases r with
      | error e => exact windowed_of_one hi hs
      | ok u => exact hnarrowed
  · rename_i hno
    -- no window was opened
    refine hs.mono ?_
    intro x hx
    exact hx.resolve_right fun hwin => hno hwin.window

theorem wp_fillMappedSegment_window (hv : image.Valid pg) (hp : Placed pg image p)
    (hi : i ∈ image.loads) (hB : HoldsAsked pg image p.bias B) (fd : Int) (hs : Only pg B s) :
    wp (step pg w) (fillLeaves pg w (Windowed pg image p.bias B))
      (fillMappedSegment image fd (segOf pg p.bias i (image.seg i)))
      (post (fun s' _ => Only pg B s') (fun s' _ => Windowed pg image p.bias B s') True) s := by
  rw [fillMappedSegment_eq hv hp hi]
  apply wp_bind_post (wp_mapFilePart_window hv hp hi hB fd hs)
  intro s₁ _ hs₁
  refine wp_bind_post (P := fun s' _ => Only pg (fun x => B x ∨ InWindow pg p.bias (image.seg i) x) s')
    ?_ ?_
  · rw [clearTail_segOf]
    split
    · exact wp_fillCall_still trivial (fun _ => windowed_of_one hi) hs₁ (prot_after_zero _ _)
    · exact hs₁
  intro s₂ _ hs₂
  apply wp_bind_post (wp_mapAnonPart_window hp hi hB hs₂)
  intro s₃ _ hs₃
  exact wp_closeWriteWindow_window hv hp hi hB hs₃

theorem wp_forM_leaves {body : Nat → Prog Host Error PUnit} {K : Space → Prop} {xs : List Nat}
    (hbody : ∀ i ∈ xs, ∀ s, Only pg B s → wp (step pg w) (fillLeaves pg w K) (body i)
      (post (fun s' _ => Only pg B s') (fun s' _ => K s') True) s)
    (hs : Only pg B s) :
    wp (step pg w) (fillLeaves pg w K) (xs.forM body)
      (post (fun s' _ => Only pg B s') (fun s' _ => K s') True) s := by
  apply wp_post_mono (wp_forM (fun rest s' => Only pg B s' ∧ ∀ i ∈ rest, i ∈ xs)
    ⟨hs, fun _ hi => hi⟩ ?_) (fun _ _ h => h.1) (fun _ _ h => h)
  intro i rest s' hinv
  have hmem := List.forall_mem_cons.mp hinv.2
  exact wp_post_mono (hbody i hmem.1 s' hinv.1) (fun _ _ h => ⟨h, hmem.2⟩) (fun _ _ h => h)

/-- **`fill_mapped`**: one window at a time, and none at the end. -/
theorem wp_fillMapped_window (hv : image.Valid pg) (hp : Placed pg image p)
    (hB : HoldsAsked pg image p.bias B) (fd : Int) (hs : Only pg B s) :
    wp (step pg w) (fillLeaves pg w (Windowed pg image p.bias B)) (fillMapped image fd p)
      (post (fun s' _ => Only pg B s') (fun s' _ => Windowed pg image p.bias B s') True) s := by
  rw [fillMapped_eq hp]
  apply wp_bind_post (wp_forM_leaves
    (fun i hi s' hs' => wp_fillMappedSegment_window hv hp hi hB fd hs') hs)
  intro s₁ _ hs₁
  refine wp_forM_leaves ?_ hs₁
  intro i hi s' hs'
  rw [syncMappedSegment_eq hv hi]
  split
  · exact wp_fillCall_still trivial (fun _ => Only.windowed) hs' fun _ => rfl
  · exact hs'

theorem wp_copySegment_window (hv : image.Valid pg) (hp : Placed pg image p) (hi : i ∈ image.loads)
    (src : Source) (hs : Only pg B s) :
    wp (step pg w) (fillLeaves pg w (Only pg B))
      (copySegment image src pg.bytes p (segOf pg p.bias i (image.seg i)))
      (post (fun s' _ => Only pg B s') (fun s' _ => Only pg B s') True) s := by
  rcases hv.seg_ok hi with ⟨size, hok⟩
  have hfin := hp.seg_fin_lt hv hi
  have hmem := mem_le_fin pg (image.seg i)
  have hfile := hok.filesz_le
  rw [copySegment_eq hv hp hi]
  apply wp_bind_post (wp_copyLoop (fun _ s' => Only pg B s') hok.file_lt (by omega) ?_ hs
    (Nat.zero_le _))
  · intro s₁ _ hs₁
    unfold clearRest
    split
    · rw [U64.sub_of_le (by omega), lift_ok_bind]
      exact wp_fillCall_still trivial (fun _ h => h) hs₁ (prot_after_zero _ _)
    · exact hs₁
  · intro done n s₁ _ _ hs₁
    refine wp_bind_post (wp_fillCall_still trivial (fun _ h => h) hs₁ fun _ => rfl) ?_
    intro s₂ data hs₂
    exact wp_fillCall_still trivial (fun _ h => h) hs₂ (prot_after_write _ _)

/-- **`fill_copied`** opens no window. -/
theorem wp_fillCopied_window (hv : image.Valid pg) (hp : Placed pg image p)
    (hB : HoldsAsked pg image p.bias B) (src : Source) (hs : Only pg B s) :
    wp (step pg w) (fillLeaves pg w (Only pg B)) (fillCopied image src pg.bytes p)
      (post (fun s' _ => Only pg B s') (fun s' _ => Only pg B s') True) s := by
  rw [fillCopied_eq hv hp]
  refine wp_bind_post (wp_fillCall_still trivial (fun _ h => h) hs fun _ => rfl) ?_
  intro s₁ _ hs₁
  apply wp_bind_post (wp_forM_leaves (fun i hi s' hs' => wp_copySegment_window hv hp hi src hs') hs₁)
  intro s₂ _ hs₂
  apply wp_bind_post (wp_forM_leaves ?_ hs₂)
  · intro s₃ _ hs₃
    refine wp_forM_leaves ?_ hs₃
    intro i hi s' hs'
    rw [protectSegment_eq hv hp hi]
    refine wp_bind_post (wp_fillCall trivial (fun _ h => h) ?_) fun _ _ h => h
    intro r s'' hr
    rw [hr.2]
    cases r with
    | error e => exact hs'
    | ok u => exact hs'.protected hp hi hB fun _ hx _ => hx
  · intro i _ s' hs'
    exact wp_fillCall_still trivial (fun _ h => h) hs' fun _ => rfl

end Fill

end ElfLoader.AddressSpace
