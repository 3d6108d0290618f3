import ElfLoader.LoadResult
import ElfLoader.MemoryImage
import ElfLoader.Tiling

/-!
# Instruction-cache maintenance

The loader writes instructions when it copies a segment or clears the tail of its
last page, and owes an `icache_sync` for each of these bytes, after the last write.
An address is *stale* from a write on until it is synchronised; at the end of a
successful load no address of an executable segment is.
-/

namespace ElfLoader.ICache

open ElfLoader Outcome Prog Elf Layout Loader

def Dirties : HostOp → Nat → Prop
  | .vm (.write a data), x => Holds (a, data.length) x
  | .vm (.zero a len), x => Holds (a, len) x
  | _, _ => False

def Syncs : HostOp → Nat → Prop
  | .vm (.icacheSync a len), x => Holds (a, len) x
  | _, _ => False

def staleAfter (S : Nat → Prop) (op : HostOp) (x : Nat) : Prop := (S x ∨ Dirties op x) ∧ ¬ Syncs op x

/-- Calls as the instruction cache sees them, whatever they answer. -/
def cacheStep : Handler Host (Nat → Prop) := fun S op _ S' => ∀ x, S' x ↔ staleAfter S op x

/-- What is stale after a run that began with `S`. -/
def staleOf (S : Nat → Prop) (tr : List (Event Host)) : Nat → Prop :=
  tr.foldl (fun S e => staleAfter S e.1) S

/-- A stale address stays stale as long as it is not synchronised. -/
theorem staleOf_of_not_synced {S : Nat → Prop} {tr : List (Event Host)} {x : Nat} (hS : S x)
    (hno : ∀ e ∈ tr, ¬ Syncs e.1 x) : staleOf S tr x := by
  induction tr generalizing S with
  | nil => exact hS
  | cons e tr ih =>
    rw [List.forall_mem_cons] at hno
    exact ih ⟨Or.inl hS, hno.1⟩ hno.2

/-- An address that is not stale at the end was synchronised after every write. -/
theorem synced_of_not_stale {S : Nat → Prop} {tr₁ tr₂ : List (Event Host)} {e : Event Host}
    {x : Nat} (hx : Dirties e.1 x) (h : ¬ staleOf S (tr₁ ++ e :: tr₂) x) :
    ∃ e' ∈ tr₂, Syncs e'.1 x := by
  by_contra hno
  push Not at hno
  have hfirst : ¬ Syncs e.1 x := by
    rcases e with ⟨op, r⟩
    cases op with
    | vm op => cases op <;> first | exact id | exact fun hs => hx
    | _ => exact id
  apply h
  rw [staleOf, List.foldl_append, List.foldl_cons]
  exact staleOf_of_not_synced ⟨Or.inr hx, hfirst⟩ hno

section Load

variable {pg : PageSize} {image : Image} {bias : Nat} {S : Nat → Prop} {X : Prop}
  {R : Nat → Nat → Prop} {left : List Nat}

/-- Stale addresses are addresses `R i` of a segment `i`, and of the executable
    segments only those in `left` have any. -/
def StaleIn (image : Image) (R : Nat → Nat → Prop) (left : List Nat) (S : Nat → Prop) : Prop :=
  ∀ x, S x → ∃ i ∈ image.loads, R i x ∧ ((image.seg i).isExec = true → i ∈ left)

/-- Nothing is stale: before the first write. -/
abbrev Clean (image : Image) : (Nat → Prop) → Prop := StaleIn image (fun _ _ => False) []

theorem Clean.staleIn (h : Clean image S) : StaleIn image R left S := by
  intro x hx
  rcases h x hx with ⟨_, _, hfalse, _⟩
  exact hfalse.elim

/-- A call that writes nothing. -/
theorem wp_idle {α : Type} {op : HostOp} {meaning : op.Res → Outcome Error α}
    (hd : ∀ x, ¬ Dirties op x) (h : StaleIn image R left S) :
    wp cacheStep (fun _ _ => True) (Prog.ask (I := Host) op meaning)
      (post (fun S' _ => StaleIn image R left S') (fun _ _ => True) True) S := by
  refine ⟨trivial, ?_⟩
  intro r S' hS'
  have hstale : StaleIn image R left S' := by
    intro x hx
    rcases (hS' x).mp hx with ⟨hold | hnew, -⟩
    · exact h x hold
    · exact absurd hnew (hd x)
  change post _ _ _ S' (meaning r)
  cases hm : meaning r with
  | ok a => exact hstale
  | err e => trivial
  | panic => trivial

/-- A call that writes addresses of one segment. -/
theorem wp_dirty {op : HostOp} {meaning : op.Res → Outcome Error Unit} {i : Nat}
    (hi : i ∈ image.loads) (hleft : i ∈ left) (hd : ∀ x, Dirties op x → R i x)
    (h : StaleIn image R left S) :
    wp cacheStep (fun _ _ => True) (Prog.ask (I := Host) op meaning)
      (post (fun S' _ => StaleIn image R left S') (fun _ _ => True) True) S := by
  refine ⟨trivial, ?_⟩
  intro r S' hS'
  have hstale : StaleIn image R left S' := by
    intro x hx
    rcases (hS' x).mp hx with ⟨hold | hnew, -⟩
    · exact h x hold
    · exact ⟨i, hi, hd x hnew, fun _ => hleft⟩
  change post _ _ _ S' (meaning r)
  cases hm : meaning r with
  | ok a => exact hstale
  | err e => trivial
  | panic => trivial

/-- After its addresses were synchronised a segment has no stale ones. -/
theorem wp_sync {i a len : Nat} (hcover : ∀ x, R i x → Holds (a, len) x)
    (h : StaleIn image R (i :: left) S) :
    wp cacheStep (fun _ _ => True) (Vm.icacheSync a len : Prog Host Error Unit)
      (post (fun S' _ => StaleIn image R left S') (fun _ _ => True) True) S := by
  refine ⟨trivial, ?_⟩
  intro _ S' hS' x hx
  rcases (hS' x).mp hx with ⟨hold, hnot⟩
  rcases h x (hold.resolve_right id) with ⟨j, hj, hR, hleft⟩
  refine ⟨j, hj, hR, fun hexec => ?_⟩
  rcases List.mem_cons.mp (hleft hexec) with rfl | hmem
  · exact absurd (hcover x hR) hnot
  · exact hmem

theorem wp_forM_idle {body : Nat → Prog Host Error PUnit} {xs : List Nat}
    (hbody : ∀ i ∈ xs, ∀ S, StaleIn image R left S →
      wp cacheStep (fun _ _ => True) (body i)
        (post (fun S' _ => StaleIn image R left S') (fun _ _ => True) True) S)
    (h : StaleIn image R left S) :
    wp cacheStep (fun _ _ => True) (xs.forM body)
      (post (fun S' _ => StaleIn image R left S') (fun _ _ => True) True) S := by
  refine wp_post_mono (wp_forM (fun rest S => StaleIn image R left S ∧ ∀ i ∈ rest, i ∈ xs)
    ⟨h, fun _ hi => hi⟩ ?_) (fun _ _ h => h.1) (fun _ _ h => h)
  intro i rest S hS
  have hmem := List.forall_mem_cons.mp hS.2
  exact wp_post_mono (hbody i hmem.1 S hS.1) (fun _ _ h => ⟨h, hmem.2⟩) (fun _ _ h => h)

/-! ### The mmap path -/

def InTail (pg : PageSize) (image : Image) (bias i x : Nat) : Prop :=
  HasTail pg bias (image.seg i) ∧
    (image.seg i).pVaddr + bias + (image.seg i).pFilesz ≤ x ∧ x < fileFin pg (image.seg i) + bias

theorem wp_fillMappedSegment {p : LoadPlan} (hv : image.Valid pg) (hp : Placed pg image p)
    (fd : Int) {i : Nat} (hi : i ∈ image.loads)
    (h : StaleIn image (InTail pg image p.bias) image.loads S) :
    wp cacheStep (fun _ _ => True) (fillMappedSegment image fd (segOf pg p.bias i (image.seg i)))
      (post (fun S' _ => StaleIn image (InTail pg image p.bias) image.loads S')
        (fun _ _ => True) True) S := by
  rw [fillMappedSegment_eq hv hp hi, mapFilePart_segOf, clearTail_segOf, mapAnonPart_segOf,
    closeWriteWindow_eq hv hp hi]
  refine wp_bind_post (P := fun S _ => StaleIn image (InTail pg image p.bias) image.loads S) ?_ ?_
  · split
    · exact wp_bind_post (wp_idle (fun _ => id) h) fun _ _ h => h
    · exact h
  intro S _ h
  refine wp_bind_post (P := fun S _ => StaleIn image (InTail pg image p.bias) image.loads S) ?_ ?_
  · split
    · rename_i htail
      refine wp_dirty hi hi ?_ h
      intro x hx
      have hlt := htail.2
      simp only [Dirties, Holds] at hx
      exact ⟨htail, hx.1, by omega⟩
    · exact h
  intro S _ h
  refine wp_bind_post (P := fun S _ => StaleIn image (InTail pg image p.bias) image.loads S) ?_ ?_
  · split
    · exact wp_bind_post (wp_idle (fun _ => id) h) fun _ _ h => h
    · exact h
  intro S _ h
  split
  · refine wp_bind_post (wp_idle (fun _ => id) h) ?_
    intro S r h
    cases r with
    | ok u => exact h
    | error e => trivial
  · exact h

theorem wp_fillMapped {p : LoadPlan} (hv : image.Valid pg) (hp : Placed pg image p) (fd : Int)
    (h : Clean image S) :
    wp cacheStep (fun _ _ => True) (fillMapped image fd p)
      (post (fun S' _ => StaleIn image (InTail pg image p.bias) [] S') (fun _ _ => True) True)
      S := by
  rw [fillMapped_eq hp]
  refine wp_bind_post (wp_forM_idle (fun i hi S h => wp_fillMappedSegment hv hp fd hi h)
    h.staleIn) ?_
  intro S _ h
  refine wp_post_mono (wp_forM (fun left S => StaleIn image (InTail pg image p.bias) left S ∧
    ∀ i ∈ left, i ∈ image.loads) ⟨h, fun _ hi => hi⟩ ?_) (fun _ _ h => h.1) (fun _ _ h => h)
  intro i left S hS
  rcases hS with ⟨h, hmem⟩
  rw [List.forall_mem_cons] at hmem
  rw [syncMappedSegment_eq hv hmem.1]
  split
  · rename_i hcond
    refine wp_post_mono (wp_sync ?_ h) (fun _ _ h => ⟨h, hmem.2⟩) (fun _ _ h => h)
    intro x hx
    have hlt := hcond.2.2
    exact ⟨hx.2.1, by have := hx.2.2; dsimp only; omega⟩
  · rename_i hcond
    refine ⟨?_, hmem.2⟩
    -- nothing of this segment can be stale: it is not executable, or has no tail
    intro x hx
    rcases h x hx with ⟨j, hj, htail, hleft⟩
    refine ⟨j, hj, htail, fun hexec => ?_⟩
    rcases List.mem_cons.mp (hleft hexec) with rfl | hin
    · exact absurd ⟨hexec, htail.1⟩ hcond
    · exact hin

/-! ### The copy path -/

def InPages (pg : PageSize) (image : Image) (bias i x : Nat) : Prop :=
  (image.seg i).start pg + bias ≤ x ∧ x < (image.seg i).fin pg + bias

theorem wp_copySegment {p : LoadPlan} (hv : image.Valid pg) (hp : Placed pg image p) (src : Source)
    {i : Nat} (hi : i ∈ image.loads)
    (h : StaleIn image (InPages pg image p.bias) image.loads S) :
    wp cacheStep (fun _ _ => True)
      (copySegment image src pg.bytes p (segOf pg p.bias i (image.seg i)))
      (post (fun S' _ => StaleIn image (InPages pg image p.bias) image.loads S')
        (fun _ _ => True) True) S := by
  rcases hv.seg_ok hi with ⟨size, hok⟩
  have hfin := hp.seg_fin_lt hv hi
  have hmem := mem_le_fin pg (image.seg i)
  have hfile := hok.filesz_le
  have hstart : (image.seg i).start pg ≤ (image.seg i).pVaddr := roundDown_le _ _
  rw [copySegment_eq hv hp hi]
  refine wp_bind_post (wp_copyLoop
    (fun _ S => StaleIn image (InPages pg image p.bias) image.loads S) hok.file_lt (by omega) ?_ h
    (Nat.zero_le _)) ?_
  · intro done n S _ hle h
    refine wp_bind_post (wp_idle (fun _ => id) h) ?_
    intro S data h
    refine wp_dirty hi hi ?_ h
    intro x hx
    simp only [Dirties, Holds, data.property] at hx
    unfold InPages
    omega
  intro S _ h
  unfold clearRest
  split
  · rw [U64.sub_of_le (by omega), lift_ok_bind]
    refine wp_dirty hi hi ?_ h
    intro x hx
    simp only [Dirties, Holds] at hx
    unfold InPages
    omega
  · exact h

theorem wp_fillCopied {p : LoadPlan} (hv : image.Valid pg) (hp : Placed pg image p) (src : Source)
    (h : Clean image S) :
    wp cacheStep (fun _ _ => True) (fillCopied image src pg.bytes p)
      (post (fun S' _ => StaleIn image (InPages pg image p.bias) [] S') (fun _ _ => True) True)
      S := by
  rw [fillCopied_eq hv hp]
  refine wp_bind_post (wp_idle (fun _ => id) h) ?_
  intro S _ h
  refine wp_bind_post (wp_forM_idle (fun i hi S h => wp_copySegment hv hp src hi h)
    (Clean.staleIn h)) ?_
  intro S _ h
  refine wp_bind_post (wp_forM (fun left S => StaleIn image (InPages pg image p.bias) left S) ?_ ?_) ?_
  · intro x hx
    rcases h x hx with ⟨i, hi, hR, -⟩
    exact ⟨i, hi, hR, fun hexec => List.mem_filter.mpr ⟨hi, hexec⟩⟩
  · intro i left S h
    refine wp_sync ?_ h
    intro x hx
    unfold InPages at hx
    rw [pagesOf, if_pos (by omega)]
    exact ⟨hx.1, by dsimp only; omega⟩
  intro S _ h
  refine wp_forM_idle ?_ h
  intro i hi S h
  rw [protectSegment_eq hv hp hi]
  exact wp_bind_post (wp_idle (fun _ => id) h) fun _ _ h => h

/-! ### Whole loads -/

theorem wp_reserveMapped (hv : image.Valid pg) (hspan : SpanFits pg image) (h : Clean image S) :
    wp cacheStep (fun _ _ => True)
      (reserveMapped image pg.bytes (image.lo pg) (needOf pg image))
      (post (fun S' _ => Clean image S') (fun _ _ => True) True) S := by
  rw [reserveMapped_eq hv hspan]
  split
  · exact wp_bind_post (wp_idle (fun _ => id) h) fun _ _ h => h
  · apply wp_bind_post (wp_idle (fun _ => id) h)
    intro S got h
    split
    · exact wp_bind_post (wp_idle (fun _ => id) h) fun _ _ _ => trivial
    · exact h

/-- Every plan has the segments of one that is placed, though its reservation may be
    too small: the address it starts from need not be a page boundary. -/
def Planned (pg : PageSize) (image : Image) (p : LoadPlan) : Prop :=
  ∃ p', Placed pg image p' ∧ p'.bias = p.bias ∧ p'.segments = p.segments

theorem planned_of_plan (hv : image.Valid pg) {reserved : Bool} {pl : Placement} {p : LoadPlan}
    (h : plan reserved image pg.bytes pl = ok p) : Planned pg image p := by
  rcases plan_ok_inv hv h with ⟨hhi, -, hfits, hend, hp⟩
  have hlt := fin_lt_of_planFor hv hhi hfits hend hp
  have hlo := hv.lo_le_hi
  have hdvd : pg.bytes ∣ p.bias := by
    rw [hp]
    cases pl with
    | fixed => exact Nat.dvd_zero _
    | «at» raw => exact dvd_biasAt hv raw
  refine ⟨planOf pg image p.bias (image.lo pg + p.bias) (image.hi pg - image.lo pg), ?_, rfl, ?_⟩
  · constructor
    · rfl
    · exact hdvd
    · exact hlt
    · exact le_rfl
    · simp only [planOf]
      omega
  · rw [hp]
    cases pl with
    | fixed => rfl
    | «at» raw => rfl

theorem wp_makePlan (hv : image.Valid pg) (pl : Placement) (h : Clean image S) :
    wp cacheStep (fun _ _ => True) (makePlan image pg.bytes pl)
      (post (fun S' p => Clean image S' ∧ Planned pg image p) (fun _ _ => True) True) S := by
  apply wp_bind_post (wp_idle (fun _ => id) h)
  intro S reserved h
  apply wp_lift_post
  · exact fun p hplan => ⟨h, planned_of_plan hv hplan⟩
  · exact fun _ _ => trivial
  · exact fun _ => trivial

theorem wp_fillOrUnload {l : Loaded} {fill : Prog Host Error Unit} {P : (Nat → Prop) → Prop}
    (h : wp cacheStep (fun _ _ => True) fill (post (fun S _ => P S) (fun _ _ => True) True) S) :
    wp cacheStep (fun _ _ => True) (fillOrUnload l fill)
      (post (fun S l' => l' = l ∧ P S) (fun _ _ => True) True) S := by
  apply wp_attempt_post h
  · exact fun S _ hP => ⟨rfl, hP⟩
  · intro S e _
    have hunload : wp cacheStep (fun _ _ => True) (l.unload : Prog Host Error Unit)
        (post (fun _ _ => True) (fun _ _ => True) True) S := by
      unfold Loaded.unload
      split
      · exact ⟨trivial, fun _ _ _ => trivial⟩
      · exact ⟨trivial, fun _ _ _ => trivial⟩
    exact wp_bind_post hunload fun _ _ _ => trivial

/-- At the end of a load the pages of executable segments are not stale. -/
structure Settled (pg : PageSize) (image : Image) (bias : Nat) (S : Nat → Prop) : Prop where
  dvd_bias : pg.bytes ∣ bias
  stale : StaleIn image (InPages pg image bias) [] S

theorem InTail.inPages (hv : image.Valid pg) {i x : Nat} (hi : i ∈ image.loads)
    (h : InTail pg image bias i x) : InPages pg image bias i x := by
  rcases hv.seg_ok hi with ⟨size, hok⟩
  have hle := fileFin_le_fin hok
  have hstart : (image.seg i).start pg ≤ (image.seg i).pVaddr := roundDown_le _ _
  rcases h with ⟨-, hlo, hhi⟩
  constructor
  · omega
  · omega

theorem wp_loadMapped (hv : image.Valid pg) (fd : Int) (h : Clean image S) :
    wp cacheStep (fun _ _ => True) (loadMapped image fd pg.bytes)
      (post (fun S' l => Settled pg image l.plan.bias S') (fun _ _ => True) True) S := by
  rw [loadMapped_eq hv]
  split
  swap
  · trivial
  rename_i hspan
  apply wp_bind_post (wp_reserveMapped hv hspan h)
  intro S pl h
  apply wp_bind_post (wp_makePlan hv pl h)
  intro S p hplan
  rcases hplan with ⟨h, p', hp', hbias, hsegs⟩
  have hfill : fillMapped image fd p = fillMapped image fd p' := by rw [fillMapped, fillMapped, hsegs]
  rw [hfill]
  apply wp_post_mono (wp_fillOrUnload (wp_fillMapped hv hp' fd h)) _ (fun _ _ h => h)
  intro S l hl
  rcases hl with ⟨rfl, hstale⟩
  rw [← hbias]
  constructor
  · exact hp'.dvd_bias
  · intro x hx
    rcases hstale x hx with ⟨i, hi, htail, hexec⟩
    exact ⟨i, hi, htail.inPages hv hi, hexec⟩

theorem wp_loadCopied (hv : image.Valid pg) (src : Source) (h : Clean image S) :
    wp cacheStep (fun _ _ => True) (loadCopied image src pg.bytes)
      (post (fun S' l => Settled pg image l.plan.bias S') (fun _ _ => True) True) S := by
  rw [loadCopied_eq hv]
  split
  · trivial
  split
  swap
  · trivial
  apply wp_bind_post (wp_idle (fun _ => id) h)
  intro S raw h
  apply wp_bind_post (wp_makePlan hv (.at raw) h)
  intro S p hplan
  rcases hplan with ⟨h, p', hp', hbias, hsegs⟩
  have hfill : fillCopied image src pg.bytes p = fillCopied image src pg.bytes p' := by
    have hcopy : copySegment image src pg.bytes p = copySegment image src pg.bytes p' := by
      funext seg
      rw [copySegment, copySegment, hbias]
    rw [fillCopied, fillCopied, LoadPlan.execRanges, LoadPlan.execRanges, hsegs, hcopy]
  rw [hfill]
  apply wp_post_mono (wp_fillOrUnload (wp_fillCopied hv hp' src h)) _ (fun _ _ h => h)
  intro S l hl
  rcases hl with ⟨rfl, hstale⟩
  rw [← hbias]
  exact ⟨hp'.dvd_bias, hstale⟩

theorem wp_load {b : Build} (hv : image.Valid b.page) (src : Source) (fd : Option Int)
    (h : Clean image S) :
    wp cacheStep (fun _ _ => True) (load b image src fd)
      (post (fun S' l => Settled b.page image l.plan.bias S') (fun _ _ => True) True) S := by
  by_cases hmap : AddressSpace.Mapped b fd
  · rcases Option.isSome_iff_exists.mp hmap.2 with ⟨fd', rfl⟩
    rw [AddressSpace.load_of_mapped hmap]
    exact wp_loadMapped hv fd' h
  · rw [AddressSpace.load_of_not_mapped hmap]
    exact wp_loadCopied hv src h

end Load

/-- The pages of an executable segment of the image, moved by `bias`. -/
def InText (pg : PageSize) (image : Image) (bias x : Nat) : Prop :=
  ∃ ph ∈ image.phdrs, ph.pType = PT_LOAD ∧ ph.isExec = true ∧
    roundDown pg.bytes (ph.pVaddr + bias) ≤ x ∧ x < roundUp pg.bytes (ph.pVaddr + bias + ph.pMemsz)

/-- Pages of two segments do not meet. -/
theorem InPages.unique {pg : PageSize} {image : Image} {bias i j x : Nat} (hv : image.Valid pg)
    (hi : i ∈ image.loads) (hj : j ∈ image.loads) (hxi : InPages pg image bias i x)
    (hxj : InPages pg image bias j x) : i = j := by
  have hapart : ∀ {i j}, (image.seg i).fin pg ≤ (image.seg j).start pg →
      InPages pg image bias i x → ¬ InPages pg image bias j x := by
    intro i j hle hi hj
    have hhi := hi.2
    have hlo := hj.1
    omega
  have hone := List.Pairwise.forall_of_forall_of_flip
    (R := fun i j => InPages pg image bias i x → InPages pg image bias j x → i = j)
    (l := image.loads) (fun _ _ _ _ => rfl)
    (hv.pairwise.imp fun hle hi hj => absurd hj (hapart hle hi))
    (hv.pairwise.imp fun hle hj hi => absurd hj (hapart hle hi))
  exact hone hi hj hxi hxj

/-- **Every instruction byte the loader writes is synchronised.**  In a run of a load
    that succeeds, on either path and whatever the system answers, a byte of an
    executable segment that was written or cleared is synchronised later on. -/
theorem instructions_synced {σ : Type} {H : Handler Host σ} {arch : Arch} {b : Build}
    {image : Image} {src : Source} {fd : Option Int} {s s' : σ} {tr : List (Event Host)}
    {l : Loaded} (himage : Accepted arch b.page image)
    (hrun : Reaches H s (load b image src fd) tr s' (.done (ok l)))
    {tr₁ tr₂ : List (Event Host)} {e : Event Host} {x : Nat} (htr : tr = tr₁ ++ e :: tr₂)
    (hwrite : Dirties e.1 x) (htext : InText b.page image l.plan.bias x) :
    ∃ e' ∈ tr₂, Syncs e'.1 x := by
  have hv := himage.valid
  have hghost := hrun.noted (G := cacheStep) (fun S op _ => staleAfter S op)
    (fun _ _ _ _ _ _ _ => Iff.rfl) fun _ => False
  have hsettled : Settled b.page image l.plan.bias (staleOf (fun _ => False) tr) :=
    wp_reaches (wp_load hv src fd fun _ hx => hx.elim) hghost
  apply synced_of_not_stale (S := fun _ => False) hwrite
  rw [← htr]
  intro hstale
  rcases hsettled.stale x hstale with ⟨i, hi, hxi, hexec⟩
  rcases htext with ⟨ph, hph, htype, hx, hlo, hhi⟩
  rcases hv.exists_seg hph htype with ⟨j, hj, rfl⟩
  rw [roundDown_add hsettled.dvd_bias] at hlo
  rw [roundUp_fin hsettled.dvd_bias] at hhi
  have heq : i = j := InPages.unique hv hi hj hxi ⟨hlo, hhi⟩
  subst heq
  exact absurd (hexec hx) List.not_mem_nil

open AddressSpace in
/-- The copied instructions of the small program are synchronised after the copy. -/
theorem small_instructions_synced : ∃ e ∈ (smallRun false).1.drop 5, Syncs e.1 0x100100 := by
  have hlen : 4 < (smallRun false).1.length := by decide +kernel
  have hop : ((smallRun false).1[4]?).map (fun e => e.1) =
      some (.vm (.write 0x100100 [0x90, 0x90, 0xc3])) := by decide +kernel
  rw [List.getElem?_eq_getElem hlen, Option.map_some, Option.some_inj] at hop
  have hrun : Reaches (step page4K (oneFile (smallElf 0x1100))) emptySpace
      (load ⟨.x86_64, page4K, false⟩ (smallImage 0x1100) ⟨0, none⟩ (some 3)) (smallRun false).1
      (smallRun false).2.1 (.done (ok (smallLoaded false))) := smallRun_reaches false
  have hsplit : (smallRun false).1 =
      (smallRun false).1.take 4 ++ (smallRun false).1[4] :: (smallRun false).1.drop 5 := by
    rw [List.getElem_cons_drop, List.take_append_drop]
  apply instructions_synced (b := ⟨.x86_64, page4K, false⟩) (accepted_of_parseSlice parse_smallElf)
    hrun hsplit
  · rw [hop]
    exact ⟨le_rfl, by decide⟩
  · rw [smallLoaded_bias.2]
    exact ⟨smallPhdrs[0], by decide +kernel, rfl, by decide +kernel, by decide +kernel,
      by decide +kernel⟩

end ElfLoader.ICache
