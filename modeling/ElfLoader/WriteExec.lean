import ElfLoader.ProgramImage
import ElfLoader.WriteWindow

/-!
# Pages that can be written and executed

The pages with both rights through a whole `load_program`, call by call.  Apart from pages
that had both rights before, and pages of segments whose headers ask for both, there are
only those of one write window at a time, and none once a program has been returned.
-/

namespace ElfLoader.AddressSpace

open ElfLoader Outcome Prog Elf Layout Loader Program

/-- The bias of an image whose reservation was granted at `addr`. -/
def biasFor (pg : PageSize) (image : Image) (addr : Nat) : Nat :=
  (planFor pg image (placementAt image addr)).bias

/-- A header with both flags claims the address, in an image that has been planned. -/
def Asked (b : Build) (w : World) (n : Notes) (x : Nat) : Prop :=
  ∃ pn ∈ n.plans, ∃ image ph, ImageIn b w pn.file image ∧
    Claims b.page image (biasFor b.page image pn.addr) x ph ∧ ph.isWrite = true ∧ ph.isExec = true

/-- The address is in the window of a segment of the image that was planned last, and that
    one is mapped from its file. -/
def WindowOf (b : Build) (w : World) (n : Notes) (ph : Phdr) (x : Nat) : Prop :=
  ∃ pn image, n.plans.head? = some pn ∧ Mapped b pn.file.fd ∧ ImageIn b w pn.file image ∧
    ph ∈ image.phdrs ∧ ph.pType = PT_LOAD ∧
    InWindow b.page (biasFor b.page image pn.addr) ph x

/-- Every address that can be written and executed could be before, or a header asks for it,
    or it is in the window. -/
def Accounted (b : Build) (w : World) (s₀ : Space) (window : Option Phdr) (s : Space × Notes) :
    Prop :=
  Only b.page (fun x => s₀.WriteExec b.page x ∨ Asked b w s.2 x ∨
    ∃ ph ∈ window, WindowOf b w s.2 ph x) s.1

/-- At most one window is open. -/
def Guarded (b : Build) (w : World) (s₀ : Space) (s : Space × Notes) : Prop :=
  ∃ window, Accounted b w s₀ window s

/-- … and none, unless what was mapped could not be unmapped. -/
def Abandoned (b : Build) (w : World) (s₀ : Space) (s : Space × Notes) : Prop :=
  ∃ window, Accounted b w s₀ window s ∧ (w.unmaps = true → window = none)

section Load

variable {b : Build} {w : World} {s₀ s : Space} {n : Notes} {image : Image} {o : Opened}

abbrev guards (b : Build) (w : World) (s₀ : Space) : Space × Notes → HostOp → Prop :=
  upholds (noted b.page w) (Guarded b w s₀)

theorem Accounted.explained {window : Option Phdr} {x : Nat} (h : Accounted b w s₀ window (s, n))
    (hx : s.WriteExec b.page x) :
    s₀.WriteExec b.page x ∨ Asked b w n x ∨ ∃ ph ∈ window, WindowOf b w n ph x :=
  h x hx

theorem Asked.mono {n' : Notes} {x : Nat} (h : Asked b w n x) (hsub : n.plans ⊆ n'.plans) :
    Asked b w n' x := by
  rcases h with ⟨pn, hpn, hask⟩
  exact ⟨pn, hsub hpn, hask⟩

/-- What is accounted for stays so when protections are kept and plans added. -/
theorem Accounted.later {t t' : Space × Notes} (h : Accounted b w s₀ none t)
    (hprot : t'.1.prot = t.1.prot) (hplans : t.2.plans ⊆ t'.2.plans) :
    Accounted b w s₀ none t' := by
  refine (h.of_prot hprot).mono ?_
  intro x hx
  rcases hx with hold | hasked | ⟨ph, hph, -⟩
  · exact Or.inl hold
  · exact Or.inr (Or.inl (hasked.mono hplans))
  · cases hph

theorem Accounted.guarded {window : Option Phdr} {t : Space × Notes}
    (h : Accounted b w s₀ window t) : Guarded b w s₀ t := ⟨window, h⟩

theorem Accounted.abandoned {t : Space × Notes} (h : Accounted b w s₀ none t) :
    Abandoned b w s₀ t := ⟨none, h, fun _ => rfl⟩

theorem Abandoned.guarded {t : Space × Notes} (h : Abandoned b w s₀ t) : Guarded b w s₀ t := by
  rcases h with ⟨window, hacc, -⟩
  exact ⟨window, hacc⟩

theorem plans_subset_asked (n : Notes) (room : Bool) : n.plans ⊆ (n.asked room).plans := by
  unfold Notes.asked
  split
  · exact List.subset_cons_self _ _
  · exact fun _ h => h

/-- The calls of the parser change nothing. -/
theorem reads_guarded (hn : n.granted = none) (hs : Accounted b w s₀ none (s, n)) (src : Source) :
    Reads (noted b.page w) (guards b w s₀) src (· = (s, n)) (FileRead w src) := by
  have hreads : Reads (noted b.page w) (notedPre b.page 0) src (· = (s, n)) (FileRead w src) :=
    reads_noted hn src
  refine ⟨?_, hreads.read⟩
  intro t op ht hquiet
  have hkeep := (hreads.keep t op ht hquiet).2
  refine ⟨?_, hkeep⟩
  intro r t' hop
  rw [hkeep r t' hop]
  exact hs.guarded

theorem wp_openPath_window (hs : Accounted b w s₀ none (s, n)) (path : Bytes) :
    wp (noted b.page w) (guards b w s₀) (openPath path)
      (post (fun t o => t = (s, n.tried (some o)) ∧ Accounted b w s₀ none t)
        (fun t _ => Abandoned b w s₀ t) True) (s, n) := by
  have hafter {r : Except Error Opened} {t : Space × Notes}
      (hop : noted b.page w (s, n) (.openPath path) r t) :
      t.1 = s ∧ Accounted b w s₀ none t := by
    have hplans : t.2.plans = n.plans := by
      rw [hop.2]
      cases r with
      | error e => rfl
      | ok o => rfl
    have hspace : t.1 = s := hop.1.2
    refine ⟨hspace, hs.later (by rw [hspace]) ?_⟩
    rw [hplans]
    exact fun _ h => h
  apply wp_ask_upholds
  intro r t hop
  refine ⟨(hafter hop).2.guarded, ?_⟩
  cases r with
  | error e => exact (hafter hop).2.abandoned
  | ok o => exact ⟨Prod.ext (hafter hop).1 hop.2, (hafter hop).2⟩

theorem not_bothRights_none : ¬ BothRights PROT_NONE := by
  unfold BothRights
  decide

/-- Taking a reservation gives no rights at all. -/
theorem wp_reserveMapped_window (hv : image.Valid b.page) (hspan : SpanFits b.page image)
    (hs : Accounted b w s₀ none (s, n)) :
    wp (noted b.page w) (guards b w s₀)
      (reserveMapped image b.page.bytes (image.lo b.page) (needOf b.page image))
      (fun t _ => Accounted b w s₀ none t) (s, n) := by
  have hmapped {a len : Nat} {fill : Nat → UInt8} {n' : Notes} (ha : b.page.bytes ∣ a)
      (hlen : b.page.bytes ∣ len) (hplans : n'.plans = n.plans) :
      Accounted b w s₀ none (s.mapIn b.page a len PROT_NONE fill, n') := by
    have hnew : Accounted b w s₀ none (s.mapIn b.page a len PROT_NONE fill, n) :=
      Only.mapIn hs ha hlen fun hboth => absurd hboth not_bothRights_none
    refine hnew.later rfl ?_
    rw [hplans]
    exact fun _ h => h
  have hdyn : b.page.bytes ∣ needOf b.page image := dvd_needOf hv
  have hlink : b.page.bytes ∣ image.hi b.page - image.lo b.page := Nat.dvd_sub hv.dvd_hi hv.dvd_lo
  rw [reserveMapped_eq hv hspan]
  split
  · refine wp_bind_kept (wp_ask_upholds ?_) fun _ _ h => h
    intro r t hop
    rcases t with ⟨t, n'⟩
    have hacc : Accounted b w s₀ none (t, n') := by
      rcases hop with ⟨⟨hans, rfl⟩, rfl⟩
      cases r with
      | error e => exact hs
      | ok raw => exact hmapped hans.1 hdyn rfl
    exact ⟨hacc.guarded, hacc⟩
  · refine wp_bind_kept (wp_ask_upholds ?_) ?_
    · intro r t hop
      rcases t with ⟨t, n'⟩
      have hacc : Accounted b w s₀ none (t, n') := by
        rcases hop with ⟨⟨hans, rfl⟩, rfl⟩
        cases r with
        | error e => exact hs
        | ok raw => exact hmapped hans.1 hlink rfl
      exact ⟨hacc.guarded, hacc⟩
    · intro t got hacc
      split
      · refine wp_bind_kept (wp_ask_upholds ?_) fun _ _ h => h
        intro r t' hop
        have hacc' : Accounted b w s₀ none t' := by
          rcases t' with ⟨t', n'⟩
          rcases hop with ⟨⟨-, rfl⟩, rfl⟩
          cases r with
          | error e => exact hacc
          | ok u => exact Only.less hacc
        exact ⟨hacc'.guarded, hacc'⟩
      · exact hacc

theorem wp_makePlan_window (placement : Placement) {t : Space × Notes}
    (hs : Accounted b w s₀ none t) :
    wp (noted b.page w) (guards b w s₀) (makePlan image b.page.bytes placement)
      (fun t _ => Accounted b w s₀ none t) t := by
  refine wp_bind_kept (wp_ask_upholds ?_) fun _ _ h => h
  intro room t' hop
  have hacc : Accounted b w s₀ none t' := by
    refine hs.later (by rw [hop.1.2]; rfl) ?_
    rw [hop.2]
    exact plans_subset_asked t.2 room
  exact ⟨hacc.guarded, hacc⟩

/-- Releasing an image gives no rights. -/
theorem wp_unload_window {t : Space × Notes} (l : Loaded) (h : Abandoned b w s₀ t) :
    wp (noted b.page w) (guards b w s₀) (l.unload : Prog Host Error Unit)
      (fun t _ => Abandoned b w s₀ t) t := by
  rcases h with ⟨window, hacc, hnone⟩
  unfold Loaded.unload
  split
  · apply wp_ask_upholds
    intro r t' hop
    rcases t' with ⟨t', n'⟩
    rcases hop with ⟨⟨-, rfl⟩, rfl⟩
    have hacc' : Abandoned b w s₀ (_, t.2) := ⟨window, hacc.of_prot rfl, hnone⟩
    exact ⟨hacc'.guarded, hacc'⟩
  · refine wp_bind_kept (wp_ask_upholds ?_) fun _ _ h => h
    intro r t' hop
    have hacc' : Abandoned b w s₀ t' := by
      rcases t' with ⟨t', n'⟩
      rcases hop with ⟨⟨-, rfl⟩, rfl⟩
      cases r with
      | error e => exact ⟨window, hacc, hnone⟩
      | ok u => exact ⟨window, Only.less hacc, hnone⟩
    exact ⟨hacc'.guarded, hacc'⟩

theorem wp_fillOrUnload_window {t : Space × Notes} {l : Loaded} {fill : Prog Host Error Unit}
    {E : Space × Notes → Prop}
    (hfill : wp (noted b.page w) (guards b w s₀) fill
      (post (fun t _ => Accounted b w s₀ none t) (fun t _ => E t) True) t)
    (hundo : ∀ t, E t → wp (noted b.page w) (guards b w s₀) (l.unload : Prog Host Error Unit)
      (fun t _ => Abandoned b w s₀ t) t) :
    wp (noted b.page w) (guards b w s₀) (fillOrUnload l fill)
      (post (fun t _ => Accounted b w s₀ none t) (fun t _ => Abandoned b w s₀ t) True) t := by
  apply wp_attempt_post hfill
  · exact fun t _ h => h
  · intro t e h
    apply wp_seq (hundo t h)
    intro t' r hr
    cases r with
    | ok u => exact hr
    | err e' => exact hr
    | panic => trivial

theorem holdsAsked_made (himage : ImageIn b w o image) (raw : Nat) (room : Bool) :
    HoldsAsked b.page image (biasFor b.page image raw)
      fun x => s₀.WriteExec b.page x ∨ Asked b w (n.made ⟨o, raw, room⟩) x := by
  intro i hi hboth x hx
  have hseg := himage.valid.seg_mem hi
  have hflags := bothRights_protOf.mp hboth
  exact Or.inr ⟨_, List.mem_cons_self, image, image.seg i, himage, ⟨hseg.1, hseg.2, hx⟩,
    hflags.1, hflags.2⟩

/-- The window of a segment of the image that is being filled. -/
theorem Windowed.guarded {raw : Nat} {room : Bool} (himage : ImageIn b w o image)
    (hmap : Mapped b o.fd) (h : Windowed b.page image (biasFor b.page image raw)
      (fun x => s₀.WriteExec b.page x ∨ Asked b w (n.made ⟨o, raw, room⟩) x) s) :
    Guarded b w s₀ (s, n.made ⟨o, raw, room⟩) := by
  rcases h with ⟨window, hin, honly⟩
  refine ⟨window.map image.seg, honly.mono ?_⟩
  intro x hx
  rcases hx with (hold | hasked) | ⟨i, hi, hwin⟩
  · exact Or.inl hold
  · exact Or.inr (Or.inl hasked)
  · have hseg := himage.valid.seg_mem (hin i hi)
    exact Or.inr (Or.inr ⟨image.seg i, Option.mem_map_of_mem _ hi, ⟨o, raw, room⟩, image, rfl, hmap,
      himage, hseg.1, hseg.2, hwin⟩)

/-- The whole of what was reserved is unmapped, and a window in it closed. -/
theorem wp_unload_windowed {raw : Nat} {room : Bool} {p : LoadPlan} (himage : ImageIn b w o image)
    (hmap : Mapped b o.fd) (hp : Placed b.page image p) (hbias : p.bias = biasFor b.page image raw)
    (hdvd : b.page.bytes ∣ p.reserveAddr ∧ b.page.bytes ∣ p.reserveLen)
    (h : Windowed b.page image (biasFor b.page image raw)
      (fun x => s₀.WriteExec b.page x ∨ Asked b w (n.made ⟨o, raw, room⟩) x) s) :
    wp (noted b.page w) (guards b w s₀) ((⟨p, false⟩ : Loaded).unload : Prog Host Error Unit)
      (fun t _ => Abandoned b w s₀ t) (s, n.made ⟨o, raw, room⟩) := by
  have hguarded := h.guarded himage hmap
  refine wp_bind_kept (wp_ask_upholds ?_) fun _ _ h => h
  intro r t hop
  have habandoned : Abandoned b w s₀ t := by
    rcases t with ⟨t, n'⟩
    rcases hop with ⟨⟨hans, rfl⟩, rfl⟩
    cases r with
    | error e =>
      rcases hguarded with ⟨window, hacc⟩
      exact ⟨window, hacc, fun hw => absurd (hans.symm.trans hw) (by simp)⟩
    | ok u =>
      refine Accounted.abandoned ?_
      rcases h with ⟨window, hin, honly⟩
      refine honly.unmapped hdvd.1 hdvd.2 ?_
      intro x hx hout
      rcases hx with (hold | hasked) | ⟨i, hi, hwin⟩
      · exact Or.inl hold
      · exact Or.inr (Or.inl hasked)
      · have hseg := hwin.segPages himage.valid (hin i hi)
        have hinside := hp.seg_inside himage.valid (hin i hi)
        rw [hbias] at hinside
        exact absurd ⟨hinside.1.trans hseg.1, lt_of_lt_of_le hseg.2 hinside.2⟩ hout
  exact ⟨habandoned.guarded, habandoned⟩

/-- What is accounted for without a window. -/
theorem Accounted.only {t : Space × Notes} (h : Accounted b w s₀ none t) :
    Only b.page (fun x => s₀.WriteExec b.page x ∨ Asked b w t.2 x) t.1 := by
  refine h.mono ?_
  intro x hx
  rcases hx with hold | hasked | ⟨ph, hph, -⟩
  · exact Or.inl hold
  · exact Or.inr hasked
  · cases hph

theorem Only.accounted {t : Space × Notes}
    (h : Only b.page (fun x => s₀.WriteExec b.page x ∨ Asked b w t.2 x) t.1) :
    Accounted b w s₀ none t := by
  refine h.mono ?_
  intro x hx
  exact hx.imp_right Or.inl

/-- Filling leaves no notes, and what it leaves in the address space is accounted for. -/
theorem wp_filled {fill : Prog Host Error Unit} {K : Space → Prop} (hn : n.granted = none)
    (hK : ∀ s', K s' → Guarded b w s₀ (s', n))
    (hfill : wp (step b.page w) (fillLeaves b.page w K) fill
      (post (fun s' _ => Only b.page (fun x => s₀.WriteExec b.page x ∨ Asked b w n x) s')
        (fun s' _ => K s') True) s) :
    wp (noted b.page w) (guards b w s₀) fill
      (post (fun t _ => Accounted b w s₀ none t) (fun t _ => t.2 = n ∧ K t.1) True) (s, n) := by
  have hnote (s' : Space) (op : HostOp) (r : op.Res) (hop : FillCall op) : note n op r = n :=
    note_fillCall hn hop r
  have hnoted := wp_recorded_upholds (I := Host) (H := step b.page w) (J := K) hnote hfill
  apply wp_mono (wp_pre_mono hnoted ?_)
  · intro t r hr
    rcases t with ⟨t, n'⟩
    obtain rfl : n' = n := hr.1
    cases r with
    | ok u => exact Only.accounted hr.2
    | err e => exact hr
    | panic => trivial
  · intro t op hop
    refine hop.mono ?_
    intro t' ht'
    rcases t' with ⟨t', n'⟩
    obtain rfl : n' = n := ht'.1
    exact hK t' ht'.2

theorem wp_loadMapped_window (himage : ImageIn b w o image) (hfile : n.file = some o)
    (hmap : Mapped b o.fd) (fd : Int) (hs : Accounted b w s₀ none (s, n)) :
    wp (noted b.page w) (guards b w s₀) (loadMapped image fd b.page.bytes)
      (post (fun t _ => Accounted b w s₀ none t) (fun t _ => Abandoned b w s₀ t) True) (s, n) := by
  have hv := himage.valid
  rw [loadMapped_eq hv]
  split
  swap
  · exact hs.abandoned
  rename_i hspan
  have hreserve := wp_and (wp_reserveMapped (w := w) (s := s) (n := n) (X := True) hv hspan le_rfl)
    (wp_reserveMapped_window hv hspan hs)
  apply wp_seq (wp_pre_mono hreserve fun _ _ h => h.2)
  intro t r hr
  cases r with
  | err e => exact hr.2.abandoned
  | panic => trivial
  | ok placement =>
    rcases hr with ⟨⟨raw, rfl, htaken⟩, hacc⟩
    rcases t with ⟨s₁, n₁⟩
    obtain rfl : n₁ = n.took raw := htaken.notes
    have hplan := wp_and (wp_makePlan (w := w) (k := 0) (s := s₁) hv hspan hfile)
      (wp_makePlan_window (placementAt image raw) hacc)
    apply wp_seq (wp_pre_mono hplan fun _ _ h => h.2)
    intro t r hr
    cases r with
    | err e => exact hr.2.abandoned
    | panic => trivial
    | ok p =>
      rcases hr with ⟨⟨rfl, hmade, rfl⟩, hacc'⟩
      have hp := placed_planFor hv hspan.1 hmade.2.1 hmade.2.2 htaken.toFitting.pageAligned
      have hreserved := htaken.toFitting.reserve
      have hfill := wp_fillMapped_window (w := w) hv hp (holdsAsked_made himage raw true) fd hacc'.only
      apply wp_fillOrUnload_window (wp_filled rfl (fun _ h => h.guarded himage hmap) hfill)
      intro t ht
      rcases t with ⟨t, n'⟩
      obtain rfl : n' = n.made ⟨o, raw, true⟩ := ht.1
      apply wp_unload_windowed himage hmap hp rfl _ ht.2
      rw [hreserved.1, hreserved.2]
      exact ⟨htaken.dvd, dvd_reservedLen hv⟩

theorem wp_loadCopied_window (himage : ImageIn b w o image) (hfile : n.file = some o)
    (src : Source) (hs : Accounted b w s₀ none (s, n)) :
    wp (noted b.page w) (guards b w s₀) (loadCopied image src b.page.bytes)
      (post (fun t _ => Accounted b w s₀ none t) (fun t _ => Abandoned b w s₀ t) True) (s, n) := by
  have hv := himage.valid
  rw [loadCopied_eq hv]
  split
  · exact hs.abandoned
  rename_i htype
  have hplace (raw : Nat) : placementAt image raw = .at raw := if_pos (not_not.mp htype)
  split
  swap
  · exact hs.abandoned
  rename_i hspan
  refine wp_bind.mpr (wp_ask_upholds ?_)
  intro r t hop
  rcases t with ⟨s₁, n₁⟩
  rcases hop with ⟨⟨hans, hs₁⟩, hn₁⟩
  cases r with
  | error e =>
    obtain rfl : s₁ = s := hs₁
    obtain rfl : n₁ = n := hn₁
    exact ⟨hs.guarded, hs.abandoned⟩
  | ok raw =>
    obtain rfl : n₁ = n.took raw := hn₁
    have hacc : Accounted b w s₀ none (s₁, n.took raw) :=
      hs.later (by rw [show s₁ = _ from hs₁]; rfl) fun _ h => h
    refine ⟨hacc.guarded, ?_⟩
    have hfit : Fitting b.page image raw := ⟨hans.1, fun h => absurd (not_not.mp htype) h⟩
    simp only [ofExcept_ok, andThen_ok]
    rw [← hplace raw]
    have hplan := wp_and (wp_makePlan (w := w) (k := 0) (s := s₁) hv hspan hfile)
      (wp_makePlan_window (placementAt image raw) hacc)
    apply wp_seq (wp_pre_mono hplan fun _ _ h => h.2)
    intro t r hr
    cases r with
    | err e => exact hr.2.abandoned
    | panic => trivial
    | ok p =>
      rcases hr with ⟨⟨rfl, hmade, rfl⟩, hacc'⟩
      have hp := placed_planFor hv hspan.1 hmade.2.1 hmade.2.2 hfit.pageAligned
      have hfill := wp_fillCopied_window (w := w) hv hp (holdsAsked_made himage raw true) src hacc'.only
      apply wp_fillOrUnload_window
        (wp_filled rfl (fun _ h => (Only.accounted h).guarded) hfill)
      intro t ht
      rcases t with ⟨t, n'⟩
      obtain rfl : n' = n.made ⟨o, raw, true⟩ := ht.1
      exact wp_unload_window _ (Only.accounted ht.2).abandoned

/-- **`load`** on either path. -/
theorem wp_load_window (himage : ImageIn b w o image) (hfile : n.file = some o)
    (hs : Accounted b w s₀ none (s, n)) :
    wp (noted b.page w) (guards b w s₀) (load b image o.src o.fd)
      (post (fun t _ => Accounted b w s₀ none t) (fun t _ => Abandoned b w s₀ t) True) (s, n) := by
  by_cases hmap : Mapped b o.fd
  · rcases o with ⟨src, fd⟩
    rcases Option.isSome_iff_exists.mp hmap.2 with ⟨fd', rfl⟩
    rw [load_of_mapped hmap]
    exact wp_loadMapped_window himage hfile hmap fd' hs
  · rw [load_of_not_mapped hmap]
    exact wp_loadCopied_window himage hfile o.src hs

/-! ### The program and its interpreter -/

theorem wp_parse_window (hn : n.granted = none) (hs : Accounted b w s₀ none (s, n)) (o : Opened) :
    wp (noted b.page w) (guards b w s₀)
      ((Image.parse b.arch o.src b.pageSize).mapErr Reject.toError)
      (post (fun t image => t = (s, n) ∧ ImageIn b w o image) (fun t _ => Abandoned b w s₀ t) True)
      (s, n) := by
  apply wp_mapErr_post
  apply wp_post_mono (wp_parse (reads_guarded hn hs o.src) b.arch b.page rfl) (fun _ _ h => h)
  intro t e ht
  rw [ht]
  exact hs.abandoned

theorem wp_interpPathOf_window (hn : n.granted = none) (hs : Accounted b w s₀ none (s, n))
    (image : Image) (src : Source) :
    wp (noted b.page w) (guards b w s₀) (interpPathOf image src)
      (post (fun t _ => t = (s, n)) (fun t _ => Abandoned b w s₀ t) True) (s, n) := by
  have hreads := reads_guarded hn hs src
  have hstill {t : Space × Notes} (ht : t = (s, n)) : Abandoned b w s₀ t := by
    rw [ht]
    exact hs.abandoned
  unfold interpPathOf
  split
  · refine wp_bind_post (P := fun t _ => t = (s, n)) ?_ fun _ _ h => h
    refine wp_lift_bind ?_ (fun _ _ => hs.abandoned) fun _ => trivial
    intro ph _
    apply wp_bind_err (hreads.wp_tryReserve rfl _ _) (fun _ _ ht => hstill ht)
    intro t _ ht
    rw [ht]
    apply wp_bind_err (hreads.wp_read rfl _ _) (fun _ _ ht => hstill ht)
    intro t buf ht
    rw [ht.1]
    split
    · exact hs.abandoned
    · rfl
    · exact hs.abandoned
  · rfl

theorem wp_loadInterp_window {t : Space × Notes} (hs : Accounted b w s₀ none t) (path : Bytes) :
    wp (noted b.page w) (guards b w s₀) (loadInterp b path)
      (post (fun t _ => Accounted b w s₀ none t) (fun t _ => Abandoned b w s₀ t) True) t := by
  rcases t with ⟨s, n⟩
  apply wp_bind_post (wp_openPath_window hs path)
  intro t o ht
  rcases ht with ⟨rfl, hacc⟩
  apply wp_bind_post (wp_parse_window rfl hacc o)
  intro t image ht
  rcases ht with ⟨rfl, himage⟩
  refine wp_lift_bind ?_ (fun _ _ => hacc.abandoned) fun _ => trivial
  intro _ _
  refine wp_lift_bind ?_ (fun _ _ => hacc.abandoned) fun _ => trivial
  intro _ _
  apply wp_bind_post (wp_load_window himage rfl hacc)
  intro t l ht
  exact ht

theorem wp_loadInterpFor_window {t : Space × Notes} (hs : Accounted b w s₀ none t) (main : Loaded)
    (ip : Option Bytes) :
    wp (noted b.page w) (guards b w s₀) (loadInterpFor b main ip)
      (post (fun t _ => Accounted b w s₀ none t) (fun t _ => Abandoned b w s₀ t) True) t := by
  cases ip with
  | none => exact hs
  | some path =>
    apply wp_attempt_post (wp_loadInterp_window hs path)
    · exact fun t _ h => h
    · intro t e h
      apply wp_seq (wp_unload_window main h)
      intro t' r hr
      cases r with
      | ok u => exact hr
      | err e' => exact hr
      | panic => trivial

theorem wp_loadProgram_window {t : Space × Notes} (hs : Accounted b w s₀ none t) (path : Bytes) :
    wp (noted b.page w) (guards b w s₀) (loadProgram b path)
      (post (fun t _ => Accounted b w s₀ none t) (fun t _ => Abandoned b w s₀ t) True) t := by
  rcases t with ⟨s, n⟩
  apply wp_bind_post (wp_openPath_window hs path)
  intro t o ht
  rcases ht with ⟨rfl, hacc⟩
  apply wp_bind_post (wp_parse_window rfl hacc o)
  intro t image ht
  rcases ht with ⟨rfl, himage⟩
  refine wp_lift_bind ?_ (fun _ _ => hacc.abandoned) fun _ => trivial
  intro _ _
  apply wp_bind_post (wp_interpPathOf_window rfl hacc image o.src)
  intro t ip ht
  rw [ht]
  apply wp_bind_post (wp_load_window himage rfl hacc)
  intro t main ht
  refine wp_lift_bind ?_ (fun _ _ => ht.abandoned) fun _ => trivial
  intro _ _
  refine wp_lift_bind ?_ (fun _ _ => ht.abandoned) fun _ => trivial
  intro _ _
  apply wp_bind_post (wp_loadInterpFor_window ht main ip)
  intro t interp ht
  exact ht

end Load

/-- **Writing and executing.**  Wherever a run of `load_program` has got to, an address that can
    be written and executed could be before the run, or is claimed by a header of the program or
    its interpreter that asks for both, or lies in the window of one executable segment of the
    image that is being mapped.  No window is open once a program is returned, and none after a
    failure, if unmapping works. -/
theorem write_exec_only_in_window {b : Build} {w : World} {path : Bytes} {s s' : Space}
    {tr : List (Event Host)} {q : Prog Host Error LoadedProgram}
    (hrun : Reaches (step b.page w) s (loadProgram b path) tr s' q) :
    ∃ window : Option Phdr, Accounted b w s window (s', notesOf .empty tr) ∧
      (∀ p, q = .done (ok p) → window = none) ∧
      ∀ e, q = .done (err e) → w.unmaps = true → window = none := by
  have hnoted := hrun.recorded note Notes.empty
  have hstart : Accounted b w s none (s, Notes.empty) := fun x hx => Or.inl hx
  have hwp := wp_loadProgram_window hstart path
  have hguarded : Guarded b w s (s', notesOf .empty tr) := hnoted.upheld hwp hstart.guarded
  have hend := wp_reaches hwp hnoted
  cases q with
  | call op k =>
    rcases hguarded with ⟨window, hacc⟩
    refine ⟨window, hacc, ?_, ?_⟩
    · intro p h
      cases h
    · intro e h
      cases h
  | done r =>
    cases r with
    | ok p => exact ⟨none, hend, fun _ _ => rfl, fun _ _ _ => rfl⟩
    | err e =>
      rcases hend with ⟨window, hacc, hnone⟩
      refine ⟨window, hacc, ?_, fun _ _ hw => hnone hw⟩
      intro p h
      cases h
    | panic =>
      rcases hguarded with ⟨window, hacc⟩
      refine ⟨window, hacc, ?_, ?_⟩
      · intro p h
        cases h
      · intro e h
        cases h

/-- The call that clears the tail of a segment. -/
def clears : HostOp → Bool
  | .vm (.zero _ _) => true
  | _ => false

/-- The small program being loaded, up to the moment when the tail of its text is cleared. -/
def smallWindow : List (Event Host) × Space × Prog Host Error LoadedProgram :=
  (loadProgram ⟨.x86_64, page4K, true⟩ []).runUntil (I := Host)
    (fun s op => if clears op then none else some ((machine (smallElf 0x1100) 4).exec page4K s op))
    emptySpace

theorem smallWindow_reaches :
    Reaches (step page4K (oneFile (smallElf 0x1100))) emptySpace
      (loadProgram ⟨.x86_64, page4K, true⟩ []) smallWindow.1 smallWindow.2.1 smallWindow.2.2 := by
  apply runUntil_reaches (H := step page4K (oneFile (smallElf 0x1100)))
  intro s op r s' hanswer
  split at hanswer
  · cases hanswer
  · cases hanswer
    exact ⟨(machine (smallElf 0x1100) 4).answers op, rfl⟩

/-- At that moment the text can be written and executed, and that is the window of its header. -/
theorem smallWindow_open :
    smallWindow.2.1.WriteExec page4K 0x10100 ∧
      WindowOf ⟨.x86_64, page4K, true⟩ (oneFile (smallElf 0x1100)) (notesOf .empty smallWindow.1)
        smallPhdrs[0] 0x10100 := by
  have hrights : smallWindow.2.1.WriteExec page4K 0x10100 :=
    ⟨PROT_READ ||| PROT_WRITE ||| PROT_EXEC, by decide +kernel, by unfold BothRights; decide⟩
  refine ⟨hrights, ?_⟩
  obtain ⟨window, hacc, -⟩ := write_exec_only_in_window (b := ⟨.x86_64, page4K, true⟩)
    smallWindow_reaches
  have hplans : (notesOf .empty smallWindow.1).plans =
      [⟨⟨⟨0, some (smallElf 0x1100).length⟩, some 3⟩, 0x10000, true⟩] := by decide +kernel
  have hsmall {image : Image} (himage : ImageIn ⟨.x86_64, page4K, true⟩ (oneFile (smallElf 0x1100))
      ⟨⟨0, some (smallElf 0x1100).length⟩, some 3⟩ image) : image = smallImage 0x1100 := by
    have hparsed := himage.parseSlice_eq rfl (by decide +kernel)
    exact Outcome.ok.inj (Option.some.inj (hparsed.symm.trans parse_smallElf))
  rcases hacc.explained hrights with hold | hasked | hwindow
  · rcases hold with ⟨prot, hprot, -⟩
    have hfree : emptySpace.protAt page4K 0x10100 = none := by decide
    rw [hfree] at hprot
    cases hprot
  · rcases hasked with ⟨pn, hpn, image, ph, himage, hclaims, hwrite, hexec⟩
    rw [hplans, List.mem_singleton] at hpn
    subst hpn
    rw [hsmall himage] at hclaims
    have hnone : ∀ ph ∈ (smallImage 0x1100).phdrs, ¬ (ph.isWrite = true ∧ ph.isExec = true) := by
      decide +kernel
    exact absurd ⟨hwrite, hexec⟩ (hnone ph hclaims.1)
  · rcases hwindow with ⟨ph, -, pn, image, hhead, hmap, himage, hmem, htype, hin⟩
    rw [hplans, List.head?_cons, Option.some_inj] at hhead
    subst hhead
    have hone : ∀ ph ∈ (smallImage 0x1100).phdrs, ph.isExec = true → ph = smallPhdrs[0] := by
      decide +kernel
    have hph : ph = smallPhdrs[0] := hone ph (hsmall himage ▸ hmem) hin.exec
    rw [← hph]
    exact ⟨_, image, by rw [hplans]; rfl, hmap, himage, hmem, htype, hin⟩

end ElfLoader.AddressSpace
