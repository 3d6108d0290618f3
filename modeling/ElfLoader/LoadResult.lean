import ElfLoader.CopiedLoad

/-!
# What a load leaves behind

`MappedOk` and `CopiedOk` describe the address space after a successful load on
the two paths.  A failed load leaves everything as it was, with one exception:
a plan that cannot be made after the reservation has been taken.  The `Notes` of
a run keep what decides this: the file opened last, the address the reservation
was granted at, and whether there was room for the segment vector.
-/

namespace ElfLoader.AddressSpace

open ElfLoader Outcome Prog Elf Layout Loader

/-! ### Notes about a run -/

/-- A plan was asked for: the file, the address granted, and whether the segment
    vector could be reserved. -/
structure PlanNote where
  file : Opened
  addr : Nat
  room : Bool
deriving DecidableEq, Repr

structure Notes where
  /-- Number of paths the loader has tried to open. -/
  opens : Nat
  /-- Number of ranges granted. -/
  takes : Nat
  /-- The file opened last. -/
  file : Option Opened
  /-- The address just granted, until the plan for it is asked for. -/
  granted : Option Nat
  /-- The plans asked for, the last one first. -/
  plans : List PlanNote

def Notes.empty : Notes := ⟨0, 0, none, none, []⟩

/-- The notes when nothing has happened but `o` being opened. -/
def Notes.opened (o : Opened) : Notes := { Notes.empty with file := some o }

def Notes.took (n : Notes) (raw : Nat) : Notes :=
  { n with takes := n.takes + 1, granted := some raw }

/-- A plan was asked for while the note of the grant was open. -/
def Notes.asked (n : Notes) (room : Bool) : Notes :=
  match n.file, n.granted with
  | some o, some raw => { n with granted := none, plans := ⟨o, raw, room⟩ :: n.plans }
  | _, _ => { n with granted := none }

def note (n : Notes) : (op : HostOp) → op.Res → Notes
  | .openPath _, (.ok o : Except Error Opened) =>
      { n with opens := n.opens + 1, file := some o, granted := none }
  | .openPath _, (.error _ : Except Error Opened) =>
      { n with opens := n.opens + 1, file := none, granted := none }
  | .vm (.map .anywhere _ _ _), (.ok raw : Except Error Nat) => n.took raw
  | .vm (.map (.hint _) _ _ _), (.ok raw : Except Error Nat) => n.took raw
  | .vm (.allocAligned _ _), (.ok raw : Except Error Nat) => n.took raw
  | .tryReserve _, room => n.asked room
  | _, _ => n

def notesOf (n : Notes) (tr : List (Event Host)) : Notes :=
  tr.foldl (fun n e => note n e.1 e.2) n

/-- The calls that ask for a range of their own. -/
def Takes : HostOp → Prop
  | .vm (.map .anywhere _ _ _) => True
  | .vm (.map (.hint _) _ _ _) => True
  | .vm (.allocAligned _ _) => True
  | _ => False

theorem Notes.asked_none {n : Notes} (h : n.granted = none) (room : Bool) : n.asked room = n := by
  obtain ⟨opens, takes, file, granted, plans⟩ := n
  simp only at h
  subst h
  cases file <;> rfl

/-- The calls that fill a reservation leave no note. -/
theorem note_fillCall {n : Notes} {op : HostOp} (hn : n.granted = none) (h : FillCall op)
    (r : op.Res) : note n op r = n := by
  cases op with
  | vm op =>
    cases op with
    | map place len prot src =>
      cases place with
      | exact a => rfl
      | _ => exact absurd h (by simp [FillCall])
    | protect a len prot => rfl
    | write a data => rfl
    | zero a len => rfl
    | icacheSync a len => rfl
    | _ => exact absurd h (by simp [FillCall])
  | readExactAt src off n => rfl
  | tryReserve k => exact Notes.asked_none hn r
  | _ => exact absurd h (by simp [FillCall])

abbrev noted (pg : PageSize) (w : World) : Handler Host (Space × Notes) :=
  recorded (step pg w) note

/-- Every call writes only where it may, and none asks for a range once `k + 1`
    have been granted. -/
def notedPre (pg : PageSize) (k : Nat) (s : Space × Notes) (op : HostOp) : Prop :=
  WritesAllowed pg s.1 op ∧ (Takes op → s.2.takes ≤ k)

theorem FillCall.not_takes {op : HostOp} (h : FillCall op) : ¬ Takes op := by
  cases op with
  | vm op =>
    cases op with
    | map place len prot src => cases place <;> simp_all [FillCall, Takes]
    | _ => simp_all [FillCall, Takes]
  | _ => simp [Takes]

theorem wp_noted {pg : PageSize} {w : World} {k : Nat} {α : Type} {p : Prog Host Error α}
    {s : Space} {n : Notes} {P : Space → α → Prop} {E : Space → Error → Prop} {X : Prop}
    (hn : n.granted = none) (hp : wp (step pg w) (fillPre pg) p (post P E X) s) :
    wp (noted pg w) (notedPre pg k) p
      (post (fun s' a => s'.2 = n ∧ P s'.1 a) (fun s' e => s'.2 = n ∧ E s'.1 e) X) (s, n) := by
  have h : wp (noted pg w) (fun s op => fillPre pg s.1 op) p
      (fun s' r => s'.2 = n ∧ post P E X s'.1 r) (s, n) :=
    wp_recorded (fun _ op r hpre => note_fillCall hn hpre.1 r) hp
  refine wp_mono (wp_pre_mono h fun _ _ h => ⟨h.2, fun ht => absurd ht h.1.not_takes⟩) ?_
  rintro s' r ⟨hn', hr⟩
  cases r with
  | ok a => exact ⟨hn', hr⟩
  | err e => exact ⟨hn', hr⟩
  | panic => exact hr

/-! ### Two address spaces compared -/

/-- The same pages are mapped with the same protections, and the same blocks are
    live. -/
structure SameSpace (s s' : Space) : Prop where
  prot : s'.prot = s.prot
  blocks : s'.blocks = s.blocks

/-- Nothing was lost or changed, but a page or a block was added. -/
structure Grown (s s' : Space) : Prop where
  keeps : ∀ p v, s.prot p = some v → s'.prot p = some v
  more : (∃ blk, s'.blocks = blk :: s.blocks) ∨
    (s'.blocks = s.blocks ∧ ∃ p, s.prot p = none ∧ s'.prot p ≠ none)

theorem Grown.not_same {s s' : Space} (h : Grown s s') : ¬ SameSpace s s' := by
  intro hs
  rcases h.more with ⟨blk, hblk⟩ | ⟨-, p, hp, hp'⟩
  · rw [hs.blocks] at hblk
    exact absurd (congrArg List.length hblk) (by simp)
  · rw [hs.prot] at hp'
    exact hp' hp

/-- Protections agree page by page if they agree address by address. -/
theorem prot_eq_of_protAt (pg : PageSize) {s s' : Space}
    (h : ∀ x, s'.protAt pg x = s.protAt pg x) : s'.prot = s.prot := by
  funext p
  have hp := h (p * pg.bytes)
  simpa [Space.protAt, Nat.mul_div_cancel p pg.pos] using hp

/-- What was free and is unmapped again is as before, whatever happened in the
    range in between. -/
theorem sameSpace_unmapped {pg : PageSize} {s s' : Space} {a len : Nat} (ha : pg.bytes ∣ a)
    (hlen : pg.bytes ∣ len) (hfree : s.Free pg a len)
    (hoff : AgreeOff pg (Within a (a + len)) s s') : SameSpace s (s'.unmapped pg a len) := by
  refine ⟨prot_eq_of_protAt pg ?_, hoff.blocks⟩
  intro x
  rw [protAt_unmapped ha hlen]
  split
  · rename_i hx
    exact (hfree _ (touches_div hx.1 hx.2)).symm
  · rename_i hx
    exact hoff.prot x hx

/-- A mapping of free pages adds pages and changes nothing else. -/
theorem grown_mapIn {pg : PageSize} {s : Space} {a len prot : Nat} {fill : Nat → UInt8}
    (hpos : 0 < len) (hfree : s.Free pg a len) :
    Grown s (s.mapIn pg a len prot fill) := by
  have htouch : Touches pg.bytes a len (a / pg.bytes) := touches_div le_rfl (by omega)
  refine ⟨?_, Or.inr ⟨rfl, a / pg.bytes, hfree _ htouch, ?_⟩⟩
  · intro p v hp
    refine onPages_of_ne hp fun ht => ?_
    simp [hfree p ht]
  · intro h
    exact absurd ((onPages_of htouch).symm.trans h) (by simp)

theorem sameSpace_mapIn_zero {pg : PageSize} {s : Space} {a prot : Nat} {fill : Nat → UInt8} :
    SameSpace s (s.mapIn pg a 0 prot fill) := by
  refine ⟨?_, rfl⟩
  funext p
  exact onPages_of_not not_touches_zero

/-! ### Taking the reservation -/

/-- Where an image goes when its reservation is granted at `raw`. -/
def placementAt (image : Image) (raw : Nat) : Placement :=
  if image.ehdr.eType = ET_DYN then .at raw else .fixed

def reservedLen (pg : PageSize) (image : Image) : Nat :=
  if image.ehdr.eType = ET_DYN then needOf pg image else image.hi pg - image.lo pg

/-- A plan can be made for a reservation granted at `raw`: there is room for the
    segments, the aligned base is at or above the link address, and neither the
    entry point nor the end of the image is past the end of the address space. -/
def PlanMade (pg : PageSize) (image : Image) (raw : Nat) (room : Bool) : Prop :=
  room = true ∧ PlanFits pg image (placementAt image raw) ∧
    EndsInside pg image (placementAt image raw)

/-- A reservation is released on failure: a plan can be made for it, or it is
    empty and was never more than a number. -/
def NoLeak (pg : PageSize) (image : Image) (allocated : Bool) (raw : Nat) (room : Bool) : Prop :=
  PlanMade pg image raw room ∨ (allocated = false ∧ reservedLen pg image = 0)

/-- A range was granted and a plan asked for. -/
def Notes.made (n : Notes) (pn : PlanNote) : Notes :=
  { n with takes := n.takes + 1, granted := none, plans := pn :: n.plans }

def FailedLoad (pg : PageSize) (w : World) (image : Image) (allocated : Bool) (o : Opened)
    (s : Space) (n : Notes) (s' : Space × Notes) : Prop :=
  s'.2.opens = n.opens ∧ (w.unmaps = true →
    (s'.2.plans = n.plans ∧ SameSpace s s'.1) ∨
    ∃ raw room, s'.2.plans = ⟨o, raw, room⟩ :: n.plans ∧
      ((NoLeak pg image allocated raw room ∧ SameSpace s s'.1) ∨
        (¬ NoLeak pg image allocated raw room ∧ Grown s s'.1)))

section Reserve

variable {pg : PageSize} {w : World} {k : Nat} {image : Image} {s : Space} {n : Notes} {X : Prop}

theorem dvd_reservedLen (hv : image.Valid pg) : pg.bytes ∣ reservedLen pg image := by
  unfold reservedLen
  split
  · exact dvd_needOf hv
  · exact Nat.dvd_sub hv.dvd_hi hv.dvd_lo

/-- A reservation at `raw` of the length the image needs. -/
structure Fitting (pg : PageSize) (image : Image) (raw : Nat) : Prop where
  dvd : pg.bytes ∣ raw
  link : image.ehdr.eType ≠ ET_DYN → raw = image.lo pg

/-- The plan for a placement names the reservation it was made for. -/
theorem Fitting.reserve {raw : Nat} (h : Fitting pg image raw) :
    (planFor pg image (placementAt image raw)).reserveAddr = raw ∧
      (planFor pg image (placementAt image raw)).reserveLen = reservedLen pg image := by
  unfold placementAt reservedLen
  split
  · exact ⟨rfl, rfl⟩
  · rename_i htype
    exact ⟨(h.link htype).symm, rfl⟩

theorem Fitting.pageAligned {raw : Nat} (h : Fitting pg image raw) :
    (placementAt image raw).PageAligned pg := by
  unfold placementAt
  split
  · exact h.dvd
  · trivial

/-- A range was taken from the free pages at `raw`. -/
structure Taken (pg : PageSize) (image : Image) (s : Space) (n : Notes) (raw : Nat)
    (s' : Space × Notes) : Prop extends Fitting pg image raw where
  free : s.Free pg raw (reservedLen pg image)
  space : s'.1 = s.mapIn pg raw (reservedLen pg image) PROT_NONE fun _ => 0
  notes : s'.2 = n.took raw

theorem wp_reserveMapped (hv : image.Valid pg) (hspan : SpanFits pg image) (hk : n.takes ≤ k) :
    wp (noted pg w) (notedPre pg k)
      (reserveMapped image pg.bytes (image.lo pg) (needOf pg image))
      (post (fun s' pl => ∃ raw, pl = placementAt image raw ∧ Taken pg image s n raw s')
        (fun s' _ => s'.2.opens = n.opens ∧ (w.unmaps = true → s'.2.plans = n.plans ∧
          SameSpace s s'.1)) X) (s, n) := by
  rw [reserveMapped_eq hv hspan]
  split
  · rename_i htype
    have hlen : reservedLen pg image = needOf pg image := if_pos htype
    refine wp_bind.mpr ⟨⟨trivial, fun _ => hk⟩, ?_⟩
    rintro (e | raw) ⟨s', n'⟩ ⟨⟨hans, rfl⟩, rfl⟩
    · exact ⟨rfl, fun _ => ⟨rfl, rfl, rfl⟩⟩
    · refine ⟨raw, by rw [placementAt, if_pos htype], ⟨hans.1, fun h => absurd htype h⟩, ?_, ?_, rfl⟩
      · rw [hlen]
        exact hans.2.2
      · rw [hlen]
        rfl
  · rename_i htype
    have hlen : reservedLen pg image = image.hi pg - image.lo pg := if_neg htype
    refine wp_bind.mpr ⟨⟨trivial, fun _ => hk⟩, ?_⟩
    rintro (e | got) ⟨s', n'⟩ ⟨⟨hans, rfl⟩, rfl⟩
    · exact ⟨rfl, fun _ => ⟨rfl, rfl, rfl⟩⟩
    · simp only [ofExcept_ok, wp_done, andThen_ok]
      split
      · refine wp_bind.mpr ⟨⟨trivial, fun h => h.elim⟩, ?_⟩
        have hdvd : pg.bytes ∣ image.hi pg - image.lo pg := Nat.dvd_sub hv.dvd_hi hv.dvd_lo
        rintro (e | u) ⟨s', n'⟩ ⟨⟨hans', rfl⟩, rfl⟩
        · exact ⟨rfl, fun h => absurd (hans'.symm.trans h) (by simp)⟩
        · exact ⟨rfl, fun _ => ⟨rfl, sameSpace_unmapped hans.1 hdvd hans.2.2
            (agreeOff_mapIn hans.1 hdvd)⟩⟩
      · rename_i hgot
        obtain rfl : got = image.lo pg := by simpa using hgot
        refine ⟨image.lo pg, by rw [placementAt, if_neg htype], ⟨hans.1, fun _ => rfl⟩, ?_, ?_, rfl⟩
        · rw [hlen]
          exact hans.2.2
        · rw [hlen]
          rfl

theorem wp_makePlan {o : Opened} {raw : Nat} (hv : image.Valid pg) (hspan : SpanFits pg image)
    (hfile : n.file = some o) :
    wp (noted pg w) (notedPre pg k) (makePlan image pg.bytes (placementAt image raw))
      (post (fun s' p => s' = (s, n.made ⟨o, raw, true⟩) ∧ PlanMade pg image raw true ∧
          p = planFor pg image (placementAt image raw))
        (fun s' _ => ∃ room, s' = (s, n.made ⟨o, raw, room⟩) ∧ ¬ PlanMade pg image raw room)
        True) (s, n.took raw) := by
  refine wp_bind.mpr ⟨⟨trivial, fun h => h.elim⟩, ?_⟩
  rintro room s' ⟨⟨-, hs⟩, hn⟩
  have hs' : s' = (s, n.made ⟨o, raw, room⟩) := by
    refine Prod.ext hs (hn.trans ?_)
    simp only [note, Notes.asked, Notes.took, hfile, Notes.made]
  rw [hs', wp_done, andThen_ok]
  refine wp_lift_post ?_ ?_ fun _ => trivial
  · intro p hplan
    obtain ⟨rfl, hfits, hend, rfl⟩ := (plan_eq_ok hv hspan.1 hspan.2).mp hplan
    exact ⟨rfl, ⟨rfl, hfits, hend⟩, rfl⟩
  · intro e herr
    refine ⟨room, rfl, ?_⟩
    rintro ⟨hroom, hfits, hend⟩
    have hok := (plan_eq_ok hv hspan.1 hspan.2).mpr ⟨hroom, hfits, hend, rfl⟩
    rw [hok] at herr
    cases herr

end Reserve

/-! ### The two ways to end -/

abbrev reserveRange (l : Loaded) : Nat → Prop :=
  Within l.plan.reserveAddr (l.plan.reserveAddr + l.plan.reserveLen)

/-- After a load with mappings: the pages of the reservation were free, every
    segment shows its bytes with its protection, the rest of the reservation is
    inaccessible, and nothing outside of it has changed. -/
structure MappedOk (pg : PageSize) (w : World) (image : Image) (fd : Int) (s : Space) (l : Loaded)
    (s' : Space) : Prop where
  allocated : l.allocated = false
  dvd_addr : pg.bytes ∣ l.plan.reserveAddr
  dvd_len : pg.bytes ∣ l.plan.reserveLen
  free : s.Free pg l.plan.reserveAddr l.plan.reserveLen
  frame : AgreeOff pg (reserveRange l) s s'
  gaps : ∀ x, reserveRange l x → ¬ imagePages pg l.plan.bias image x →
    s'.protAt pg x = some PROT_NONE
  segs : ∀ i ∈ image.loads, Shown pg (w.fdBytes fd) l.plan.bias (image.seg i) s' ∧
    HasProt pg l.plan.bias (image.seg i) s'

/-- After a load into a heap block: one block more is live, every segment shows
    its bytes, and protections have changed where they are enforced. -/
structure CopiedOk (pg : PageSize) (w : World) (image : Image) (src : Source) (s : Space)
    (l : Loaded) (s' : Space) : Prop where
  dyn : image.ehdr.eType = ET_DYN
  allocated : l.allocated = true
  heap : ∀ x, reserveRange l x → s.protAt pg x = some RW
  blocks : s'.blocks = (l.plan.reserveAddr, l.plan.reserveLen) :: s.blocks
  mem : ∀ x, ¬ imagePages pg l.plan.bias image x → s'.mem x = s.mem x
  prot : ∀ x, ¬ enforcedPages pg w l.plan.bias image x → s'.protAt pg x = s.protAt pg x
  segs : ∀ i ∈ image.loads, Shown pg (w.bytes src.handle) l.plan.bias (image.seg i) s' ∧
    (Enforced pg w l.plan.bias (image.seg i) → HasProt pg l.plan.bias (image.seg i) s')

/-- No page of the block was left with less than what the heap expects: where the
    system enforces the protection of a segment that has pages, it is the heap's own. -/
def Unnarrowed (pg : PageSize) (w : World) (image : Image) (bias : Nat) : Prop :=
  ∀ i ∈ image.loads, (image.seg i).start pg < (image.seg i).fin pg →
    Enforced pg w bias (image.seg i) → protOf (image.seg i) = RW

/-- When the copy path leaves all protections as they were. -/
theorem CopiedOk.prot_eq_iff {pg : PageSize} {w : World} {image : Image} {src : Source}
    {s s' : Space} {l : Loaded} (hv : image.Valid pg) (hp : Placed pg image l.plan)
    (h : CopiedOk pg w image src s l s') :
    s'.prot = s.prot ↔ Unnarrowed pg w image l.plan.bias := by
  have hheap {i x : Nat} (hi : i ∈ image.loads) (hx : segPages pg l.plan.bias (image.seg i) x) :
      s.protAt pg x = some RW := by
    have hin := hp.seg_inside hv hi
    exact h.heap x ⟨hin.1.trans hx.1, lt_of_lt_of_le hx.2 hin.2⟩
  constructor
  · intro heq i hi hpos henf
    have hx : segPages pg l.plan.bias (image.seg i) ((image.seg i).start pg + l.plan.bias) :=
      ⟨le_rfl, by omega⟩
    have hprot := (h.segs i hi).2 henf _ hx
    rw [Space.protAt, heq, ← Space.protAt, hheap hi hx] at hprot
    exact (Option.some.inj hprot).symm
  · intro hun
    refine prot_eq_of_protAt pg ?_
    intro x
    by_cases hx : enforcedPages pg w l.plan.bias image x
    · obtain ⟨i, hi, henf, hxi⟩ := hx
      have hpos : (image.seg i).start pg < (image.seg i).fin pg := by
        have := hxi.1
        have := hxi.2
        omega
      rw [(h.segs i hi).2 henf x hxi, hheap hi hxi, hun i hi hpos henf]
    · exact h.prot x hx

/-- What the notes and the plan say after a successful load. -/
def NotedOk (pg : PageSize) (image : Image) (o : Opened) (n n' : Notes) (l : Loaded) : Prop :=
  Placed pg image l.plan ∧ ∃ raw, n' = n.made ⟨o, raw, true⟩ ∧ PlanMade pg image raw true ∧
    l.plan = planFor pg image (placementAt image raw)

section Load

variable {pg : PageSize} {w : World} {k : Nat} {image : Image} {s : Space} {n : Notes}
  {o : Opened}

/-- The address space after the release of what an image holds. -/
def released (pg : PageSize) (l : Loaded) (s : Space) : Space :=
  if l.allocated then { s with blocks := s.blocks.erase (l.plan.reserveAddr, l.plan.reserveLen) }
  else s.unmapped pg l.plan.reserveAddr l.plan.reserveLen

theorem wp_unload {ε : Type} {E : Space × Notes → ε → Prop} {X : Prop} (l : Loaded) :
    wp (noted pg w) (notedPre pg k) (l.unload : Prog Host ε Unit)
      (post (fun s' _ => s'.2 = n ∧ (w.unmaps = true → s'.1 = released pg l s)) E X) (s, n) := by
  obtain ⟨plan, allocated⟩ := l
  cases allocated with
  | true =>
    refine ⟨⟨trivial, fun h => h.elim⟩, ?_⟩
    rintro r s' ⟨⟨-, hs⟩, hn⟩
    exact ⟨hn, fun _ => hs⟩
  | false =>
    refine wp_bind.mpr ⟨⟨trivial, fun h => h.elim⟩, ?_⟩
    rintro (e | u) s' ⟨⟨hans, hs⟩, hn⟩
    · exact ⟨hn, fun h => absurd (hans.symm.trans h) (by simp)⟩
    · exact ⟨hn, fun _ => hs⟩

/-- Filling failed: with the reservation released everything is as before. -/
theorem wp_fillOrUnload {l : Loaded} {fill : Prog Host Error Unit} {P : Space → Prop}
    {s₁ : Space} {E : Space → Prop} (hn : n.granted = none)
    (hfill : wp (step pg w) (fillPre pg) fill (post (fun s' _ => P s') (fun s' _ => E s') True) s₁)
    (hback : ∀ s', E s' → SameSpace s (released pg l s')) :
    wp (noted pg w) (notedPre pg k) (fillOrUnload l fill)
      (post (fun s' l' => s'.2 = n ∧ l' = l ∧ P s'.1)
        (fun s' _ => s'.2 = n ∧ (w.unmaps = true → SameSpace s s'.1)) True) (s₁, n) := by
  refine wp_attempt_post (wp_noted hn hfill) ?_ ?_
  · rintro s' _ ⟨hn', hP⟩
    exact ⟨hn', rfl, hP⟩
  · rintro ⟨s', n'⟩ e ⟨rfl, hE⟩
    refine wp_bind_post (wp_unload l) ?_
    rintro s'' _ ⟨hn'', hspace⟩
    refine ⟨hn'', fun h => ?_⟩
    rw [hspace h]
    exact hback s' hE

/-- **The mmap path.** -/
theorem wp_loadMapped (hv : image.Valid pg) (hfile : n.file = some o) (hk : n.takes ≤ k)
    (fd : Int) :
    wp (noted pg w) (notedPre pg k) (loadMapped image fd pg.bytes)
      (post (fun s' l => NotedOk pg image o n s'.2 l ∧ MappedOk pg w image fd s l s'.1)
        (fun s' _ => FailedLoad pg w image false o s n s') True) (s, n) := by
  rw [loadMapped_eq hv]
  split
  swap
  · exact ⟨rfl, fun _ => Or.inl ⟨rfl, rfl, rfl⟩⟩
  rename_i hspan
  refine wp_bind_err (wp_reserveMapped hv hspan hk) ?_ ?_
  · exact fun s' _ h => ⟨h.1, fun hw => Or.inl (h.2 hw)⟩
  rintro ⟨s₁, n₁⟩ _ ⟨raw, rfl, hfit, hfree, hs₁, hn₁⟩
  obtain rfl : n₁ = n.took raw := hn₁
  have hdvd := dvd_reservedLen hv
  have hoff : AgreeOff pg (Within raw (raw + reservedLen pg image)) s s₁ := by
    rw [show s₁ = _ from hs₁]
    exact agreeOff_mapIn hfit.dvd hdvd
  refine wp_bind_err (wp_makePlan hv hspan hfile) ?_ ?_
  · -- no plan: the range stays mapped
    rintro s' _ ⟨room, rfl, hno⟩
    refine ⟨rfl, fun _ => Or.inr ⟨raw, room, rfl, ?_⟩⟩
    simp only [show s₁ = _ from hs₁]
    by_cases hzero : reservedLen pg image = 0
    · refine Or.inl ⟨Or.inr ⟨rfl, hzero⟩, ?_⟩
      rw [hzero]
      exact sameSpace_mapIn_zero
    · refine Or.inr ⟨?_, grown_mapIn (Nat.pos_of_ne_zero hzero) hfree⟩
      rintro (hmade | ⟨-, hzero'⟩)
      · exact hno hmade
      · exact hzero hzero'
  rintro _ _ ⟨rfl, hmade, rfl⟩
  obtain ⟨haddr, hlen⟩ := hfit.reserve
  have hp := placed_planFor hv hspan.1 hmade.2.1 hmade.2.2 hfit.pageAligned
  generalize hplan : planFor pg image (placementAt image raw) = p at hp haddr hlen ⊢
  have hin (x : Nat) (hx : imagePages pg p.bias image x) :
      Within raw (raw + reservedLen pg image) x := by
    obtain ⟨i, hi, hxi⟩ := hx
    have hseg := hp.seg_inside hv hi
    rw [haddr, hlen] at hseg
    exact ⟨hseg.1.trans hxi.1, lt_of_lt_of_le hxi.2 hseg.2⟩
  refine wp_post_mono (wp_fillOrUnload (s := s) (l := ⟨p, false⟩) rfl (wp_fillMapped hv hp fd) ?_)
    ?_ ?_
  · intro s' hs'
    refine sameSpace_unmapped (haddr ▸ hfit.dvd) (hlen ▸ hdvd) ?_ ?_
    · rw [haddr, hlen]
      exact hfree
    · rw [haddr, hlen]
      exact hoff.trans (hs'.mono hin)
  · rintro s' l ⟨hn', rfl, hs', hsegs⟩
    refine ⟨⟨hp, raw, hn', hmade, hplan.symm⟩, rfl, haddr ▸ hfit.dvd, hlen ▸ hdvd, ?_, ?_, ?_,
      hsegs⟩
    · rw [haddr, hlen]
      exact hfree
    · simp only [reserveRange, haddr, hlen]
      exact hoff.trans (hs'.mono hin)
    · intro x hx hgap
      simp only [reserveRange, haddr, hlen] at hx
      rw [hs'.prot x hgap, show s₁ = _ from hs₁, protAt_mapIn hfit.dvd hdvd]
      exact if_pos hx
  · rintro s' _ ⟨hn', hsame⟩
    rw [FailedLoad, hn']
    exact ⟨rfl, fun h => Or.inr ⟨raw, true, rfl, Or.inl ⟨Or.inl hmade, hsame h⟩⟩⟩

/-- **The copy path.** -/
theorem wp_loadCopied (hv : image.Valid pg) (hfile : n.file = some o) (hk : n.takes ≤ k)
    (src : Source) :
    wp (noted pg w) (notedPre pg k) (loadCopied image src pg.bytes)
      (post (fun s' l => NotedOk pg image o n s'.2 l ∧ CopiedOk pg w image src s l s'.1)
        (fun s' _ => FailedLoad pg w image true o s n s') True) (s, n) := by
  rw [loadCopied_eq hv]
  split
  · exact ⟨rfl, fun _ => Or.inl ⟨rfl, rfl, rfl⟩⟩
  rename_i htype
  have htype : image.ehdr.eType = ET_DYN := not_not.mp htype
  have hplace (raw : Nat) : placementAt image raw = .at raw := if_pos htype
  have hreserved : reservedLen pg image = needOf pg image := if_pos htype
  split
  swap
  · exact ⟨rfl, fun _ => Or.inl ⟨rfl, rfl, rfl⟩⟩
  rename_i hspan
  refine wp_bind.mpr ⟨⟨trivial, fun _ => hk⟩, ?_⟩
  rintro (e | raw) ⟨s₁, n₁⟩ ⟨⟨hans, hs₁⟩, hn₁⟩
  · obtain rfl : s₁ = s := hs₁
    obtain rfl : n₁ = n := hn₁
    exact ⟨rfl, fun _ => Or.inl ⟨rfl, rfl, rfl⟩⟩
  obtain ⟨hraw, -, hheap, -⟩ := hans
  obtain rfl : n₁ = n.took raw := hn₁
  obtain rfl : s₁ = { s with blocks := (raw, needOf pg image) :: s.blocks } := hs₁
  have hfit : Fitting pg image raw := ⟨hraw, fun h => absurd htype h⟩
  simp only [ofExcept_ok, wp_done, andThen_ok]
  rw [← hplace raw]
  refine wp_bind_err (wp_makePlan hv hspan hfile) ?_ ?_
  · -- no plan: the block stays live
    rintro s' _ ⟨room, rfl, hno⟩
    refine ⟨rfl, fun _ => Or.inr ⟨raw, room, rfl, Or.inr ⟨?_, fun _ _ h => h, Or.inl ⟨_, rfl⟩⟩⟩⟩
    rintro (hmade | ⟨h, -⟩)
    · exact hno hmade
    · cases h
  rintro _ _ ⟨rfl, hmade, rfl⟩
  obtain ⟨haddr, hlen⟩ := hfit.reserve
  have hp := placed_planFor hv hspan.1 hmade.2.1 hmade.2.2 hfit.pageAligned
  generalize hplan : planFor pg image (placementAt image raw) = p at hp haddr hlen ⊢
  have hrw (x : Nat) (hx : reserveRange ⟨p, true⟩ x) : s.protAt pg x = some RW := by
    simp only [reserveRange, haddr, hlen, hreserved] at hx
    exact hheap _ (touches_div hx.1 hx.2)
  refine wp_post_mono (wp_fillOrUnload (s := s) (l := ⟨p, true⟩) rfl (wp_fillCopied hv hp src ?_) ?_)
    ?_ ?_
  · intro x hx
    exact ⟨RW, hrw x ⟨hp.reserve_le.trans hx.1, lt_of_lt_of_le hx.2 hp.le_reserve⟩, by decide⟩
  · rintro s' ⟨hprot, hoff⟩
    refine ⟨hprot, ?_⟩
    simp only [released, if_true, hoff.blocks, haddr, hlen, hreserved, List.erase_cons_head]
  · rintro s' l ⟨hn', rfl, hblocks, hmem, hprot, hsegs⟩
    refine ⟨⟨hp, raw, hn', hmade, hplan.symm⟩, htype, rfl, hrw, ?_, hmem, hprot, hsegs⟩
    rw [hblocks, haddr, hlen, hreserved]
  · rintro s' _ ⟨hn', hsame⟩
    rw [FailedLoad, hn']
    exact ⟨rfl, fun h => Or.inr ⟨raw, true, rfl, Or.inl ⟨Or.inl hmade, hsame h⟩⟩⟩

def Mapped (b : Build) (fd : Option Int) : Prop := b.canMapFiles = true ∧ fd.isSome = true

instance (b : Build) (fd : Option Int) : Decidable (Mapped b fd) :=
  inferInstanceAs (Decidable (_ ∧ _))

theorem load_of_mapped {b : Build} {src : Source} {fd : Int} (h : Mapped b (some fd)) :
    load b image src (some fd) = loadMapped image fd b.page.bytes := by
  simp only [load, h.1]
  rfl

theorem load_of_not_mapped {b : Build} {src : Source} {fd : Option Int} (h : ¬ Mapped b fd) :
    load b image src fd = loadCopied image src b.page.bytes := by
  unfold load
  split
  · rename_i hcan
    exact absurd ⟨hcan, rfl⟩ h
  · rfl

/-- The address space after a successful load, on the path that was taken. -/
inductive LoadedOk (b : Build) (w : World) (image : Image) (src : Source) (fd : Option Int)
    (s : Space) (l : Loaded) (s' : Space) : Prop
  | mapped (fd' : Int) (hfd : fd = some fd') (hmap : Mapped b fd)
      (h : MappedOk b.page w image fd' s l s')
  | copied (hmap : ¬ Mapped b fd) (h : CopiedOk b.page w image src s l s')

/-- **`load`** on either path. -/
theorem wp_load {b : Build} (hv : image.Valid b.page) (hfile : n.file = some o)
    (hk : n.takes ≤ k) (src : Source) (fd : Option Int) :
    wp (noted b.page w) (notedPre b.page k) (load b image src fd)
      (post (fun s' l => NotedOk b.page image o n s'.2 l ∧ LoadedOk b w image src fd s l s'.1)
        (fun s' _ => FailedLoad b.page w image (decide (¬ Mapped b fd)) o s n s') True) (s, n) := by
  by_cases hmap : Mapped b fd
  · obtain ⟨fd', rfl⟩ := Option.isSome_iff_exists.mp hmap.2
    rw [load_of_mapped hmap]
    refine wp_post_mono (wp_loadMapped hv hfile hk fd') ?_ ?_
    · exact fun s' l h => ⟨h.1, .mapped fd' rfl hmap h.2⟩
    · intro s' _ h
      rw [decide_eq_false (not_not.mpr hmap)]
      exact h
  · rw [load_of_not_mapped hmap]
    refine wp_post_mono (wp_loadCopied hv hfile hk src) ?_ ?_
    · exact fun s' l h => ⟨h.1, .copied hmap h.2⟩
    · intro s' _ h
      rw [decide_eq_true hmap]
      exact h

/-- **Every run of `load`** from any address space. -/
theorem load_run {b : Build} {src : Source} {fd : Option Int} {s' : Space}
    {tr : List (Event Host)} {r : Outcome Error Loaded} (hv : image.Valid b.page)
    (hrun : Reaches (step b.page w) s (load b image src fd) tr s' (.done r)) :
    post (fun s' l => NotedOk b.page image ⟨src, fd⟩ (.opened ⟨src, fd⟩) s'.2 l ∧
        LoadedOk b w image src fd s l s'.1)
      (fun s' _ => FailedLoad b.page w image (decide (¬ Mapped b fd)) ⟨src, fd⟩ s
        (.opened ⟨src, fd⟩) s') True (s', notesOf (.opened ⟨src, fd⟩) tr) r :=
  wp_reaches (wp_load (k := 0) hv rfl le_rfl src fd) (hrun.recorded note (.opened ⟨src, fd⟩))

end Load

end ElfLoader.AddressSpace
