import ElfLoader.Containment
import ElfLoader.Tenure

/-!
# Reservations among other clients of the address space

The loader shares the address space with everybody else.  A `System` knows, page
by page, whom a page belongs to, and which ranges the loader has reserved and not
yet released.  Own calls and steps of other clients interleave freely; since the
loader keeps to the reservation protocol, every page of every live reservation
belongs to its image at every moment.
-/

namespace ElfLoader.Interleaving

open ElfLoader Outcome Prog Elf Layout Loader Program Reservation

/-- Whom a page belongs to: the image with that reservation, or another client. -/
inductive Owner where
  | image (r : Option Held)
  | client (n : Nat)
deriving DecidableEq, Repr

structure System where
  /-- Owner of each mapped page, by page number. -/
  pages : Nat → Option Owner
  /-- Ranges the loader has reserved and not released, the last one first. -/
  live : List Held

/-- The pages after a call of the loader.  A fixed mapping replaces what is in
    its range, on behalf of the image being loaded. -/
def ownPages (pg : PageSize) (s : System) : (op : HostOp) → op.Res → Nat → Option Owner
  | .vm (.map .anywhere len _ _), (.ok raw : Except Error Nat) =>
      onPages pg.bytes raw len (some (.image (some ⟨raw, len, false⟩))) s.pages
  | .vm (.map (.hint _) len _ _), (.ok raw : Except Error Nat) =>
      onPages pg.bytes raw len (some (.image (some ⟨raw, len, false⟩))) s.pages
  | .vm (.map (.exact a) len _ _), (.ok _ : Except Error Nat) =>
      onPages pg.bytes a len (some (.image s.live.head?)) s.pages
  | .vm (.unmap a len), (.ok _ : Except Error Unit) => onPages pg.bytes a len none s.pages
  | _, _ => s.pages

/-- A range that is granted without a fixed address is free. -/
def Free (pg : PageSize) (s : System) : (op : HostOp) → op.Res → Prop
  | .vm (.map .anywhere len _ _), (.ok raw : Except Error Nat) =>
      ∀ p, Touches pg.bytes raw len p → s.pages p = none
  | .vm (.map (.hint _) len _ _), (.ok raw : Except Error Nat) =>
      ∀ p, Touches pg.bytes raw len p → s.pages p = none
  | _, _ => True

def ownStep (pg : PageSize) : Handler Host System := fun s op r s' =>
  Granted pg (2 ^ 64) op r ∧ Free pg s op r ∧
    s' = { pages := ownPages pg s op r, live := hold s.live op r }

/-- A step of another client: it maps a free range, or acts on a range it owns. -/
inductive ClientStep (pg : PageSize) : System → System → Prop
  | map {s : System} (n a len : Nat) (hfree : ∀ p, Touches pg.bytes a len p → s.pages p = none) :
      ClientStep pg s { s with pages := onPages pg.bytes a len (some (.client n)) s.pages }
  | exact {s : System} (n a len : Nat)
      (hown : ∀ p, Touches pg.bytes a len p → s.pages p = some (.client n)) :
      ClientStep pg s { s with pages := onPages pg.bytes a len (some (.client n)) s.pages }
  | unmap {s : System} (n a len : Nat)
      (hown : ∀ p, Touches pg.bytes a len p → s.pages p = some (.client n)) :
      ClientStep pg s { s with pages := onPages pg.bytes a len none s.pages }
  | protect {s : System} (n a len : Nat)
      (hown : ∀ p, Touches pg.bytes a len p → s.pages p = some (.client n)) :
      ClientStep pg s s

/-- No page is in both ranges, unless one of them is a heap block. -/
def Apart (pg : PageSize) (r r' : Held) : Prop :=
  r.allocated = false → r'.allocated = false →
    ∀ p, ¬ (Touches pg.bytes r.addr r.len p ∧ Touches pg.bytes r'.addr r'.len p)

theorem Apart.symm {pg : PageSize} {r r' : Held} (h : Apart pg r r') : Apart pg r' r :=
  fun hr hr' p hp => h hr' hr p hp.symm

/-- The invariant: every page of a live reservation belongs to its image, and
    reservations are apart. -/
structure Owned (pg : PageSize) (s : System) : Prop where
  pages : ∀ r ∈ s.live, r.allocated = false → ∀ p, Touches pg.bytes r.addr r.len p →
    s.pages p = some (.image (some r))
  apart : s.live.Pairwise (Apart pg)

section Steps

variable {pg : PageSize} {s s' : System}

/-- Other clients cannot take a page away from an image. -/
theorem ClientStep.owned (h : ClientStep pg s s') (ho : Owned pg s) : Owned pg s' := by
  have hkeep : s'.live = s.live ∧
      ∀ p r, s.pages p = some (.image r) → s'.pages p = some (.image r) := by
    cases h with
    | map n a len hfree =>
      exact ⟨rfl, fun p r hp => onPages_of_ne hp fun ht => by simp [hfree p ht]⟩
    | exact n a len hown =>
      exact ⟨rfl, fun p r hp => onPages_of_ne hp fun ht => by simp [hown p ht]⟩
    | unmap n a len hown =>
      exact ⟨rfl, fun p r hp => onPages_of_ne hp fun ht => by simp [hown p ht]⟩
    | protect n a len hown => exact ⟨rfl, fun _ _ hp => hp⟩
  refine ⟨?_, hkeep.1 ▸ ho.apart⟩
  intro r hr hnot p ht
  rw [hkeep.1] at hr
  exact hkeep.2 p _ (ho.pages r hr hnot p ht)

/-- A new reservation on free pages. -/
theorem Owned.reserve (ho : Owned pg s) {raw len : Nat}
    (hfree : ∀ p, Touches pg.bytes raw len p → s.pages p = none) :
    Owned pg {
      pages := onPages pg.bytes raw len (some (.image (some ⟨raw, len, false⟩))) s.pages
      live := ⟨raw, len, false⟩ :: s.live } := by
  constructor
  · intro r hr hnot p ht
    rcases List.mem_cons.mp hr with rfl | hr
    · exact onPages_of ht
    · exact onPages_of_ne (ho.pages r hr hnot p ht) fun ht' => by simp [hfree p ht']
  · refine List.pairwise_cons.mpr ⟨?_, ho.apart⟩
    rintro r hr - hnot p ⟨ht, ht'⟩
    have hnone := hfree p ht
    rw [ho.pages r hr hnot p ht'] at hnone
    cases hnone

/-- A heap block takes no page of the address space. -/
theorem Owned.allocate (ho : Owned pg s) (raw len : Nat) :
    Owned pg { s with live := ⟨raw, len, true⟩ :: s.live } := by
  constructor
  · intro r hr hnot p ht
    rcases List.mem_cons.mp hr with rfl | hr
    · cases hnot
    · exact ho.pages r hr hnot p ht
  · exact List.pairwise_cons.mpr ⟨fun r _ h => absurd h (by simp), ho.apart⟩

/-- A fixed mapping inside the reservation taken last. -/
theorem Owned.exact (ho : Owned pg s) {r : Held} {a len : Nat} (hr : s.live.head? = some r)
    (hnot : r.allocated = false) (hc : r.Covers a len) :
    Owned pg { s with pages := onPages pg.bytes a len (some (.image s.live.head?)) s.pages } := by
  refine ⟨?_, ho.apart⟩
  intro r' hr' hnot' p ht
  by_cases htouch : Touches pg.bytes a len p
  · have hin : Touches pg.bytes r.addr r.len p := by
      rcases hc with rfl | ⟨hlo, hhi⟩
      · exact absurd htouch not_touches_zero
      · exact htouch.mono pg.pos hlo hhi
    have hmem : r ∈ s.live := List.mem_of_mem_head? hr
    have hsame := ho.pages r hmem hnot p hin
    rw [ho.pages r' hr' hnot' p ht] at hsame
    exact (onPages_of htouch).trans (by rw [hr, hsame])
  · exact (onPages_of_not htouch).trans (ho.pages r' hr' hnot' p ht)

/-- Releasing a live range. -/
theorem Owned.release (ho : Owned pg s) {r : Held} (hr : r ∈ s.live) (hnot : r.allocated = false) :
    Owned pg { pages := onPages pg.bytes r.addr r.len none s.pages, live := s.live.erase r } := by
  have hperm := List.perm_cons_erase hr
  have hpair : (r :: s.live.erase r).Pairwise (Apart pg) :=
    (hperm.pairwise_iff fun h => h.symm).mp ho.apart
  refine ⟨?_, (List.pairwise_cons.mp hpair).2⟩
  intro r' hr' hnot' p ht
  have hkeep : ¬ Touches pg.bytes r.addr r.len p := fun ht' =>
    (List.pairwise_cons.mp hpair).1 r' hr' hnot hnot' p ⟨ht', ht⟩
  exact (onPages_of_not hkeep).trans (ho.pages r' (List.mem_of_mem_erase hr') hnot' p ht)

/-- Returning a heap block changes no page. -/
theorem Owned.deallocate (ho : Owned pg s) (r : Held) :
    Owned pg { s with live := s.live.erase r } :=
  ⟨fun r' hr' => ho.pages r' (List.mem_of_mem_erase hr'),
    ho.apart.sublist List.erase_sublist⟩

/-- **The loader's own calls keep the invariant** wherever the protocol permits
    them. -/
theorem Owned.ownStep {op : HostOp} {r : op.Res} (ho : Owned pg s) (hp : Permits s.live op)
    (h : ownStep pg s op r s') : Owned pg s' := by
  obtain ⟨-, hfree, rfl⟩ := h
  cases op with
  | vm op =>
    cases op with
    | map place len prot src =>
      cases place with
      | anywhere =>
        cases r with
        | ok raw => exact ho.reserve hfree
        | error e => exact ho
      | hint addr =>
        cases r with
        | ok raw => exact ho.reserve hfree
        | error e => exact ho
      | exact a =>
        obtain ⟨r', hr', hnot, hc⟩ := hp
        cases r with
        | ok raw => exact ho.exact hr' hnot hc
        | error e => exact ho
    | unmap a len =>
      cases r with
      | ok u => exact ho.release hp rfl
      | error e => exact ho
    | allocAligned align len =>
      cases r with
      | ok raw => exact ho.allocate raw len
      | error e => exact ho
    | freeAligned a len => exact ho.deallocate _
    | protect a len prot => exact ho
    | write a data => exact ho
    | zero a len => exact ho
    | icacheSync a len => exact ho
  | openPath path => exact ho
  | readExactAt src off n => exact ho
  | tryReserve n => exact ho
  | stackWrite a data => exact ho

end Steps

/-- The ranges are held by the calls that were made, whatever other clients do. -/
theorem live_eq {b : Build} {s s' : System} {p q : Prog Host Error LoadedProgram}
    {tr : List (Event Host)}
    (hrun : Interleaves (ownStep b.page) (ClientStep b.page) s p tr s' q) :
    s'.live = tr.foldl (fun g e => hold g e.1 e.2) s.live := by
  apply hrun.noted System.live hold
  · rintro s op r s' ⟨-, -, rfl⟩
    rfl
  · intro s s' hstep
    cases hstep <;> rfl

/-- A program that is returned has given back none of its ranges on the way. -/
theorem kept_of_ok {b : Build} {path : Bytes} {s s' : System} {tr : List (Event Host)}
    {p : LoadedProgram}
    (hrun : Interleaves (ownStep b.page) (ClientStep b.page) s (loadProgram b path) tr s'
      (.done (ok p))) : ∀ e ∈ tr, ¬ GivesBack e.1 :=
  (keeps_loadProgram b path).no_call (hrun.answered fun _ _ _ _ h => h.1)

/-- **No image range is ever unreserved while it is loaded.**  Take any state that
    `load_program` reaches together with any steps of other clients.  A range that has been
    granted is live until the call that gives it back, and after such a call the load can only
    fail.  Each page of each live reservation is mapped and belongs to its image, so no client
    owns it, and reservations are apart.  Once the program is returned, what was granted is
    its own reservation and its interpreter's, and both are live. -/
theorem reservation_never_lost (b : Build) (path : Bytes) {s s' : System}
    {tr : List (Event Host)} {q : Prog Host Error LoadedProgram} (hs : s.live = [])
    (hrun : Interleaves (ownStep b.page) (ClientStep b.page) s (loadProgram b path) tr s' q) :
    (∀ before e after r, tr = before ++ e :: after → grantOf e = some r →
      (∀ e' ∈ after, e'.1 ≠ r.giveBack) → r ∈ s'.live) ∧
    (∀ e ∈ tr, GivesBack e.1 → ∀ tr' s'' p,
      ¬ Interleaves (ownStep b.page) (ClientStep b.page) s' q tr' s'' (.done (ok p))) ∧
    (∀ r ∈ s'.live, r.allocated = false → ∀ p, Touches b.pageSize r.addr r.len p →
      s'.pages p = some (.image (some r)) ∧ ∀ n, s'.pages p ≠ some (.client n)) ∧
    s'.live.Pairwise (Apart b.page) ∧
    ∀ p, q = .done (ok p) →
      s'.live = heldByProgram p ∧ (tr.filterMap grantOf).reverse = heldByProgram p := by
  have hlive : s'.live = tr.foldl (fun g e => hold g e.1 e.2) [] := hs ▸ live_eq hrun
  have hinit : Owned b.page s := ⟨by simp [hs], by simp [hs]⟩
  obtain ⟨g, ⟨rfl, howned⟩, hq⟩ := wp_simulates (G := Protocol b.page (2 ^ 64))
    (J := fun g s => g = s.live ∧ Owned b.page s)
    (by
      rintro g s op r s' ⟨rfl, ho⟩ hp hstep
      obtain ⟨hgrant, -, hs'⟩ := id hstep
      exact ⟨_, ⟨hgrant, rfl⟩, by rw [hs'], ho.ownStep hp hstep⟩)
    (by
      rintro g s s' ⟨rfl, ho⟩ hstep
      refine ⟨?_, hstep.owned ho⟩
      cases hstep <;> rfl)
    ⟨hs.symm, hinit⟩ (wp_loadProgram b path) hrun
  refine ⟨?_, ?_, ?_, howned.apart, ?_⟩
  · rintro before e after r rfl hgrant hkeep
    rw [hlive, List.foldl_append, List.foldl_cons, hold_of_grantOf hgrant]
    exact mem_foldl_hold List.mem_cons_self hkeep
  · intro e he hback tr' s'' p hrest
    exact kept_of_ok (hrun.trans hrest) e (List.mem_append_left tr' he) hback
  · intro r hr hnot p ht
    have hp := howned.pages r hr hnot p ht
    refine ⟨hp, fun n => ?_⟩
    rw [hp]
    simp
  · rintro p rfl
    have hheld : s'.live = heldByProgram p := by simpa using hq.1
    refine ⟨hheld, ?_⟩
    rw [← hheld, hlive, foldl_hold_of_kept (kept_of_ok hrun), List.append_nil]

/-! ### A run among other clients -/

section Machine

open AddressSpace

def spaceOf (s : System) : Space := ⟨fun p => (s.pages p).map fun _ => PROT_NONE, fun _ => 0, []⟩

def exec (m : Machine) (pg : PageSize) (s : System) (op : HostOp) : op.Res × System :=
  let r := m.answer pg (spaceOf s) op
  (r, ⟨ownPages pg s op r, hold s.live op r⟩)

theorem free_of_answers {w : World} {pg : PageSize} {s : System} {op : HostOp} {r : op.Res}
    (h : (spaceOf s).Answers pg w op r) : Free pg s op r := by
  have hfree {a len : Nat} (h : (spaceOf s).Free pg a len) (p : Nat)
      (ht : Touches pg.bytes a len p) : s.pages p = none := Option.map_eq_none_iff.mp (h p ht)
  cases op with
  | vm op =>
    cases op with
    | map place len prot src =>
      cases place with
      | exact a => trivial
      | anywhere =>
        cases r with
        | ok raw => exact hfree h.2.2
        | error e => trivial
      | hint a =>
        cases r with
        | ok raw => exact hfree h.2.2
        | error e => trivial
    | _ => trivial
  | _ => trivial

theorem exec_ownStep (m : Machine) (pg : PageSize) (s : System) (op : HostOp) :
    ownStep pg s op (exec m pg s op).1 (exec m pg s op).2 :=
  ⟨granted_of_answers (m.answers op), free_of_answers (m.answers op), rfl⟩

/-- A system in which another client has mapped two pages at `0x11000`. -/
def sharedSystem : System :=
  ⟨onPages page4K.bytes 0x11000 0x2000 (some (.client 7)) fun _ => none, []⟩

def sharedRun : List (Event Host) × System × Outcome Error LoadedProgram :=
  (loadProgram ⟨.x86_64, page4K, true⟩ []).run (I := Host)
    (exec (machine (smallElf 0x1100) 4) page4K) sharedSystem

theorem sharedRun_reaches :
    Reaches (ownStep page4K) sharedSystem (loadProgram ⟨.x86_64, page4K, true⟩ []) sharedRun.1
      sharedRun.2.1 (.done sharedRun.2.2) :=
  run_reaches (exec_ownStep (machine (smallElf 0x1100) 4) page4K) _ _

theorem sharedRun_live : sharedRun.2.1.live = [⟨0x13000, 0x4000, false⟩] := by decide +kernel

/-- The other client maps its pages, then the small program is loaded: its four
    pages go behind them and are its own. -/
theorem small_among_clients :
    sharedRun.1.filterMap grantOf = [⟨0x13000, 0x4000, false⟩] ∧
      ∀ n, sharedRun.2.1.pages 0x14 ≠ some (.client n) := by
  have h := reservation_never_lost ⟨.x86_64, page4K, true⟩ [] (s := ⟨fun _ => none, []⟩) rfl
    (.other (.map 7 0x11000 0x2000 fun _ _ => rfl)
      (sharedRun_reaches.interleaves (ClientStep page4K)))
  have hpages := h.2.2.1
  rw [sharedRun_live, List.forall_mem_singleton] at hpages
  exact ⟨by decide +kernel, (hpages rfl 0x14 (by decide +kernel)).2⟩

end Machine

end ElfLoader.Interleaving
