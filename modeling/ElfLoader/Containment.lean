import ElfLoader.MemoryImage
import ElfLoader.Reservation

/-!
# A load keeps to its own range

At every moment of a load at most one range has been granted to it.  Whatever it
maps over, unmaps, protects, writes, clears or synchronises lies in that range,
every byte it writes is writable at that moment, and no page outside of the range
has changed.
-/

namespace ElfLoader.AddressSpace

open ElfLoader Outcome Prog Elf Layout Loader Reservation

/-- The bytes a call acts on, start and length. -/
def touched : HostOp → Option (Nat × Nat)
  | .vm (.map (.exact a) len _ _) => some (a, len)
  | .vm (.unmap a len) => some (a, len)
  | .vm (.protect a len _) => some (a, len)
  | .vm (.write a data) => some (a, data.length)
  | .vm (.zero a len) => some (a, len)
  | .vm (.icacheSync a len) => some (a, len)
  | .vm (.freeAligned a len) => some (a, len)
  | _ => none

def grantOf : (op : HostOp) → op.Res → Option Held
  | .vm (.map .anywhere len _ _), (.ok raw : Except Error Nat) => some ⟨raw, len, false⟩
  | .vm (.map (.hint _) len _ _), (.ok raw : Except Error Nat) => some ⟨raw, len, false⟩
  | .vm (.allocAligned _ len), (.ok raw : Except Error Nat) => some ⟨raw, len, true⟩
  | _, _ => none

def grants (tr : List (Event Host)) : List Held := tr.filterMap fun e => grantOf e.1 e.2

/-- Only pages of `[a, a + len)` have changed. -/
def ChangesOnly (pg : PageSize) (a len : Nat) (s s' : Space) : Prop :=
  ∀ x, ¬ Touches pg.bytes a len (x / pg.bytes) →
    s'.protAt pg x = s.protAt pg x ∧ s'.mem x = s.mem x

/-- Pages outside of the ranges in `rs` are as they were, and those that were
    mapped were taken from the free pages. -/
structure Kept (pg : PageSize) (rs : List Held) (s s' : Space) : Prop where
  frame : ∀ x, (∀ r ∈ rs, ¬ Touches pg.bytes r.addr r.len (x / pg.bytes)) →
    s'.protAt pg x = s.protAt pg x ∧ s'.mem x = s.mem x
  free : ∀ r ∈ rs, r.allocated = false → s.Free pg r.addr r.len

section Steps

variable {pg : PageSize} {w : World} {s s' s'' : Space} {g rs : List Held}

theorem permits_touched {op : HostOp} {a len : Nat} (h : Permits g op)
    (ht : touched op = some (a, len)) : ∃ r ∈ g, r.Covers a len := by
  have hhead {a len : Nat} (h : ∃ r ∈ g.head?, r.Covers a len) : ∃ r ∈ g, r.Covers a len := by
    obtain ⟨r, hr, hc⟩ := h
    exact ⟨r, List.mem_of_mem_head? hr, hc⟩
  cases op with
  | vm op =>
    cases op with
    | map place len prot src =>
      cases place with
      | exact a =>
        obtain ⟨r, hr, -, hc⟩ := h
        cases ht
        exact ⟨r, List.mem_of_mem_head? hr, hc⟩
      | _ => cases ht
    | unmap a len =>
      cases ht
      exact ⟨_, h, Or.inr ⟨le_rfl, le_rfl⟩⟩
    | freeAligned a len =>
      cases ht
      exact ⟨_, h, Or.inr ⟨le_rfl, le_rfl⟩⟩
    | allocAligned align len => cases ht
    | protect a len prot =>
      cases ht
      exact hhead h
    | write a data =>
      cases ht
      exact hhead h
    | zero a len =>
      cases ht
      exact hhead h
    | icacheSync a len =>
      cases ht
      exact hhead h
  | _ => cases ht

theorem changesOnly_mapIn {a len prot : Nat} {fill : Nat → UInt8} :
    ChangesOnly pg a len s (s.mapIn pg a len prot fill) :=
  fun _ hx => ⟨if_neg hx, if_neg hx⟩

/-- A call changes at most the pages it acts on. -/
theorem changesOnly_after {op : HostOp} {r : op.Res} {a len : Nat}
    (ht : touched op = some (a, len)) (hans : s.Answers pg w op r) :
    ChangesOnly pg a len s (s.after pg w op r) := by
  have hsame : ChangesOnly pg a len s s := fun _ _ => ⟨rfl, rfl⟩
  have hbytes {mem : Nat → UInt8} (hmem : ∀ x, ¬ (a ≤ x ∧ x < a + len) → mem x = s.mem x) :
      ChangesOnly pg a len s { s with mem := mem } :=
    fun x hx => ⟨rfl, hmem x fun h => hx (touches_div h.1 h.2)⟩
  cases op with
  | vm op =>
    cases op with
    | map place len prot src =>
      cases place with
      | exact a =>
        cases ht
        cases r with
        | ok raw =>
          obtain rfl : raw = a := hans
          exact changesOnly_mapIn
        | error e => exact hsame
      | _ => cases ht
    | unmap a len =>
      cases ht
      cases r with
      | ok u => exact fun _ hx => ⟨if_neg hx, rfl⟩
      | error e => exact hsame
    | protect a len prot =>
      cases ht
      cases r with
      | ok u => exact fun _ hx => ⟨if_neg hx, rfl⟩
      | error e => exact hsame
    | write a data =>
      cases ht
      cases r with
      | ok u => exact hbytes fun _ hx => if_neg hx
      | error e => exact hsame
    | zero a len =>
      cases ht
      cases r with
      | ok u => exact hbytes fun _ hx => if_neg hx
      | error e => exact hsame
    | icacheSync a len => exact hsame
    | freeAligned a len => exact fun _ _ => ⟨rfl, rfl⟩
    | allocAligned align len => cases ht
  | _ => cases ht

/-- A call inside one of the ranges. -/
theorem Kept.within (h : Kept pg rs s s') {r : Held} {a len : Nat} (hr : r ∈ rs)
    (hc : r.Covers a len) (hch : ChangesOnly pg a len s' s'') : Kept pg rs s s'' := by
  refine ⟨?_, h.free⟩
  intro x hx
  have hnot : ¬ Touches pg.bytes a len (x / pg.bytes) := by
    intro ht
    rcases hc with rfl | ⟨hlo, hhi⟩
    · exact not_touches_zero ht
    · exact hx r hr (ht.mono pg.pos hlo hhi)
  obtain ⟨hprot, hmem⟩ := hch x hnot
  obtain ⟨hprot', hmem'⟩ := h.frame x hx
  exact ⟨hprot.trans hprot', hmem.trans hmem'⟩

/-- The first range, mapped on free pages. -/
theorem Kept.map (h : Kept pg [] s s') {a len prot : Nat} {fill : Nat → UInt8}
    (hfree : s'.Free pg a len) :
    Kept pg [⟨a, len, false⟩] s (s'.mapIn pg a len prot fill) := by
  have hsame (x : Nat) := h.frame x (by simp)
  constructor
  · intro x hx
    have hch : ChangesOnly pg a len s' (s'.mapIn pg a len prot fill) := changesOnly_mapIn
    obtain ⟨hprot, hmem⟩ := hch x (hx ⟨a, len, false⟩ (by simp))
    exact ⟨hprot.trans (hsame x).1, hmem.trans (hsame x).2⟩
  · intro r hr _ p ht
    obtain rfl := List.mem_singleton.mp hr
    obtain ⟨x, -, -, rfl⟩ := ht.exists pg.pos
    exact (hsame x).1.symm.trans (hfree _ ht)

/-- The first range, a heap block. -/
theorem Kept.alloc (h : Kept pg [] s s') {a len : Nat} {blocks : List (Nat × Nat)} :
    Kept pg [⟨a, len, true⟩] s { s' with blocks := blocks } := by
  refine ⟨fun x _ => h.frame x (by simp), ?_⟩
  intro r hr hnot
  obtain rfl := List.mem_singleton.mp hr
  cases hnot

/-- What the address space grants is what the protocol expects. -/
theorem granted_of_answers {op : HostOp} {r : op.Res} (h : s.Answers pg w op r) :
    Granted pg (2 ^ 64) op r := by
  cases op with
  | vm op =>
    cases op with
    | map place len prot src =>
      cases place with
      | exact a => trivial
      | anywhere =>
        cases r with
        | ok raw => exact ⟨h.1, h.2.1⟩
        | error e => trivial
      | hint a =>
        cases r with
        | ok raw => exact ⟨h.1, h.2.1⟩
        | error e => trivial
    | allocAligned align len =>
      cases r with
      | ok raw => exact ⟨h.1, h.2.1⟩
      | error e => trivial
    | _ => trivial
  | _ => trivial

theorem takes_asked (n : Notes) (room : Bool) : (n.asked room).takes = n.takes := by
  unfold Notes.asked
  split <;> rfl

/-- A call is granted a range, or holdings and count do not grow. -/
theorem grantOf_cases (n : Notes) (g : List Held) (op : HostOp) (r : op.Res) :
    (∃ R, grantOf op r = some R ∧ Takes op ∧ hold g op r = R :: g ∧
      (note n op r).takes = n.takes + 1) ∨
    (grantOf op r = none ∧ (∀ q ∈ hold g op r, q ∈ g) ∧ (note n op r).takes = n.takes) := by
  have herase (q : Held) : ∀ q' ∈ g.erase q, q' ∈ g := fun _ => List.mem_of_mem_erase
  cases op with
  | vm op =>
    cases op with
    | map place len prot src =>
      cases place with
      | exact a => exact Or.inr ⟨rfl, fun _ h => h, rfl⟩
      | anywhere =>
        cases r with
        | ok raw => exact Or.inl ⟨_, rfl, trivial, rfl, rfl⟩
        | error e => exact Or.inr ⟨rfl, fun _ h => h, rfl⟩
      | hint a =>
        cases r with
        | ok raw => exact Or.inl ⟨_, rfl, trivial, rfl, rfl⟩
        | error e => exact Or.inr ⟨rfl, fun _ h => h, rfl⟩
    | allocAligned align len =>
      cases r with
      | ok raw => exact Or.inl ⟨_, rfl, trivial, rfl, rfl⟩
      | error e => exact Or.inr ⟨rfl, fun _ h => h, rfl⟩
    | unmap a len =>
      cases r with
      | ok u => exact Or.inr ⟨rfl, herase _, rfl⟩
      | error e => exact Or.inr ⟨rfl, fun _ h => h, rfl⟩
    | freeAligned a len => exact Or.inr ⟨rfl, herase _, rfl⟩
    | _ => exact Or.inr ⟨rfl, fun _ h => h, rfl⟩
  | openPath path => cases r <;> exact Or.inr ⟨rfl, fun _ h => h, rfl⟩
  | tryReserve k => exact Or.inr ⟨rfl, fun _ h => h, takes_asked n r⟩
  | _ => exact Or.inr ⟨rfl, fun _ h => h, rfl⟩

/-- The call that is granted the first range. -/
theorem Kept.grant (h : Kept pg [] s s') {op : HostOp} {r : op.Res} {R : Held}
    (hR : grantOf op r = some R) (hans : s'.Answers pg w op r) :
    Kept pg [R] s (s'.after pg w op r) := by
  cases op with
  | vm op =>
    cases op with
    | map place len prot src =>
      cases place with
      | exact a => cases hR
      | anywhere =>
        cases r with
        | ok raw =>
          cases hR
          exact h.map hans.2.2
        | error e => cases hR
      | hint a =>
        cases r with
        | ok raw =>
          cases hR
          exact h.map hans.2.2
        | error e => cases hR
    | allocAligned align len =>
      cases r with
      | ok raw =>
        cases hR
        exact h.alloc
      | error e => cases hR
    | _ => cases hR
  | _ => cases hR

/-- Every other call changes nothing. -/
theorem after_still {op : HostOp} {r : op.Res} (ht : touched op = none) (hR : grantOf op r = none) :
    s.after pg w op r = s := by
  cases op with
  | vm op =>
    cases op with
    | map place len prot src =>
      cases place with
      | exact a => cases ht
      | _ => cases r with
        | ok raw => cases hR
        | error e => rfl
    | allocAligned align len =>
      cases r with
      | ok raw => cases hR
      | error e => rfl
    | _ => cases ht
  | _ => rfl

/-! ### The invariant -/

/-- What a load holds was granted to it, at most once, and only there has
    anything changed. -/
structure KeepsInside (pg : PageSize) (s : Space) (g : List Held)
    (st : (Space × Notes) × List Held) : Prop where
  takes : st.1.2.takes = st.2.length
  once : st.2.length ≤ 1
  held : ∀ r ∈ g, r ∈ st.2
  kept : Kept pg st.2 s st.1.1

def granting (rs : List Held) (op : HostOp) (r : op.Res) : List Held :=
  rs ++ (grantOf op r).toList

theorem foldl_granting (tr : List (Event Host)) (rs : List Held) :
    tr.foldl (fun rs e => granting rs e.1 e.2) rs = rs ++ grants tr := by
  induction tr generalizing rs with
  | nil => simp [grants]
  | cons e tr ih =>
    rw [List.foldl_cons, ih, granting, grants, grants, List.filterMap_cons]
    cases grantOf e.1 e.2 <;> simp

/-- One call of a load. -/
theorem KeepsInside.step {st st' : (Space × Notes) × List Held} {op : HostOp} {r : op.Res}
    (h : KeepsInside pg s g st) (hp : Permits g op) (hpre : notedPre pg 0 st.1 op)
    (hop : noted pg w st.1 op r st'.1) (hrs : st'.2 = granting st.2 op r) :
    KeepsInside pg s (hold g op r) st' := by
  obtain ⟨⟨s₁, n₁⟩, rs⟩ := st
  obtain ⟨⟨s₂, n₂⟩, rs'⟩ := st'
  obtain ⟨⟨hans, hs₂⟩, hn₂⟩ := hop
  simp only at hs₂ hn₂ hrs
  subst hs₂ hn₂ hrs
  rcases grantOf_cases n₁ g op r with ⟨R, hR, htakes, hhold, hcount⟩ | ⟨hR, hhold, hcount⟩
  · have hnil : rs = [] :=
      List.eq_nil_of_length_eq_zero (Nat.le_zero.mp (h.takes.symm.trans_le (hpre.2 htakes)))
    subst hnil
    have hg : g = [] := List.eq_nil_iff_forall_not_mem.mpr fun q hq => by simpa using h.held q hq
    have hkept : Kept pg [] s s₁ := h.kept
    have htake : n₁.takes = 0 := h.takes
    simp only [granting, hR, Option.toList_some, List.nil_append]
    refine ⟨by simp [hcount, htake], le_rfl, ?_, hkept.grant hR hans⟩
    rw [hhold, hg]
    exact fun _ hq => hq
  · simp only [granting, hR, Option.toList_none, List.append_nil]
    refine ⟨hcount.trans h.takes, h.once, fun q hq => h.held q (hhold q hq), ?_⟩
    cases ht : touched op with
    | none =>
      rw [after_still ht hR]
      exact h.kept
    | some range =>
      obtain ⟨q, hq, hc⟩ := permits_touched hp ht
      exact h.kept.within (h.held q hq) hc (changesOnly_after ht hans)

end Steps

/-- The invariant holds after any part of any run of `load`, and what is left of
    it still follows the reservation protocol. -/
theorem load_keepsInside {b : Build} {image : Image} {w : World} {src : Source} {fd : Option Int}
    {s s' : Space} {tr : List (Event Host)} {q : Prog Host Error Loaded}
    (hv : image.Valid b.page) (hrun : Reaches (step b.page w) s (load b image src fd) tr s' q) :
    ∃ g, KeepsInside b.page s g ((s', notesOf (.opened ⟨src, fd⟩) tr), grants tr) ∧
      wp (Protocol b.page (2 ^ 64)) Permits q
        (post (fun g' l => g' = [heldBy l] ∧ Placed b.page image l.plan)
          (fun g' _ => AtMostOneMore [] g') (2 ^ 64 ≤ 2 ^ 64)) g := by
  have hwp := wp_load (n := .opened ⟨src, fd⟩) (o := ⟨src, fd⟩) (k := 0) (w := w) (s := s) hv rfl
    le_rfl src fd
  have hnoted := (hrun.recorded note (.opened ⟨src, fd⟩)).checked hwp
  have hinit : KeepsInside b.page s [] ((s, .opened ⟨src, fd⟩), []) :=
    ⟨rfl, Nat.zero_le 1, by simp, fun _ _ => ⟨rfl, rfl⟩, by simp⟩
  obtain ⟨g, hinside, hq⟩ := wp_simulates (G := Protocol b.page (2 ^ 64)) (g := [])
    (J := KeepsInside b.page s)
    (by
      rintro g st op r st' hJ hp ⟨⟨hpre, hop⟩, hrs⟩
      exact ⟨hold g op r, ⟨granted_of_answers hop.1.1, rfl⟩, hJ.step hp hpre hop hrs⟩)
    (fun _ _ _ _ h => h.elim) hinit (Reservation.wp_load b hv src fd)
    ((hnoted.recorded granting []).interleaves fun _ _ => False)
  rw [foldl_granting, List.nil_append] at hinside
  exact ⟨g, hinside, hq⟩

/-- A range that is held is the only one granted. -/
theorem KeepsInside.grants_eq {pg : PageSize} {s : Space} {g rs : List Held}
    {st : Space × Notes} (h : KeepsInside pg s g (st, rs)) {R : Held} (hR : R ∈ g) : rs = [R] := by
  have hmem : R ∈ rs := h.held R hR
  obtain ⟨R', rfl⟩ : ∃ R', rs = [R'] := List.length_eq_one_iff.mp
    (le_antisymm h.once (List.length_pos_of_mem hmem))
  rw [List.mem_singleton.mp hmem]

/-- **A load stays inside what it was granted.**  After any part of any run of
    `load`, successful or not, at most one range has been granted.  The next call
    writes only bytes that are writable at that moment, and the bytes it acts on lie
    in the one range granted.  Pages outside of it are as they were before the load;
    a range that was mapped was free before, so nothing has been evicted. -/
theorem load_stays_inside {arch : Arch} {b : Build} {image : Image} {w : World} {src : Source}
    {fd : Option Int} {s s' : Space} {tr : List (Event Host)} {q : Prog Host Error Loaded}
    (himage : Accepted arch b.page image)
    (hrun : Reaches (step b.page w) s (load b image src fd) tr s' q) :
    (grants tr).length ≤ 1 ∧
    (∀ op k, q = .call op k → WritesAllowed b.page s' op ∧
      ∀ a len, touched op = some (a, len) → ∃ R, grants tr = [R] ∧ R.Covers a len) ∧
    (∀ x, (∀ R ∈ grants tr, ¬ Touches b.pageSize R.addr R.len (x / b.pageSize)) →
      s'.protAt b.page x = s.protAt b.page x ∧ s'.mem x = s.mem x) ∧
    ∀ R ∈ grants tr, R.allocated = false → s.Free b.page R.addr R.len := by
  have hv := himage.valid
  have hnext := wp_reaches (wp_load (k := 0) hv rfl le_rfl src fd)
    (hrun.recorded note (.opened ⟨src, fd⟩))
  obtain ⟨g, hinside, hq⟩ := load_keepsInside hv hrun
  refine ⟨hinside.once, ?_, hinside.kept.frame, hinside.kept.free⟩
  rintro op k rfl
  refine ⟨hnext.1.1, ?_⟩
  intro a len ht
  obtain ⟨R, hR, hc⟩ := permits_touched hq.1 ht
  exact ⟨R, hinside.grants_eq hR, hc⟩

/-- The small program is granted four pages, and the page behind them is as it
    was. -/
theorem small_load_inside :
    grants (smallRun true).1 = [⟨0x10000, 0x4000, false⟩] ∧
      (smallRun true).2.1.protAt page4K 0x14000 = none := by
  have hgrants : grants (smallRun true).1 = [⟨0x10000, 0x4000, false⟩] := by decide +kernel
  have h := load_stays_inside (b := ⟨.x86_64, page4K, true⟩)
    (accepted_of_parseSlice parse_smallElf) (smallRun_reaches true)
  refine ⟨hgrants, (h.2.2.1 0x14000 ?_).1.trans (by decide +kernel)⟩
  rw [hgrants]
  decide +kernel

end ElfLoader.AddressSpace
