import ElfLoader.Containment
import ElfLoader.Pool

/-!
# Loads that do not see each other

Programs that keep to the reservation protocol share one address space.  Each has a view of
its own, an address space with nothing in it but the ranges that it holds.  Whatever the
order of the calls, every program runs as it would run in its view, and the address space is
made of the views and of what was there before.
-/

namespace ElfLoader.AddressSpace

open ElfLoader Outcome Prog Elf Layout Loader Program Reservation

/-- An address space with nothing in it. -/
def nothing : Space := ⟨fun _ => none, fun _ => 0, []⟩

/-- The calls of a load that maps its files. -/
def MapsOnly : HostOp → Prop
  | .vm (.allocAligned ..) => False
  | .vm (.freeAligned ..) => False
  | _ => True

/-- A page of one of the ranges. -/
def OwnPage (pg : PageSize) (held : List Held) (p : Nat) : Prop :=
  ∃ r ∈ held, Touches pg.bytes r.addr r.len p

/-- No page is in both ranges. -/
def NoCommonPage (pg : PageSize) (r r' : Held) : Prop :=
  ∀ p, Touches pg.bytes r.addr r.len p → ¬ Touches pg.bytes r'.addr r'.len p

/-- What a program knows: the ranges it holds, and its view. -/
abbrev Account := List Held × Space

def accountStep (pg : PageSize) (H : Handler Host Space) : Handler Host Account :=
  fun a op r a' => Protocol pg (2 ^ 64) a.1 op r a'.1 ∧ H a.2 op r a'.2

def AccountPre (a : Account) (op : HostOp) : Prop := Permits a.1 op ∧ MapsOnly op

variable {ι : Type}

/-- The stacks of the programs are in memory that is mapped, and have no byte in common. -/
structure Stacks (pg : PageSize) (stack : ι → Nat → Prop) (s : Space) : Prop where
  mapped : ∀ i x, stack i x → s.protAt pg x ≠ none
  apart : ∀ i j x, stack i x → stack j x → i = j

/-- Nobody has a stack. -/
def noStack (_ : ι) (_ : Nat) : Prop := False

theorem stacks_noStack (pg : PageSize) (s : Space) : Stacks pg (noStack : ι → Nat → Prop) s :=
  ⟨fun _ _ h => h.elim, fun _ _ _ h => h.elim⟩

/-- How the accounts make up the address space. -/
structure Shares (pg : PageSize) (stack : ι → Nat → Prop) (s₀ : Space) (a : ι → Account)
    (s : Space) : Prop where
  placed : Stacks pg stack s₀
  /-- What is held is mapped, and was free. -/
  mapped : ∀ i p, OwnPage pg (a i).1 p → s.prot p ≠ none ∧ s₀.prot p = none
  prot : ∀ i p, OwnPage pg (a i).1 p → (a i).2.prot p = s.prot p
  mem : ∀ i x, OwnPage pg (a i).1 (x / pg.bytes) → (a i).2.mem x = s.mem x
  empty : ∀ i p, ¬ OwnPage pg (a i).1 p → (a i).2.prot p = none
  apart : ∀ i, (a i).1.Pairwise (NoCommonPage pg)
  disjoint : ∀ i j p, OwnPage pg (a i).1 p → OwnPage pg (a j).1 p → i = j
  onStack : ∀ i x, stack i x → (a i).2.mem x = s.mem x
  rest : ∀ p, (∀ i, ¬ OwnPage pg (a i).1 p) → s.prot p = s₀.prot p
  restMem : ∀ x, (∀ i, ¬ OwnPage pg (a i).1 (x / pg.bytes)) → (∀ i, ¬ stack i x) →
    s₀.prot (x / pg.bytes) ≠ none → s.mem x = s₀.mem x

/-- In the beginning nothing is held, and the stacks are what they are. -/
theorem shares_start {pg : PageSize} {stack : ι → Nat → Prop} {s v : Space}
    (hplaced : Stacks pg stack s) (hempty : ∀ p, v.prot p = none)
    (hstacks : ∀ i x, stack i x → v.mem x = s.mem x) :
    Shares pg stack s (fun _ : ι => ([], v)) s := by
  have hnone (p : Nat) : ¬ OwnPage pg [] p := fun ⟨_, hr, _⟩ => nomatch hr
  constructor
  · exact hplaced
  · exact fun _ p h => absurd h (hnone p)
  · exact fun _ p h => absurd h (hnone p)
  · exact fun _ x h => absurd h (hnone _)
  · exact fun _ p _ => hempty p
  · exact fun _ => List.Pairwise.nil
  · exact fun _ _ p h => absurd h (hnone p)
  · exact hstacks
  · exact fun _ _ => rfl
  · exact fun _ _ _ _ => rfl

/-- What one program does to the address space, seen from its account: it changes pages of
    `T` alone, which it holds or which are free, and those that it holds afterwards are the
    same in its view. -/
structure Turn (pg : PageSize) (a a' : Account) (s s' : Space) (T : Nat → Prop) : Prop where
  before : ∀ p, T p → OwnPage pg a.1 p ∨ s.prot p = none
  after : ∀ p, T p →
    (OwnPage pg a'.1 p ∧ a'.2.prot p = s'.prot p ∧ s'.prot p ≠ none) ∨
      (¬ OwnPage pg a'.1 p ∧ a'.2.prot p = none ∧ s'.prot p = none)
  afterMem : ∀ x, T (x / pg.bytes) → OwnPage pg a'.1 (x / pg.bytes) → a'.2.mem x = s'.mem x
  own : ∀ p, ¬ T p → (OwnPage pg a'.1 p ↔ OwnPage pg a.1 p)
  off : ∀ p, ¬ T p → s'.prot p = s.prot p ∧ a'.2.prot p = a.2.prot p
  offMem : ∀ x, ¬ T (x / pg.bytes) → s'.mem x = s.mem x ∧ a'.2.mem x = a.2.mem x
  apart : a'.1.Pairwise (NoCommonPage pg)

namespace Shares

variable {pg : PageSize} {stack : ι → Nat → Prop} {s₀ s s' : Space} {a : ι → Account} {i : ι}
  {a' : Account} {T : Nat → Prop}

/-- A page that a program may change is not held by another one. -/
theorem not_own (h : Shares pg stack s₀ a s) (ht : Turn pg (a i) a' s s' T) {j : ι} (hj : j ≠ i)
    {p : Nat} (hp : OwnPage pg (a j).1 p) : ¬ T p := by
  intro hT
  rcases ht.before p hT with hown | hfree
  · exact hj (h.disjoint j i p hp hown)
  · exact (h.mapped j p hp).1 hfree

/-- A page that a program may change was free at the beginning. -/
theorem was_free (h : Shares pg stack s₀ a s) (ht : Turn pg (a i) a' s s' T) {p : Nat} (hT : T p) :
    s₀.prot p = none := by
  rcases ht.before p hT with hown | hfree
  · exact (h.mapped i p hown).2
  · rw [← h.rest p fun j hj => (h.mapped j p hj).1 hfree]
    exact hfree

/-- **A turn of one program** leaves the accounts in step with the address space. -/
theorem turn [DecidableEq ι] (h : Shares pg stack s₀ a s) (ht : Turn pg (a i) a' s s' T) :
    Shares pg stack s₀ (Function.update a i a') s' := by
  have hself : Function.update a i a' i = a' := Function.update_self ..
  have hother (j : ι) (hj : j ≠ i) : Function.update a i a' j = a j := Function.update_of_ne hj ..
  have hold : ∀ p, ¬ T p → (∀ j, ¬ OwnPage pg (Function.update a i a' j).1 p) →
      ∀ j, ¬ OwnPage pg (a j).1 p := by
    intro p hT hp j hj
    by_cases hji : j = i
    · subst hji
      apply hp j
      rw [hself]
      exact (ht.own p hT).mpr hj
    · apply hp j
      rwa [hother j hji]
  constructor
  · exact h.placed
  · intro j p hp
    by_cases hj : j = i
    · subst hj
      rw [hself] at hp
      by_cases hT : T p
      · rcases ht.after p hT with ⟨-, -, hmapped⟩ | ⟨hnot, -⟩
        · exact ⟨hmapped, h.was_free ht hT⟩
        · exact absurd hp hnot
      · rw [(ht.off p hT).1]
        exact h.mapped j p ((ht.own p hT).mp hp)
    · rw [hother j hj] at hp
      rw [(ht.off p (h.not_own ht hj hp)).1]
      exact h.mapped j p hp
  · intro j p hp
    by_cases hj : j = i
    · subst hj
      rw [hself] at hp ⊢
      by_cases hT : T p
      · rcases ht.after p hT with ⟨-, hsame, -⟩ | ⟨hnot, -⟩
        · exact hsame
        · exact absurd hp hnot
      · rw [(ht.off p hT).1, (ht.off p hT).2]
        exact h.prot j p ((ht.own p hT).mp hp)
    · rw [hother j hj] at hp ⊢
      rw [(ht.off p (h.not_own ht hj hp)).1]
      exact h.prot j p hp
  · intro j x hp
    by_cases hj : j = i
    · subst hj
      rw [hself] at hp ⊢
      by_cases hT : T (x / pg.bytes)
      · exact ht.afterMem x hT hp
      · rw [(ht.offMem x hT).1, (ht.offMem x hT).2]
        exact h.mem j x ((ht.own _ hT).mp hp)
    · rw [hother j hj] at hp ⊢
      rw [(ht.offMem x (h.not_own ht hj hp)).1]
      exact h.mem j x hp
  · intro j p hp
    by_cases hj : j = i
    · subst hj
      rw [hself] at hp ⊢
      by_cases hT : T p
      · rcases ht.after p hT with ⟨hown, -⟩ | ⟨-, hnone, -⟩
        · exact absurd hown hp
        · exact hnone
      · rw [(ht.off p hT).2]
        exact h.empty j p fun hown => hp ((ht.own p hT).mpr hown)
    · rw [hother j hj] at hp ⊢
      exact h.empty j p hp
  · intro j
    by_cases hj : j = i
    · subst hj
      rw [hself]
      exact ht.apart
    · rw [hother j hj]
      exact h.apart j
  · have hone (j : ι) (hj : j ≠ i) (p : Nat) (hown : OwnPage pg a'.1 p) :
        ¬ OwnPage pg (a j).1 p := by
      intro hp
      have hT := h.not_own ht hj hp
      exact hj (h.disjoint j i p hp ((ht.own p hT).mp hown))
    intro j j' p hp hp'
    by_cases hj : j = i
    · subst hj
      rw [hself] at hp
      by_cases hj' : j' = j
      · exact hj'.symm
      · rw [hother j' hj'] at hp'
        exact absurd hp' (hone j' hj' p hp)
    · rw [hother j hj] at hp
      by_cases hj' : j' = i
      · subst hj'
        rw [hself] at hp'
        exact absurd hp (hone j hj p hp')
      · rw [hother j' hj'] at hp'
        exact h.disjoint j j' p hp hp'
  · intro j x hx
    have hT : ¬ T (x / pg.bytes) := fun hT => h.placed.mapped j x hx (h.was_free ht hT)
    rw [(ht.offMem x hT).1]
    by_cases hj : j = i
    · subst hj
      rw [hself, (ht.offMem x hT).2]
      exact h.onStack j x hx
    · rw [hother j hj]
      exact h.onStack j x hx
  · intro p hp
    by_cases hT : T p
    · rcases ht.after p hT with ⟨hown, -⟩ | ⟨-, -, hnone⟩
      · exact absurd (hself.symm ▸ hown) (hp i)
      · rw [hnone, h.was_free ht hT]
    · rw [(ht.off p hT).1]
      exact h.rest p (hold p hT hp)
  · intro x hp hx hmapped
    by_cases hT : T (x / pg.bytes)
    · exact absurd (h.was_free ht hT) hmapped
    · rw [(ht.offMem x hT).1]
      exact h.restMem x (hold _ hT hp) hx hmapped

/-- A program writes its stack, which nobody else sees. -/
theorem written [DecidableEq ι] (h : Shares pg stack s₀ a s) {b : Nat} {data : Bytes}
    (hin : ∀ x, b ≤ x → x < b + data.length → stack i x) :
    Shares pg stack s₀ (Function.update a i ((a i).1, (a i).2.written b data))
      (s.written b data) := by
  have hheld (j : ι) : (Function.update a i ((a i).1, (a i).2.written b data) j).1 = (a j).1 := by
    by_cases hj : j = i
    · subst hj
      rw [Function.update_self]
    · rw [Function.update_of_ne hj]
  have hview (j : ι) :
      (Function.update a i ((a i).1, (a i).2.written b data) j).2.prot = (a j).2.prot := by
    by_cases hj : j = i
    · subst hj
      rw [Function.update_self]
      rfl
    · rw [Function.update_of_ne hj]
  have hoff {x : Nat} (v : Space) (hx : ¬ stack i x) : (v.written b data).mem x = v.mem x :=
    if_neg fun hwritten => hx (hin x hwritten.1 hwritten.2)
  have hsame {j : ι} {x : Nat} (hx : ¬ stack i x) :
      (Function.update a i ((a i).1, (a i).2.written b data) j).2.mem x = (a j).2.mem x := by
    by_cases hj : j = i
    · subst hj
      rw [Function.update_self]
      exact hoff _ hx
    · rw [Function.update_of_ne hj]
  constructor
  · exact h.placed
  · intro j p hp
    rw [hheld] at hp
    exact h.mapped j p hp
  · intro j p hp
    rw [hheld] at hp
    rw [hview]
    exact h.prot j p hp
  · intro j x hp
    rw [hheld] at hp
    -- no stack is in a page that somebody holds
    have hx : ¬ stack i x := fun hx => h.placed.mapped i x hx (h.mapped j _ hp).2
    rw [hsame hx, hoff s hx]
    exact h.mem j x hp
  · intro j p hp
    rw [hheld] at hp
    rw [hview]
    exact h.empty j p hp
  · intro j
    rw [hheld]
    exact h.apart j
  · intro j j' p hp hp'
    rw [hheld] at hp hp'
    exact h.disjoint j j' p hp hp'
  · intro j x hx
    by_cases hi : stack i x
    · have hj := h.placed.apart j i x hx hi
      subst hj
      rw [Function.update_self]
      by_cases hwritten : b ≤ x ∧ x < b + data.length
      · exact (if_pos hwritten).trans (if_pos hwritten).symm
      · exact (if_neg hwritten).trans ((h.onStack j x hx).trans (if_neg hwritten).symm)
    · rw [hsame hi, hoff s hi]
      exact h.onStack j x hx
  · intro p hp
    exact h.rest p fun j hj => hp j (by rwa [hheld])
  · intro x hp hx hmapped
    rw [hoff s (hx i)]
    exact h.restMem x (fun j hj => hp j (by rwa [hheld])) hx hmapped

end Shares

/-! ### The calls -/

section Turns

variable {pg : PageSize} {w : World} {a : Account} {s s' v : Space}

/-- What `Shares` says about one account. -/
structure Sees (pg : PageSize) (a : Account) (s : Space) : Prop where
  mapped : ∀ p, OwnPage pg a.1 p → s.prot p ≠ none
  prot : ∀ p, OwnPage pg a.1 p → a.2.prot p = s.prot p
  mem : ∀ x, OwnPage pg a.1 (x / pg.bytes) → a.2.mem x = s.mem x
  empty : ∀ p, ¬ OwnPage pg a.1 p → a.2.prot p = none
  apart : a.1.Pairwise (NoCommonPage pg)

theorem Shares.sees {stack : ι → Nat → Prop} {s₀ : Space} {as : ι → Account}
    (h : Shares pg stack s₀ as s) (i : ι) : Sees pg (as i) s :=
  ⟨fun p hp => (h.mapped i p hp).1, h.prot i, h.mem i, h.empty i, h.apart i⟩

/-- Nothing is changed. -/
theorem Sees.turn_still (h : Sees pg a s) : Turn pg a a s s fun _ => False where
  before := fun _ hT => hT.elim
  after := fun _ hT => hT.elim
  afterMem := fun _ hT => hT.elim
  own := fun _ _ => Iff.rfl
  off := fun _ _ => ⟨rfl, rfl⟩
  offMem := fun _ _ => ⟨rfl, rfl⟩
  apart := h.apart

/-- A change inside of what is held, the same in the view. -/
theorem Sees.turn_inside (h : Sees pg a s) {T : Nat → Prop} (hT : ∀ p, T p → OwnPage pg a.1 p)
    (hon : ∀ p, T p → v.prot p = s'.prot p ∧ s'.prot p ≠ none)
    (honMem : ∀ x, T (x / pg.bytes) → v.mem x = s'.mem x)
    (hoff : ∀ p, ¬ T p → s'.prot p = s.prot p ∧ v.prot p = a.2.prot p)
    (hoffMem : ∀ x, ¬ T (x / pg.bytes) → s'.mem x = s.mem x ∧ v.mem x = a.2.mem x) :
    Turn pg a (a.1, v) s s' T where
  before := fun p hp => Or.inl (hT p hp)
  after := fun p hp => Or.inl ⟨hT p hp, hon p hp⟩
  afterMem := fun x hp _ => honMem x hp
  own := fun _ _ => Iff.rfl
  off := hoff
  offMem := hoffMem
  apart := h.apart

/-- A mapping in pages that are free or held. -/
theorem mapIn_agree {raw len prot : Nat} {fill : Nat → UInt8} {p : Nat}
    (hp : Touches pg.bytes raw len p) :
    (v.mapIn pg raw len prot fill).prot p = (s.mapIn pg raw len prot fill).prot p ∧
      (s.mapIn pg raw len prot fill).prot p ≠ none := by
  change onPages _ _ _ _ _ p = onPages _ _ _ _ _ p ∧ onPages _ _ _ _ _ p ≠ none
  rw [onPages_of hp, onPages_of hp]
  exact ⟨rfl, Option.some_ne_none prot⟩

theorem mapIn_agreeMem {raw len prot : Nat} {fill : Nat → UInt8} {x : Nat}
    (hx : Touches pg.bytes raw len (x / pg.bytes)) :
    (v.mapIn pg raw len prot fill).mem x = (s.mapIn pg raw len prot fill).mem x :=
  (if_pos hx).trans (if_pos hx).symm

theorem covers_own {held : List Held} {r : Held} (hr : r ∈ held) {b len p : Nat}
    (hc : r.Covers b len) (hp : Touches pg.bytes b len p) : OwnPage pg held p := by
  rcases hc with rfl | ⟨hlo, hhi⟩
  · exact absurd hp not_touches_zero
  · exact ⟨r, hr, hp.mono pg.pos hlo hhi⟩

theorem Sees.turn_exact (h : Sees pg a s) {r : Held} (hr : r ∈ a.1) {b len : Nat}
    (hc : r.Covers b len) (prot : Nat) (fill : Nat → UInt8) :
    Turn pg a (a.1, a.2.mapIn pg b len prot fill) s (s.mapIn pg b len prot fill)
      (Touches pg.bytes b len) := by
  apply h.turn_inside
  · exact fun p hp => covers_own hr hc hp
  · exact fun p hp => mapIn_agree hp
  · exact fun x hx => mapIn_agreeMem hx
  · exact fun p hp => ⟨onPages_of_not hp, onPages_of_not hp⟩
  · exact fun x hx => ⟨if_neg hx, if_neg hx⟩

theorem Sees.turn_protect (h : Sees pg a s) {r : Held} (hr : r ∈ a.1) {b len : Nat}
    (hc : r.Covers b len) (prot : Nat) :
    Turn pg a (a.1, a.2.withProt pg b len prot) s (s.withProt pg b len prot)
      (Touches pg.bytes b len) := by
  apply h.turn_inside
  · exact fun p hp => covers_own hr hc hp
  · intro p hp
    have hown := covers_own hr hc hp
    have hview : (a.2.withProt pg b len prot).prot p = (a.2.prot p).map fun _ => prot := if_pos hp
    have hspace : (s.withProt pg b len prot).prot p = (s.prot p).map fun _ => prot := if_pos hp
    rw [hview, hspace, h.prot p hown]
    refine ⟨rfl, ?_⟩
    intro hnone
    exact h.mapped p hown (Option.map_eq_none_iff.mp hnone)
  · exact fun x hx => h.mem x (covers_own hr hc hx)
  · exact fun p hp => ⟨if_neg hp, if_neg hp⟩
  · exact fun _ _ => ⟨rfl, rfl⟩

/-- Bytes stored inside of what is held. -/
theorem Sees.turn_store (h : Sees pg a s) {r : Held} (hr : r ∈ a.1) {b len : Nat}
    (hc : r.Covers b len) (f : Nat → UInt8) :
    Turn pg a (a.1, { a.2 with mem := fun x => if b ≤ x ∧ x < b + len then f x else a.2.mem x }) s
      { s with mem := fun x => if b ≤ x ∧ x < b + len then f x else s.mem x }
      (Touches pg.bytes b len) := by
  apply h.turn_inside
  · exact fun p hp => covers_own hr hc hp
  · intro p hp
    have hown := covers_own hr hc hp
    exact ⟨h.prot p hown, h.mapped p hown⟩
  · intro x hx
    by_cases hin : b ≤ x ∧ x < b + len
    · exact (if_pos hin).trans (if_pos hin).symm
    · exact (if_neg hin).trans ((h.mem x (covers_own hr hc hx)).trans (if_neg hin).symm)
  · exact fun _ _ => ⟨rfl, rfl⟩
  · intro x hx
    have hout : ¬ (b ≤ x ∧ x < b + len) := fun hin => hx (touches_div hin.1 hin.2)
    exact ⟨if_neg hout, if_neg hout⟩

/-- A new range, on free pages. -/
theorem Sees.turn_reserve (h : Sees pg a s) {raw len : Nat} (hfree : s.Free pg raw len)
    (prot : Nat) (fill : Nat → UInt8) :
    Turn pg a (⟨raw, len, false⟩ :: a.1, a.2.mapIn pg raw len prot fill) s
      (s.mapIn pg raw len prot fill) (Touches pg.bytes raw len) where
  before := fun p hp => Or.inr (hfree p hp)
  after := fun p hp => Or.inl ⟨⟨_, List.mem_cons_self, hp⟩, mapIn_agree hp⟩
  afterMem := fun x hx _ => mapIn_agreeMem hx
  own := by
    intro p hp
    constructor
    · rintro ⟨r, hr, ht⟩
      rcases List.mem_cons.mp hr with rfl | hr
      · exact absurd ht hp
      · exact ⟨r, hr, ht⟩
    · rintro ⟨r, hr, ht⟩
      exact ⟨r, List.mem_cons_of_mem _ hr, ht⟩
  off := fun p hp => ⟨onPages_of_not hp, onPages_of_not hp⟩
  offMem := fun x hx => ⟨if_neg hx, if_neg hx⟩
  apart := by
    refine List.pairwise_cons.mpr ⟨?_, h.apart⟩
    intro r hr p hp ht
    exact h.mapped p ⟨r, hr, ht⟩ (hfree p hp)

/-- A range given back. -/
theorem Sees.turn_release (h : Sees pg a s) {b len : Nat} (hr : ⟨b, len, false⟩ ∈ a.1) :
    Turn pg a (a.1.erase ⟨b, len, false⟩, a.2.unmapped pg b len) s (s.unmapped pg b len)
      (Touches pg.bytes b len) := by
  have hperm := List.perm_cons_erase hr
  have hsymm : ∀ {r r' : Held}, NoCommonPage pg r r' → NoCommonPage pg r' r :=
    fun hno p hp hp' => hno p hp' hp
  have hpair : (⟨b, len, false⟩ :: a.1.erase ⟨b, len, false⟩).Pairwise (NoCommonPage pg) :=
    (hperm.pairwise_iff hsymm).mp h.apart
  rw [List.pairwise_cons] at hpair
  constructor
  · exact fun p hp => Or.inl ⟨_, hr, hp⟩
  · intro p hp
    refine Or.inr ⟨?_, onPages_of hp, onPages_of hp⟩
    rintro ⟨r', hr', ht⟩
    exact hpair.1 r' hr' p hp ht
  · rintro x hx ⟨r', hr', ht⟩
    exact absurd ht (hpair.1 r' hr' _ hx)
  · intro p hp
    constructor
    · rintro ⟨r', hr', ht⟩
      exact ⟨r', List.mem_of_mem_erase hr', ht⟩
    · rintro ⟨r', hr', ht⟩
      rcases List.mem_cons.mp (hperm.mem_iff.mp hr') with rfl | hr'
      · exact absurd ht hp
      · exact ⟨r', hr', ht⟩
  · exact fun p hp => ⟨onPages_of_not hp, onPages_of_not hp⟩
  · exact fun _ _ => ⟨rfl, rfl⟩
  · exact hpair.2

/-- What is free is free in every view. -/
theorem Sees.free (h : Sees pg a s) {raw len : Nat} (hfree : s.Free pg raw len) :
    a.2.Free pg raw len :=
  fun p hp => h.empty p fun hown => h.mapped p hown (hfree p hp)

/-- An answer of the address space is an answer of every view. -/
theorem Sees.answers (h : Sees pg a s) {op : HostOp} {r : op.Res} (hmaps : MapsOnly op)
    (hans : s.Answers pg w op r) : a.2.Answers pg w op r := by
  cases op with
  | vm op =>
    cases op with
    | map place len prot src =>
      cases place with
      | anywhere =>
        cases r with
        | ok raw => exact ⟨hans.1, hans.2.1, h.free hans.2.2⟩
        | error e => trivial
      | hint b =>
        cases r with
        | ok raw => exact ⟨hans.1, hans.2.1, h.free hans.2.2⟩
        | error e => trivial
      | exact b =>
        cases r with
        | ok raw => exact hans
        | error e => trivial
    | unmap b len =>
      cases r with
      | ok u => trivial
      | error e => exact hans
    | protect b len prot =>
      cases r with
      | ok u => exact hans
      | error e => exact hans
    | allocAligned align len => exact hmaps.elim
    | _ => trivial
  | openPath path =>
    cases r with
    | ok opened => exact hans
    | error e => trivial
  | readExactAt src off n =>
    cases r with
    | ok buf => exact hans
    | error e => trivial
  | _ => trivial

/-- **Every call that the protocol permits** is a turn of its program. -/
theorem Sees.turn (h : Sees pg a s) {op : HostOp} {r : op.Res} (hpre : AccountPre a op)
    (hans : s.Answers pg w op r) :
    ∃ T, Turn pg a (hold a.1 op r, a.2.after pg w op r) s (s.after pg w op r) T := by
  rcases hpre with ⟨hp, hmaps⟩
  cases op with
  | vm op =>
    cases op with
    | map place len prot src =>
      cases place with
      | anywhere =>
        cases r with
        | ok raw => exact ⟨_, h.turn_reserve hans.2.2 prot _⟩
        | error e => exact ⟨_, h.turn_still⟩
      | hint b =>
        cases r with
        | ok raw => exact ⟨_, h.turn_reserve hans.2.2 prot _⟩
        | error e => exact ⟨_, h.turn_still⟩
      | exact b =>
        rcases hp with ⟨r', hr', -, hc⟩
        cases r with
        | ok raw =>
          have hraw : raw = b := hans
          subst hraw
          exact ⟨_, h.turn_exact (List.mem_of_mem_head? hr') hc prot _⟩
        | error e => exact ⟨_, h.turn_still⟩
    | unmap b len =>
      cases r with
      | ok u => exact ⟨_, h.turn_release hp⟩
      | error e => exact ⟨_, h.turn_still⟩
    | protect b len prot =>
      rcases hp with ⟨r', hr', hc⟩
      cases r with
      | ok u => exact ⟨_, h.turn_protect (List.mem_of_mem_head? hr') hc prot⟩
      | error e => exact ⟨_, h.turn_still⟩
    | write b data =>
      rcases hp with ⟨r', hr', hc⟩
      cases r with
      | ok u => exact ⟨_, h.turn_store (List.mem_of_mem_head? hr') hc _⟩
      | error e => exact ⟨_, h.turn_still⟩
    | zero b len =>
      rcases hp with ⟨r', hr', hc⟩
      cases r with
      | ok u => exact ⟨_, h.turn_store (List.mem_of_mem_head? hr') hc _⟩
      | error e => exact ⟨_, h.turn_still⟩
    | icacheSync b len => exact ⟨_, h.turn_still⟩
    | allocAligned align len => exact hmaps.elim
    | freeAligned b len => exact hmaps.elim
  | openPath path => exact ⟨_, h.turn_still⟩
  | readExactAt src off n => exact ⟨_, h.turn_still⟩
  | tryReserve n => exact ⟨_, h.turn_still⟩
  | stackWrite b data => exact ⟨_, h.turn_still⟩

end Turns

/-! ### Pools of programs -/

/-- The address space is made of the views of the programs and of what was there. -/
structure Views (pg : PageSize) (s₀ s : Space) (v : ι → Space) : Prop where
  prot : ∀ i p, (v i).prot p ≠ none → s.prot p = (v i).prot p
  mem : ∀ i x, (v i).prot (x / pg.bytes) ≠ none → s.mem x = (v i).mem x
  apart : ∀ i j p, (v i).prot p ≠ none → (v j).prot p ≠ none → i = j
  fresh : ∀ i p, (v i).prot p ≠ none → s₀.prot p = none
  rest : ∀ p, (∀ i, (v i).prot p = none) → s.prot p = s₀.prot p

/-- The address space is what was there, with the views of the programs in it. -/
structure Isolated (pg : PageSize) (s₀ s : Space) (v : ι → Space) : Prop
    extends Views pg s₀ s v where
  restMem : ∀ x, (∀ i, (v i).prot (x / pg.bytes) = none) → s₀.prot (x / pg.bytes) ≠ none →
    s.mem x = s₀.mem x

/-- The same, with the stacks of the programs as they are in their views. -/
structure IsolatedOn (pg : PageSize) (stack : ι → Nat → Prop) (s₀ s : Space) (v : ι → Space) :
    Prop extends Views pg s₀ s v where
  onStack : ∀ i x, stack i x → s.mem x = (v i).mem x
  restMem : ∀ x, (∀ i, (v i).prot (x / pg.bytes) = none) → (∀ i, ¬ stack i x) →
    s₀.prot (x / pg.bytes) ≠ none → s.mem x = s₀.mem x

section Isolated

variable {pg : PageSize} {stack : ι → Nat → Prop} {s₀ s : Space} {a : ι → Account}

theorem Shares.not_own_of_empty (h : Shares pg stack s₀ a s) {p : Nat}
    (hp : ∀ i, (a i).2.prot p = none) (i : ι) : ¬ OwnPage pg (a i).1 p := by
  intro hi
  have hsame := h.prot i p hi
  rw [hp i] at hsame
  exact (h.mapped i p hi).1 hsame.symm

theorem Shares.views (h : Shares pg stack s₀ a s) : Views pg s₀ s fun i => (a i).2 := by
  have hown (i : ι) (p : Nat) (hp : (a i).2.prot p ≠ none) : OwnPage pg (a i).1 p := by
    by_contra hnot
    exact hp (h.empty i p hnot)
  constructor
  · exact fun i p hp => (h.prot i p (hown i p hp)).symm
  · exact fun i x hx => (h.mem i x (hown i _ hx)).symm
  · exact fun i j p hi hj => h.disjoint i j p (hown i p hi) (hown j p hj)
  · exact fun i p hp => (h.mapped i p (hown i p hp)).2
  · exact fun p hp => h.rest p (h.not_own_of_empty hp)

theorem Shares.isolatedOn (h : Shares pg stack s₀ a s) :
    IsolatedOn pg stack s₀ s fun i => (a i).2 where
  toViews := h.views
  onStack := fun i x hx => (h.onStack i x hx).symm
  restMem := fun x hx => h.restMem x (h.not_own_of_empty hx)

theorem Shares.isolated (h : Shares pg noStack s₀ a s) : Isolated pg s₀ s fun i => (a i).2 where
  toViews := h.views
  restMem := fun x hx => h.restMem x (h.not_own_of_empty hx) fun _ hstack => hstack.elim

end Isolated

/-- **A pool of programs that keep to the protocol.** -/
theorem pool_isolated [DecidableEq ι] {ε α : Type} {pg : PageSize} {w : World} {s₀ s : Space}
    {p q : ι → Prog Host ε α} {Q : ι → Account → Outcome ε α → Prop}
    (hp : ∀ i, wp (accountStep pg (step pg w)) AccountPre (p i) (Q i) ([], nothing))
    (hrun : Pool (step pg w) s₀ p s q) :
    ∃ a : ι → Account, Isolated pg s₀ s (fun i => (a i).2) ∧
      ∀ i, ∃ tr, Reaches (step pg w) nothing (p i) tr (a i).2 (q i) := by
  have hstep : ∀ (a : ι → Account) s i op r s', Shares pg noStack s₀ a s → AccountPre (a i) op →
      step pg w s op r s' →
      ∃ t, accountStep pg (step pg w) (a i) op r t ∧
        Shares pg noStack s₀ (Function.update a i t) s' := by
    intro a s i op r s' hshares hpre hop
    rcases hop with ⟨hans, rfl⟩
    have hsees := hshares.sees i
    rcases hsees.turn hpre hans with ⟨T, hturn⟩
    exact ⟨_, ⟨⟨granted_of_answers hans, rfl⟩, hsees.answers hpre.2 hans, rfl⟩, hshares.turn hturn⟩
  have hstart : Shares pg noStack s₀ (fun _ : ι => ([], nothing)) s₀ :=
    shares_start (stacks_noStack pg s₀) (fun _ => rfl) fun _ _ h => h.elim
  rcases hrun.accounts hstep hstart hp with ⟨a, hshares, hall⟩
  refine ⟨a, hshares.isolated, ?_⟩
  intro i
  rcases (hall i).2 with ⟨tr, hreaches⟩
  exact ⟨tr, hreaches.seen Prod.snd fun _ _ _ _ h => h.2⟩

end ElfLoader.AddressSpace
