import Mathlib.Data.List.Basic
import Mathlib.Tactic.Common

/-!
# Ranges laid end to end

`Tiles lo l hi` says that the ranges of `l`, given by start and length, lie one
behind the other from `lo` to `hi`.  They then cover `[lo, hi)` and nothing else.
-/

namespace ElfLoader

def Holds (r : Nat × Nat) (x : Nat) : Prop := r.1 ≤ x ∧ x < r.1 + r.2

def Tiles : Nat → List (Nat × Nat) → Nat → Prop
  | lo, [], hi => lo = hi
  | lo, r :: rest, hi => r.1 = lo ∧ 0 < r.2 ∧ Tiles (lo + r.2) rest hi

@[simp] theorem tiles_nil {lo hi : Nat} : Tiles lo [] hi ↔ lo = hi := Iff.rfl

@[simp] theorem tiles_cons {lo hi : Nat} {r : Nat × Nat} {rest : List (Nat × Nat)} :
    Tiles lo (r :: rest) hi ↔ r.1 = lo ∧ 0 < r.2 ∧ Tiles (lo + r.2) rest hi := Iff.rfl

theorem Tiles.le {lo hi : Nat} {l : List (Nat × Nat)} (h : Tiles lo l hi) : lo ≤ hi := by
  induction l generalizing lo with
  | nil => exact Nat.le_of_eq h
  | cons r rest ih =>
    have := ih h.2.2
    omega

/-- What lies end to end covers exactly what is between the two ends. -/
theorem Tiles.holds_iff {lo hi : Nat} {l : List (Nat × Nat)} (h : Tiles lo l hi) (x : Nat) :
    (∃ r ∈ l, Holds r x) ↔ lo ≤ x ∧ x < hi := by
  induction l generalizing lo with
  | nil =>
    have heq : lo = hi := h
    simp only [List.not_mem_nil, false_and, exists_false, false_iff]
    omega
  | cons r rest ih =>
    rcases h with ⟨hstart, -, hrest⟩
    have hle := hrest.le
    rw [List.exists_mem_cons_iff, ih hrest, Holds, hstart]
    omega

/-- Ranges in intervals that do not meet do not meet. -/
theorem Tiles.disjoint {lo hi lo' hi' : Nat} {l l' : List (Nat × Nat)} (h : Tiles lo l hi)
    (h' : Tiles lo' l' hi') (hle : hi ≤ lo') {r r' : Nat × Nat} (hr : r ∈ l) (hr' : r' ∈ l')
    (x : Nat) : ¬ (Holds r x ∧ Holds r' x) := by
  intro hx
  have hin := (h.holds_iff x).mp ⟨r, hr, hx.1⟩
  have hin' := (h'.holds_iff x).mp ⟨r', hr', hx.2⟩
  omega

end ElfLoader
