import Mathlib.Data.List.Sort

/-!
# What a stable sort leaves behind

Sorting by a key keeps elements with equal keys in their old order.  So the
result is sorted by a relation that, unlike the key order, has no ties, and a
list sorted by it is the only one with these elements.
-/

namespace ElfLoader

variable {α : Type}

/-- Before in the key order `r`, or tied there and before in `s`. -/
def Lex (r s : α → α → Prop) (a b : α) : Prop := r a b ∧ (r b a → s a b)

section Stable

variable {r s : α → α → Prop} [DecidableRel r] [Std.Total r] [IsTrans α r]

theorem pairwise_orderedInsert_lex (a : α) (l : List α) (hs : ∀ b ∈ l, s a b)
    (hl : l.Pairwise (Lex r s)) : (l.orderedInsert r a).Pairwise (Lex r s) := by
  induction l with
  | nil => exact List.pairwise_singleton _ a
  | cons b l ih =>
    rw [List.orderedInsert_cons]
    rw [List.pairwise_cons] at hl
    split
    · rename_i hab
      refine List.pairwise_cons.mpr ⟨?_, List.pairwise_cons.mpr hl⟩
      intro x hx
      rcases List.mem_cons.mp hx with rfl | hxl
      · exact ⟨hab, fun _ => hs x (by simp)⟩
      · exact ⟨trans_of r hab (hl.1 x hxl).1, fun _ => hs x (by simp [hxl])⟩
    · rename_i hab
      refine List.pairwise_cons.mpr ⟨?_, ih (fun x hx => hs x (by simp [hx])) hl.2⟩
      intro x hx
      rcases (List.mem_orderedInsert r).mp hx with rfl | hxl
      · exact ⟨(total_of r x b).resolve_left hab, fun h => absurd h hab⟩
      · exact hl.1 x hxl

/-- Insertion sort is stable: ties keep the order `s` of the input. -/
theorem pairwise_insertionSort_lex (l : List α) (hl : l.Pairwise s) :
    (l.insertionSort r).Pairwise (Lex r s) := by
  induction l with
  | nil => exact List.Pairwise.nil
  | cons a l ih =>
    rw [List.pairwise_cons] at hl
    rw [List.insertionSort_cons]
    refine pairwise_orderedInsert_lex a _ ?_ (ih hl.2)
    intro b hb
    exact hl.1 b ((List.mem_insertionSort r).mp hb)

end Stable

/-- In a list sorted without ties, what holds of every two elements in the order of
    the list is what holds of every two elements in the order of the sort. -/
theorem pairwise_iff_of_sorted {l : List α} {S R : α → α → Prop} (hs : l.Pairwise S)
    (hasymm : ∀ a b, S a b → ¬ S b a) :
    l.Pairwise R ↔ ∀ a ∈ l, ∀ b ∈ l, S a b → R a b := by
  induction l with
  | nil => simp
  | cons x l ih =>
    rw [List.pairwise_cons] at hs
    rw [List.pairwise_cons, ih hs.2]
    constructor
    · intro h a ha b hb hab
      rcases List.mem_cons.mp ha with rfl | hal
      · rcases List.mem_cons.mp hb with rfl | hbl
        · exact absurd hab (hasymm _ _ hab)
        · exact h.1 b hbl
      · rcases List.mem_cons.mp hb with rfl | hbl
        · exact absurd hab (hasymm _ _ (hs.1 a hal))
        · exact h.2 a hal b hbl hab
    · intro h
      constructor
      · intro b hb
        exact h x List.mem_cons_self b (List.mem_cons_of_mem x hb) (hs.1 b hb)
      · intro a ha b hb
        exact h a (List.mem_cons_of_mem x ha) b (List.mem_cons_of_mem x hb)

end ElfLoader
