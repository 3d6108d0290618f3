import Mathlib.Data.List.Induction
import Mathlib.Data.List.TakeWhile

/-!
# Custody

A program that acquires things, uses them and gives them back leaves a history of
events.  Two questions are asked of it: was everything that was used held at that
moment, and was everything that was acquired given back once.  A thing can be handed
out again after it was given back, so the second is asked about each acquisition, up
to the next one of the same thing.
-/

namespace ElfLoader

/-- What an event does to things of type `δ`.  To give something back is to use it. -/
structure Custody (ι δ : Type) where
  acquires : ι → Option δ
  releases : ι → Option δ
  uses : ι → Option δ
  uses_of_releases : ∀ e d, releases e = some d → uses e = some d

namespace Custody

variable {ι δ : Type} (C : Custody ι δ)

/-- `d` was acquired and has not been given back since. -/
def Held (d : δ) (h : List ι) : Prop :=
  ∃ before e after, h = before ++ e :: after ∧ C.acquires e = some d ∧
    ∀ e' ∈ after, C.releases e' ≠ some d

/-- Whatever was used was held. -/
def Owned (h : List ι) : Prop :=
  ∀ before e after d, h = before ++ e :: after → C.uses e = some d → C.Held d before

section Once

variable [DecidableEq δ]

/-- What follows an acquisition of `d`, up to the next one. -/
def tenure (d : δ) (after : List ι) : List ι := after.takeWhile fun e => C.acquires e ≠ some d

/-- Every acquisition was followed by one release, before the next of the same thing. -/
def ReleasedOnce (h : List ι) : Prop :=
  ∀ before e after d, h = before ++ e :: after → C.acquires e = some d →
    (C.tenure d after).countP (fun e' => C.releases e' = some d) = 1

end Once

variable {C}

/-! ### What is used is held -/

theorem Held.append_left {d : δ} {h : List ι} (hd : C.Held d h) (h₀ : List ι) :
    C.Held d (h₀ ++ h) := by
  rcases hd with ⟨before, e, after, rfl, he, hafter⟩
  exact ⟨h₀ ++ before, e, after, (List.append_assoc _ _ _).symm, he, hafter⟩

theorem held_cons {e : ι} {d : δ} {h : List ι} (he : C.acquires e = some d)
    (hh : ∀ x ∈ h, C.releases x = none) : C.Held d (e :: h) := by
  refine ⟨[], e, h, rfl, he, ?_⟩
  intro x hx hrel
  exact Option.some_ne_none d (hrel.symm.trans (hh x hx))

theorem owned_of_no_use {h : List ι} (hh : ∀ e ∈ h, C.uses e = none) : C.Owned h := by
  rintro before e after d rfl hd
  have hnone := hh e (List.mem_append_right _ List.mem_cons_self)
  exact absurd (hnone.symm.trans hd) (Option.some_ne_none d).symm

/-- An event of two histories in a row is an event of one of them. -/
private theorem split_append {h₁ h₂ before after : List ι} {e : ι}
    (h : h₁ ++ h₂ = before ++ e :: after) :
    (∃ rest, h₁ = before ++ e :: rest ∧ after = rest ++ h₂) ∨
      ∃ rest, before = h₁ ++ rest ∧ h₂ = rest ++ e :: after := by
  rcases List.append_eq_append_iff.mp h with ⟨rest, hbefore, hrest⟩ | ⟨rest, hh₁, hrest⟩
  · exact Or.inr ⟨rest, hbefore, hrest⟩
  · cases rest with
    | nil => exact Or.inr ⟨[], by simpa using hh₁.symm, hrest.symm⟩
    | cons x rest =>
      rcases List.cons_eq_cons.mp hrest with ⟨rfl, hafter⟩
      exact Or.inl ⟨rest, hh₁, hafter⟩

theorem Owned.append {h₁ h₂ : List ι} (h₁o : C.Owned h₁) (h₂o : C.Owned h₂) :
    C.Owned (h₁ ++ h₂) := by
  intro before e after d hsplit hd
  rcases split_append hsplit with ⟨rest, hh₁, -⟩ | ⟨rest, rfl, hh₂⟩
  · exact h₁o before e rest d hh₁ hd
  · exact (h₂o rest e after d hh₂ hd).append_left h₁

theorem Owned.concat {h : List ι} {e : ι} (ho : C.Owned h)
    (he : ∀ d, C.uses e = some d → C.Held d h) : C.Owned (h ++ [e]) := by
  intro before x after d hsplit hd
  rcases split_append hsplit with ⟨rest, hh, -⟩ | ⟨rest, rfl, hlast⟩
  · exact ho before x rest d hh hd
  · cases rest with
    | nil =>
      rcases List.cons_eq_cons.mp hlast with ⟨rfl, -⟩
      simpa using he d hd
    | cons y rest => simp at hlast

/-- What was acquired is used and not released, and nothing else is. -/
theorem owned_cons {e : ι} {d : δ} {h : List ι} (he : C.acquires e = some d)
    (huse : C.uses e = none) (hrel : ∀ x ∈ h, C.releases x = none)
    (hh : ∀ x ∈ h, C.uses x = none ∨ C.uses x = some d) : C.Owned (e :: h) := by
  induction h using List.reverseRecOn with
  | nil =>
    apply owned_of_no_use
    intro x hx
    rcases List.mem_singleton.mp hx with rfl
    exact huse
  | append_singleton h x ih =>
    rw [List.forall_mem_append] at hrel hh
    apply (ih hrel.1 hh.1).concat
    intro d' hd'
    rcases hh.2 x (List.mem_singleton_self x) with hnone | hsome
    · exact absurd (hnone.symm.trans hd') (Option.some_ne_none d').symm
    · rcases Option.some.inj (hsome.symm.trans hd') with rfl
      exact held_cons he hrel.1

/-! ### What is acquired is released once -/

section Once

variable [DecidableEq δ]

theorem releasedOnce_of_no_acquire {h : List ι} (hh : ∀ e ∈ h, C.acquires e = none) :
    C.ReleasedOnce h := by
  rintro before e after d rfl hd
  have hnone := hh e (List.mem_append_right _ List.mem_cons_self)
  exact absurd (hnone.symm.trans hd) (Option.some_ne_none d).symm

theorem releasedOnce_cons {e : ι} {d : δ} {h : List ι} (he : C.acquires e = some d)
    (hh : ∀ x ∈ h, C.acquires x = none) :
    C.ReleasedOnce (e :: h) ↔ h.countP (fun x => C.releases x = some d) = 1 := by
  have htenure : C.tenure d h = h := by
    apply List.takeWhile_eq_self_iff.mpr
    intro x hx
    simp [hh x hx]
  constructor
  · intro honce
    have hcount := honce [] e h d rfl he
    rwa [htenure] at hcount
  · intro hcount before x after d' hsplit hd'
    cases before with
    | nil =>
      rcases List.cons_eq_cons.mp hsplit with ⟨rfl, rfl⟩
      rcases Option.some.inj (he.symm.trans hd') with rfl
      rwa [htenure]
    | cons y before =>
      rcases List.cons_eq_cons.mp hsplit with ⟨rfl, rfl⟩
      exact releasedOnce_of_no_acquire hh before x after d' rfl hd'

/-- What a history does not hold it does not release. -/
theorem Owned.tenure_release {h : List ι} (ho : C.Owned h) (d : δ) :
    (C.tenure d h).countP (fun e => C.releases e = some d) = 0 := by
  apply List.countP_eq_zero.mpr
  intro e he hrel
  rcases List.append_of_mem he with ⟨before, after, hsplit⟩
  have hh : h = before ++ e :: (after ++ h.dropWhile fun e => C.acquires e ≠ some d) := by
    have hwhole := List.takeWhile_append_dropWhile (p := fun e => C.acquires e ≠ some d) (l := h)
    rw [show h.takeWhile _ = _ from hsplit] at hwhole
    simpa using hwhole.symm
  have huse := C.uses_of_releases e d (by simpa using hrel)
  rcases ho before e _ d hh huse with ⟨b, x, a, rfl, hx, -⟩
  have hmem : x ∈ C.tenure d h := by
    rw [hsplit]
    simp
  have hnot := List.mem_takeWhile_imp hmem
  simp [hx] at hnot

/-- Two histories in a row, of which the second uses only what it has acquired. -/
theorem releasedOnce_append {h₁ h₂ : List ι} (ho : C.Owned h₂) :
    C.ReleasedOnce (h₁ ++ h₂) ↔ C.ReleasedOnce h₁ ∧ C.ReleasedOnce h₂ := by
  -- what follows an acquisition of the first releases it no more often in both
  have hcount (rest : List ι) (d : δ) :
      (C.tenure d (rest ++ h₂)).countP (fun e => C.releases e = some d) =
        (C.tenure d rest).countP (fun e => C.releases e = some d) := by
    unfold tenure
    rw [List.takeWhile_append]
    split
    · rename_i hall
      have hself : rest.takeWhile (fun e => C.acquires e ≠ some d) = rest :=
        (List.takeWhile_prefix _).eq_of_length hall
      have hzero : (h₂.takeWhile fun e => C.acquires e ≠ some d).countP
          (fun e => C.releases e = some d) = 0 := ho.tenure_release d
      rw [List.countP_append, hzero, hself, Nat.add_zero]
    · rfl
  constructor
  · intro honce
    constructor
    · rintro before e rest d rfl hd
      have hone := honce before e (rest ++ h₂) d (by simp) hd
      rwa [hcount] at hone
    · rintro before e after d rfl hd
      exact honce (h₁ ++ before) e after d (by simp) hd
  · rintro ⟨h₁once, h₂once⟩ before e after d hsplit hd
    rcases split_append hsplit with ⟨rest, hh₁, rfl⟩ | ⟨rest, -, hh₂⟩
    · rw [hcount]
      exact h₁once before e rest d hh₁ hd
    · exact h₂once rest e after d hh₂ hd

end Once

end Custody

end ElfLoader
