import Mathlib.Algebra.Order.Ring.Nat
import Mathlib.Tactic.Common

/-!
# Pages touched by a byte range

Calls name bytes, the hardware works on pages.  `Touches page a len p` says that
page number `p` has a byte of `[a, a + len)`, and `onPages` changes a map from
page numbers on exactly these pages.
-/

namespace ElfLoader

/-- Page number `p` has a byte of `[a, a + len)`. -/
def Touches (page a len p : Nat) : Prop := a / page ≤ p ∧ p * page < a + len ∧ 0 < len

instance (page a len p : Nat) : Decidable (Touches page a len p) :=
  inferInstanceAs (Decidable (_ ∧ _ ∧ _))

variable {page a len x p : Nat}

theorem touches_div (hlo : a ≤ x) (hhi : x < a + len) :
    Touches page a len (x / page) := by
  refine ⟨Nat.div_le_div_right hlo, ?_, by omega⟩
  have h := Nat.div_mul_le_self x page
  omega

theorem Touches.exists (hpage : 0 < page) (h : Touches page a len p) :
    ∃ x, a ≤ x ∧ x < a + len ∧ x / page = p := by
  obtain ⟨hlo, hhi, hlen⟩ := h
  have ha : a < (p + 1) * page := (Nat.div_lt_iff_lt_mul hpage).mp (by omega)
  refine ⟨max a (p * page), le_max_left _ _, max_lt (by omega) hhi, ?_⟩
  refine Nat.div_eq_of_lt_le (le_max_right _ _) (max_lt ha ?_)
  exact Nat.mul_lt_mul_of_pos_right (by omega) hpage

theorem Touches.mono {a' len' : Nat} (hpage : 0 < page) (hlo : a ≤ a')
    (hhi : a' + len' ≤ a + len) (h : Touches page a' len' p) : Touches page a len p := by
  obtain ⟨x, hx, hx', rfl⟩ := h.exists hpage
  exact touches_div (by omega) (by omega)

theorem not_touches_zero : ¬ Touches page a 0 p := fun h => absurd h.2.2 (by decide)

/-- A range of whole pages touches the page of a byte only if it has the byte. -/
theorem touches_div_iff_of_dvd (hpage : 0 < page) (ha : page ∣ a) (hlen : page ∣ len) :
    Touches page a len (x / page) ↔ a ≤ x ∧ x < a + len := by
  constructor
  · rintro ⟨hlo, hhi, -⟩
    obtain ⟨k, rfl⟩ := ha
    obtain ⟨n, rfl⟩ := hlen
    rw [Nat.mul_div_cancel_left k hpage] at hlo
    rw [← Nat.mul_add, Nat.mul_comm] at hhi
    have hlt : x / page < k + n := Nat.lt_of_mul_lt_mul_left hhi
    have hx := Nat.div_add_mod x page
    have hmod := Nat.mod_lt x hpage
    have h₁ : page * k ≤ page * (x / page) := Nat.mul_le_mul_left page hlo
    have h₂ : page * (x / page + 1) ≤ page * (k + n) := Nat.mul_le_mul_left page hlt
    rw [Nat.mul_add] at h₂
    rw [← Nat.mul_add]
    omega
  · rintro ⟨hlo, hhi⟩
    exact touches_div hlo hhi

/-- Set the pages touched by `[a, a + len)` to `v`. -/
def onPages {α : Type} (page a len : Nat) (v : α) (f : Nat → α) : Nat → α :=
  fun p => if Touches page a len p then v else f p

section OnPages

variable {α : Type} {v : α} {f : Nat → α}

theorem onPages_of (h : Touches page a len p) : onPages page a len v f p = v := if_pos h

theorem onPages_of_not (h : ¬ Touches page a len p) : onPages page a len v f p = f p := if_neg h

/-- A page whose value the touched pages do not have keeps it. -/
theorem onPages_of_ne {w : α} (hp : f p = w) (h : Touches page a len p → f p ≠ w) :
    onPages page a len v f p = w :=
  (onPages_of_not fun ht => h ht hp).trans hp

end OnPages

end ElfLoader
