import Mathlib.Algebra.Order.Ring.Nat
import Mathlib.Tactic.Common

/-!
# Rounding to a multiple

`roundDown a v` and `roundUp a v` are the multiples of `a` next to `v`.  Machine
code computes both with a mask, which is the same thing when `a` is a power of
two that fits the word (`and_mask_eq_roundDown`).
-/

namespace ElfLoader

/-- The largest multiple of `a` that is at most `v`. -/
def roundDown (a v : Nat) : Nat := v - v % a

/-- The smallest multiple of `a` that is at least `v`. -/
def roundUp (a v : Nat) : Nat := roundDown a (v + (a - 1))

variable {a b v w m : Nat}

theorem dvd_roundDown (a v : Nat) : a ∣ roundDown a v := Nat.dvd_sub_mod v

theorem dvd_roundUp (a v : Nat) : a ∣ roundUp a v := dvd_roundDown a _

theorem roundDown_le (a v : Nat) : roundDown a v ≤ v := Nat.sub_le _ _

theorem lt_roundDown_add (ha : 0 < a) (v : Nat) : v < roundDown a v + a := by
  have h := Nat.mod_lt v ha
  have h' := Nat.mod_le v a
  unfold roundDown
  omega

theorem le_roundUp (ha : 0 < a) (v : Nat) : v ≤ roundUp a v := by
  have h := lt_roundDown_add ha (v + (a - 1))
  unfold roundUp
  omega

theorem roundUp_lt (ha : 0 < a) (v : Nat) : roundUp a v < v + a := by
  have h := roundDown_le a (v + (a - 1))
  unfold roundUp
  omega

/-- Distinct multiples are a whole step apart. -/
theorem add_le_of_dvd_of_lt (hv : a ∣ v) (hw : a ∣ w) (h : v < w) : v + a ≤ w := by
  obtain ⟨x, rfl⟩ := hv
  obtain ⟨y, rfl⟩ := hw
  have hxy : x < y := lt_of_mul_lt_mul_left h (Nat.zero_le a)
  calc a * x + a = a * (x + 1) := by rw [Nat.mul_add, Nat.mul_one]
    _ ≤ a * y := Nat.mul_le_mul_left a hxy

theorem le_roundDown (ha : 0 < a) (hm : a ∣ m) (h : m ≤ v) : m ≤ roundDown a v := by
  by_contra hlt
  have h₁ := add_le_of_dvd_of_lt (dvd_roundDown a v) hm (by omega)
  have h₂ := lt_roundDown_add ha v
  omega

theorem roundUp_le (ha : 0 < a) (hm : a ∣ m) (h : v ≤ m) : roundUp a v ≤ m := by
  by_contra hlt
  have h₁ := add_le_of_dvd_of_lt hm (dvd_roundUp a v) (by omega)
  have h₂ := roundUp_lt ha v
  omega

theorem roundUp_mono (ha : 0 < a) (h : v ≤ w) : roundUp a v ≤ roundUp a w :=
  roundUp_le ha (dvd_roundUp a w) (h.trans (le_roundUp ha w))

theorem roundDown_of_dvd (h : a ∣ v) : roundDown a v = v := by
  simp [roundDown, Nat.mod_eq_zero_of_dvd h]

theorem roundDown_add (h : a ∣ b) : roundDown a (v + b) = roundDown a v + b := by
  obtain ⟨c, rfl⟩ := h
  have hle := Nat.mod_le v a
  unfold roundDown
  rw [Nat.add_mul_mod_self_left]
  omega

theorem roundUp_add (h : a ∣ b) : roundUp a (v + b) = roundUp a v + b := by
  unfold roundUp
  rw [show v + b + (a - 1) = v + (a - 1) + b by omega, roundDown_add h]

/-- The offset of `v` in its block. -/
theorem sub_roundDown (a v : Nat) : v - roundDown a v = v % a := by
  have h := Nat.mod_le v a
  unfold roundDown
  omega

/-- Clearing the low `k` bits of an `n`-bit word rounds it down. -/
theorem and_mask_eq_roundDown {n k : Nat} (hk : k ≤ n) (hv : v < 2 ^ n) :
    v &&& (2 ^ n - 1 - (2 ^ k - 1)) = roundDown (2 ^ k) v := by
  have hpow : 2 ^ k ≤ 2 ^ n := Nat.pow_le_pow_right (by omega) hk
  have hpos : 0 < 2 ^ k := Nat.two_pow_pos k
  have hmask : 2 ^ n - 1 - (2 ^ k - 1) = 2 ^ n - (2 ^ k - 1 + 1) := by omega
  have hdown : roundDown (2 ^ k) v = 2 ^ k * (v / 2 ^ k) := by
    have h := Nat.div_add_mod v (2 ^ k)
    unfold roundDown
    omega
  rw [hmask, hdown]
  apply Nat.eq_of_testBit_eq
  intro i
  rw [Nat.testBit_and, Nat.testBit_two_pow_sub_succ (by omega), Nat.testBit_two_pow_sub_one,
    Nat.testBit_two_pow_mul, Nat.testBit_div_two_pow]
  by_cases hi : i < k
  · simp [hi]
  · have hik : i - k + k = i := by omega
    by_cases hn : i < n
    · simp [hi, hn, hik]
      omega
    · have hz : v.testBit i = false :=
        Nat.testBit_lt_two_pow (lt_of_lt_of_le hv (Nat.pow_le_pow_right (by omega) (by omega)))
      simp [hi, hik, hz]

end ElfLoader
