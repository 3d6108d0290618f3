import Mathlib.Algebra.Order.Ring.Nat
import Mathlib.Tactic.Common

/-!
# Outcomes of checked machine code

A call of a routine compiled with overflow checks ends in one of three ways: it
returns a value, it returns an error for its caller to handle, or it stops the
whole machine.  `Outcome` keeps the three apart, and the 64-bit operators below
stop the machine exactly when the checked build would.
-/

namespace ElfLoader

/-- What a routine comes back with: a value, an error, or not at all. -/
inductive Outcome (ε α : Type) where
  | ok (a : α)
  | err (e : ε)
  | panic
deriving DecidableEq, Repr

namespace Outcome

variable {ε ε' α β : Type}

/-- Sequencing: an error or a panic of the first routine is the result. -/
def bind : Outcome ε α → (α → Outcome ε β) → Outcome ε β
  | ok a, f => f a
  | err e, _ => err e
  | panic, _ => panic

instance : Monad (Outcome ε) where
  pure := ok
  bind := bind

@[simp] theorem pure_eq (a : α) : (pure a : Outcome ε α) = ok a := rfl
@[simp] theorem ok_bind (a : α) (f : α → Outcome ε β) : (ok a >>= f) = f a := rfl
@[simp] theorem err_bind (e : ε) (f : α → Outcome ε β) : (err e >>= f) = err e := rfl
@[simp] theorem panic_bind (f : α → Outcome ε β) : (panic >>= f) = panic := rfl

instance : LawfulMonad (Outcome ε) := LawfulMonad.mk' (Outcome ε)
  (by intro α x; cases x <;> rfl)
  (by intros; rfl)
  (by intro α β γ x f g; cases x <;> rfl)

/-- A sequence that returns a value did so step by step. -/
theorem bind_eq_ok {x : Outcome ε α} {f : α → Outcome ε β} {b : β} :
    (x >>= f) = ok b ↔ ∃ a, x = ok a ∧ f a = ok b := by
  cases x <;> simp

/-- Change the error, leave values and panics alone (`map_err`). -/
def mapErr (g : ε → ε') : Outcome ε α → Outcome ε' α
  | ok a => ok a
  | err e => err (g e)
  | panic => panic

@[simp] theorem mapErr_ok (g : ε → ε') (a : α) : (ok a).mapErr g = ok a := rfl
@[simp] theorem mapErr_err (g : ε → ε') (e : ε) :
    (err e : Outcome ε α).mapErr g = err (g e) := rfl
@[simp] theorem mapErr_panic (g : ε → ε') :
    (panic : Outcome ε α).mapErr g = panic := rfl

/-- An absent value is the given error (`ok_or`). -/
def okOr (e : ε) : Option α → Outcome ε α
  | some a => ok a
  | none => err e

@[simp] theorem okOr_some (e : ε) (a : α) : okOr e (some a) = ok a := rfl
@[simp] theorem okOr_none (e : ε) : (okOr e none : Outcome ε α) = err e := rfl

@[simp] theorem okOr_eq_ok {e : ε} {x : Option α} {a : α} :
    okOr e x = ok a ↔ x = some a := by
  cases x <;> simp

theorem okOr_eq_err {e e' : ε} {x : Option α} : okOr e x = err e' ↔ x = none ∧ e' = e := by
  cases x <;> simp [eq_comm]

/-- A `Result`, as the outcome of the `?` operator. -/
def ofExcept : Except ε α → Outcome ε α
  | .ok a => ok a
  | .error e => err e

@[simp] theorem ofExcept_ok (a : α) : (ofExcept (.ok a) : Outcome ε α) = ok a := rfl
@[simp] theorem ofExcept_error (e : ε) : (ofExcept (.error e) : Outcome ε α) = err e := rfl

/-- Fail unless the condition holds (`if !c { return Err(e) }`). -/
def guardErr (c : Prop) [Decidable c] (e : ε) : Outcome ε Unit :=
  if c then ok () else err e

@[simp] theorem guardErr_eq_ok {c : Prop} [Decidable c] {e : ε} {u : Unit} :
    guardErr c e = ok u ↔ c := by
  unfold guardErr
  split <;> simp_all

theorem guardErr_eq_err {c : Prop} [Decidable c] {e e' : ε} :
    guardErr c e = err e' ↔ ¬ c ∧ e' = e := by
  unfold guardErr
  split <;> simp_all [eq_comm]

theorem guardErr_of {c : Prop} [Decidable c] {e : ε} (h : c) :
    guardErr c e = ok () := if_pos h

theorem guardErr_of_not {c : Prop} [Decidable c] {e : ε} (h : ¬ c) :
    guardErr c e = err e := if_neg h

/-! A sequence of steps that do not stop the machine does not stop it. -/

theorem bind_ne_panic {x : Outcome ε α} {f : α → Outcome ε β} (hx : x ≠ panic)
    (hf : ∀ a, x = ok a → f a ≠ panic) : (x >>= f) ≠ panic := by
  cases x with
  | ok a => exact hf a rfl
  | err e => simp
  | panic => exact absurd rfl hx

theorem ok_ne_panic {a : α} : (ok a : Outcome ε α) ≠ panic := by simp

theorem guardErr_ne_panic {c : Prop} [Decidable c] {e : ε} :
    guardErr c e ≠ panic := by
  unfold guardErr
  split <;> simp

theorem okOr_ne_panic {e : ε} {x : Option α} : okOr e x ≠ panic := by
  cases x <;> simp

/-! Which errors a sequence of steps can end with. -/

/-- If this is an error, it is one of `S`. -/
def OnlyErr (S : ε → Prop) (x : Outcome ε α) : Prop := ∀ e, x = err e → S e

section OnlyErr

variable {S : ε → Prop}

theorem onlyErr_ok {a : α} : OnlyErr S (ok a) := by
  intro e h
  cases h

theorem onlyErr_panic : OnlyErr S (panic : Outcome ε α) := by
  intro e h
  cases h

theorem OnlyErr.bind {x : Outcome ε α} {f : α → Outcome ε β} (hx : OnlyErr S x)
    (hf : ∀ a, x = ok a → OnlyErr S (f a)) : OnlyErr S (x >>= f) := by
  cases x with
  | ok a => exact hf a rfl
  | err e =>
    intro e' h
    cases h
    exact hx e rfl
  | panic => exact onlyErr_panic

theorem onlyErr_okOr {e : ε} {x : Option α} (he : S e) : OnlyErr S (okOr e x) := by
  intro e' h
  cases x with
  | some a => cases h
  | none =>
    cases h
    exact he

theorem onlyErr_guardErr {c : Prop} [Decidable c] {e : ε} (he : S e) :
    OnlyErr S (guardErr c e) := by
  intro e' h
  unfold guardErr at h
  split at h
  · cases h
  · cases h
    exact he

theorem onlyErr_foldlM {f : β → α → Outcome ε β} {xs : List α} {b : β}
    (h : ∀ b x, OnlyErr S (f b x)) : OnlyErr S (xs.foldlM f b) := by
  induction xs generalizing b with
  | nil => exact onlyErr_ok
  | cons x xs ih =>
    rw [List.foldlM_cons]
    exact (h b x).bind fun _ _ => ih

theorem onlyErr_mapM {f : α → Outcome ε β} {xs : List α} (h : ∀ x, OnlyErr S (f x)) :
    OnlyErr S (xs.mapM f) := by
  induction xs with
  | nil => exact onlyErr_ok
  | cons x xs ih =>
    rw [List.mapM_cons]
    exact (h x).bind fun _ _ => ih.bind fun _ _ => onlyErr_ok

theorem onlyErr_filterM {f : α → Outcome ε Bool} {xs : List α} (h : ∀ x, OnlyErr S (f x)) :
    OnlyErr S (xs.filterM f) := by
  have haux (acc : List α) : OnlyErr S (xs.filterAuxM f acc) := by
    induction xs generalizing acc with
    | nil => exact onlyErr_ok
    | cons x xs ih => exact (h x).bind fun _ _ => ih _
  exact (haux []).bind fun _ _ => onlyErr_ok

theorem onlyErr_anyM {f : α → Outcome ε Bool} {xs : List α} (h : ∀ x, OnlyErr S (f x)) :
    OnlyErr S (xs.anyM f) := by
  induction xs with
  | nil => exact onlyErr_ok
  | cons x xs ih =>
    rw [List.anyM_cons]
    refine (h x).bind fun hit _ => ?_
    cases hit
    · exact ih
    · exact onlyErr_ok

end OnlyErr

/-! Loops over a list whose every turn succeeds. -/

theorem mapM_of_forall {f : α → Outcome ε β} {g : α → β} {xs : List α}
    (h : ∀ x ∈ xs, f x = ok (g x)) : xs.mapM f = ok (xs.map g) := by
  induction xs with
  | nil => rfl
  | cons x xs ih =>
    rw [List.forall_mem_cons] at h
    rw [List.mapM_cons, h.1, ok_bind, ih h.2]
    rfl

theorem foldlM_of_forall {f : β → α → Outcome ε β} {g : β → α → β} {xs : List α} (b : β)
    (h : ∀ b, ∀ x ∈ xs, f b x = ok (g b x)) : xs.foldlM f b = ok (xs.foldl g b) := by
  induction xs generalizing b with
  | nil => rfl
  | cons x xs ih =>
    rw [List.foldlM_cons, h b x (by simp), ok_bind]
    exact ih _ fun b y hy => h b y (by simp [hy])

theorem filterM_of_forall {f : α → Outcome ε Bool} {g : α → Bool} {xs : List α}
    (h : ∀ x ∈ xs, f x = ok (g x)) : xs.filterM f = ok (xs.filter g) := by
  have haux (acc : List α) : xs.filterAuxM f acc = ok ((xs.filter g).reverse ++ acc) := by
    induction xs generalizing acc with
    | nil => rfl
    | cons x xs ih =>
      rw [List.forall_mem_cons] at h
      rw [List.filterAuxM, h.1, ok_bind, ih h.2]
      cases hx : g x <;> simp [hx]
  rw [List.filterM, haux []]
  simp

theorem anyM_of_forall {f : α → Outcome ε Bool} {g : α → Bool} {xs : List α}
    (h : ∀ x ∈ xs, f x = ok (g x)) : xs.anyM f = ok (xs.any g) := by
  induction xs with
  | nil => rfl
  | cons x xs ih =>
    rw [List.forall_mem_cons] at h
    rw [List.anyM_cons, h.1, ok_bind, ih h.2]
    cases hx : g x <;> simp [hx]

/-- Element `i` of a slice; past its end the machine stops. -/
def index (xs : List α) (i : Nat) : Outcome ε α :=
  match xs[i]? with
  | some x => ok x
  | none => panic

@[simp] theorem index_eq_ok {xs : List α} {i : Nat} {x : α} :
    (index xs i : Outcome ε α) = ok x ↔ xs[i]? = some x := by
  unfold index
  split <;> simp_all

theorem index_of_lt {xs : List α} {i : Nat} (h : i < xs.length) :
    (index xs i : Outcome ε α) = ok xs[i] := by
  simp [h]

theorem onlyErr_index {S : ε → Prop} {xs : List α} {i : Nat} :
    OnlyErr S (index xs i : Outcome ε α) := by
  unfold index
  split
  · exact onlyErr_ok
  · exact onlyErr_panic

/-- The slice `xs[lo..hi]`; the machine stops unless `lo ≤ hi ≤ xs.len()`. -/
def slice (xs : List α) (lo hi : Nat) : Outcome ε (List α) :=
  if lo ≤ hi ∧ hi ≤ xs.length then ok ((xs.drop lo).take (hi - lo)) else panic

theorem slice_of_le {xs : List α} {lo hi : Nat} (h : lo ≤ hi) (h' : hi ≤ xs.length) :
    (slice xs lo hi : Outcome ε (List α)) = ok ((xs.drop lo).take (hi - lo)) :=
  if_pos ⟨h, h'⟩

end Outcome

/-! ### 64-bit arithmetic -/

namespace U64

open Outcome

variable {ε : Type}

def checkedAdd (a b : Nat) : Option Nat := if a + b < 2 ^ 64 then some (a + b) else none

def checkedSub (a b : Nat) : Option Nat := if b ≤ a then some (a - b) else none

def checkedMul (a b : Nat) : Option Nat := if a * b < 2 ^ 64 then some (a * b) else none

/-- `a + b` of a build that checks overflow. -/
def add (a b : Nat) : Outcome ε Nat := if a + b < 2 ^ 64 then .ok (a + b) else .panic

/-- `a - b` of a build that checks overflow. -/
def sub (a b : Nat) : Outcome ε Nat := if b ≤ a then .ok (a - b) else .panic

/-- `a * b` of a build that checks overflow. -/
def mul (a b : Nat) : Outcome ε Nat := if a * b < 2 ^ 64 then .ok (a * b) else .panic

/-- Bitwise complement of a 64-bit word. -/
def not (a : Nat) : Nat := 2 ^ 64 - 1 - a

/-- Exactly one bit is set. -/
def isPowerOfTwo (a : Nat) : Bool := a != 0 && (a &&& (a - 1)) == 0

@[simp] theorem checkedAdd_eq_some {a b c : Nat} :
    checkedAdd a b = some c ↔ a + b < 2 ^ 64 ∧ a + b = c := by
  unfold checkedAdd
  grind

@[simp] theorem checkedSub_eq_some {a b c : Nat} :
    checkedSub a b = some c ↔ b ≤ a ∧ a - b = c := by
  unfold checkedSub
  grind

theorem checkedSub_eq_none {a b : Nat} : checkedSub a b = none ↔ a < b := by
  unfold checkedSub
  grind

@[simp] theorem checkedMul_eq_some {a b c : Nat} :
    checkedMul a b = some c ↔ a * b < 2 ^ 64 ∧ a * b = c := by
  unfold checkedMul
  grind

@[simp] theorem add_eq_ok {a b c : Nat} :
    (add a b : Outcome ε Nat) = .ok c ↔ a + b < 2 ^ 64 ∧ a + b = c := by
  unfold add
  grind

@[simp] theorem sub_eq_ok {a b c : Nat} :
    (sub a b : Outcome ε Nat) = .ok c ↔ b ≤ a ∧ a - b = c := by
  unfold sub
  grind

@[simp] theorem mul_eq_ok {a b c : Nat} :
    (mul a b : Outcome ε Nat) = .ok c ↔ a * b < 2 ^ 64 ∧ a * b = c := by
  unfold mul
  grind

theorem checkedAdd_of_lt {a b : Nat} (h : a + b < 2 ^ 64) :
    checkedAdd a b = some (a + b) := if_pos h

theorem checkedAdd_of_le {a b : Nat} (h : 2 ^ 64 ≤ a + b) : checkedAdd a b = none :=
  if_neg (by omega)

theorem checkedSub_of_le {a b : Nat} (h : b ≤ a) : checkedSub a b = some (a - b) := if_pos h

theorem checkedSub_of_lt {a b : Nat} (h : a < b) : checkedSub a b = none :=
  if_neg (by omega)

theorem add_of_lt {a b : Nat} (h : a + b < 2 ^ 64) :
    (add a b : Outcome ε Nat) = .ok (a + b) := if_pos h

theorem add_of_le {a b : Nat} (h : 2 ^ 64 ≤ a + b) :
    (add a b : Outcome ε Nat) = .panic := if_neg (by omega)

theorem sub_of_le {a b : Nat} (h : b ≤ a) :
    (sub a b : Outcome ε Nat) = .ok (a - b) := if_pos h

theorem mul_of_lt {a b : Nat} (h : a * b < 2 ^ 64) :
    (mul a b : Outcome ε Nat) = .ok (a * b) := if_pos h

theorem onlyErr_add {S : ε → Prop} {a b : Nat} : OnlyErr S (add a b : Outcome ε Nat) := by
  unfold add
  split
  · exact onlyErr_ok
  · exact onlyErr_panic

theorem onlyErr_sub {S : ε → Prop} {a b : Nat} : OnlyErr S (sub a b : Outcome ε Nat) := by
  unfold sub
  split
  · exact onlyErr_ok
  · exact onlyErr_panic

theorem onlyErr_mul {S : ε → Prop} {a b : Nat} : OnlyErr S (mul a b : Outcome ε Nat) := by
  unfold mul
  split
  · exact onlyErr_ok
  · exact onlyErr_panic

theorem isPowerOfTwo_iff {a : Nat} : isPowerOfTwo a = true ↔ ∃ k, a = 2 ^ k := by
  have h := Nat.ne_zero_and_sub_one_eq_zero_iff_isPowerOfTwo (n := a)
  simpa [isPowerOfTwo, Nat.isPowerOfTwo] using h

end U64

end ElfLoader
