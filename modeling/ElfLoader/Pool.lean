import ElfLoader.Implement
import Mathlib.Logic.Function.Basic

/-!
# Programs side by side

Any number of programs share a state and take turns, one call at a time.  If each of them
keeps to an account of its own, and the accounts together are tied to the shared state, then
after every interleaving each program has run as if its account were all there is.
-/

namespace ElfLoader.Prog

variable {I : Iface} {ι ε α σ τ : Type} [DecidableEq ι]

/-- The programs `p`, called in any order, have come to be `q`. -/
inductive Pool (H : Handler I σ) : σ → (ι → Prog I ε α) → σ → (ι → Prog I ε α) → Prop
  | refl (s : σ) (p : ι → Prog I ε α) : Pool H s p s p
  | turn {s s₁ s' : σ} {p q : ι → Prog I ε α} (i : ι) {op : I.Op} {k : I.Res op → Prog I ε α}
      {r : I.Res op} (hcall : p i = call op k) (hop : H s op r s₁)
      (hrest : Pool H s₁ (Function.update p i (k r)) s' q) : Pool H s p s' q

/-- **Accounts of a pool.**  `J` ties the accounts to the state they share.  If a call that
    one account permits can be seen by it, and leaves `J`, then every program has run by its
    own account, whatever the order of the calls. -/
theorem Pool.accounts {H : Handler I σ} {G : Handler I τ} {pre : ι → τ → I.Op → Prop}
    {J : (ι → τ) → σ → Prop}
    (hstep : ∀ g s i op r s', J g s → pre i (g i) op → H s op r s' →
      ∃ t, G (g i) op r t ∧ J (Function.update g i t) s')
    {s s' : σ} {p q : ι → Prog I ε α} (hrun : Pool H s p s' q) {Q : ι → τ → Outcome ε α → Prop}
    {g : ι → τ} (hJ : J g s) (hp : ∀ i, wp G (pre i) (p i) (Q i) (g i)) :
    ∃ g', J g' s' ∧
      ∀ i, wp G (pre i) (q i) (Q i) (g' i) ∧ ∃ tr, Reaches G (g i) (p i) tr (g' i) (q i) := by
  induction hrun generalizing g with
  | refl s p => exact ⟨g, hJ, fun i => ⟨hp i, [], .refl _ _⟩⟩
  | @turn s s₁ s' p q i op k r hcall hop hrest ih =>
    have hi := hp i
    rw [hcall] at hi
    rcases hstep g s i op r s₁ hJ hi.1 hop with ⟨t, hG, hJ'⟩
    have hp' : ∀ j, wp G (pre j) (Function.update p i (k r) j) (Q j) (Function.update g i t j) := by
      intro j
      by_cases hj : j = i
      · subst hj
        rw [Function.update_self, Function.update_self]
        exact hi.2 r t hG
      · rw [Function.update_of_ne hj, Function.update_of_ne hj]
        exact hp j
    rcases ih hJ' hp' with ⟨g', hend, hall⟩
    refine ⟨g', hend, fun j => ⟨(hall j).1, ?_⟩⟩
    rcases (hall j).2 with ⟨tr, hj⟩
    by_cases hji : j = i
    · subst hji
      rw [Function.update_self, Function.update_self] at hj
      rw [hcall]
      exact ⟨_, .step hG hj⟩
    · rw [Function.update_of_ne hji, Function.update_of_ne hji] at hj
      exact ⟨tr, hj⟩

/-- The outcome of a program that has come to its end. -/
def outcome? : Prog I ε α → Option (Outcome ε α)
  | done r => some r
  | call _ _ => none

theorem eq_done_of_outcome {p : Prog I ε α} {r : Outcome ε α} (h : p.outcome? = some r) :
    p = done r := by
  cases p with
  | done r' =>
    cases h
    rfl
  | call op k => cases h

/-- A machine that gives the programs their turns in this order. -/
def runPool (f : σ → (op : I.Op) → I.Res op × σ) :
    List ι → σ → (ι → Prog I ε α) → σ × (ι → Prog I ε α)
  | [], s, p => (s, p)
  | i :: order, s, p =>
      match p i with
      | done _ => runPool f order s p
      | call op k => runPool f order (f s op).2 (Function.update p i (k (f s op).1))

theorem runPool_pool {H : Handler I σ} {f : σ → (op : I.Op) → I.Res op × σ}
    (hf : ∀ s op, H s op (f s op).1 (f s op).2) (order : List ι) (s : σ) (p : ι → Prog I ε α) :
    Pool H s p (runPool f order s p).1 (runPool f order s p).2 := by
  induction order generalizing s p with
  | nil => exact .refl s p
  | cons i order ih =>
    rw [runPool]
    split
    · exact ih s p
    · rename_i op k hcall
      exact .turn i hcall (hf s op) (ih _ _)

end ElfLoader.Prog
