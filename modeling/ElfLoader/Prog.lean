import ElfLoader.Outcome
import Mathlib.Logic.Relation

/-!
# Programs that call an environment

A routine that talks to the world through a fixed set of calls is a tree: it is
finished, or it makes one call and goes on with whatever comes back.  The tree
fixes nothing about what the calls do; a `Handler` does, as a relation between
the state before a call, the answer and the state after it.  So one program can
be run against a concrete memory, against an abstract protocol, or interleaved
with other clients of the same state.

The rules are those of a program logic.  `wp H pre p Q s` says that every call
`p` can make from `s` meets `pre` at that moment and that `p` can only finish in
`Q`, whatever the environment answers.  `wp_reaches` and `wp_simulates` turn it
into statements about runs: the first about runs of `p` alone, the second about
runs in which arbitrary other steps happen in between.
-/

namespace ElfLoader

/-- The calls a program may make and what each of them answers. -/
structure Iface where
  Op : Type
  Res : Op → Type

inductive Prog (I : Iface) (ε α : Type) where
  | done (r : Outcome ε α)
  | call (op : I.Op) (k : I.Res op → Prog I ε α)

abbrev Event (I : Iface) := (op : I.Op) × I.Res op

/-- What the calls do to a state: before, call, answer, after. -/
abbrev Handler (I : Iface) (σ : Type) := σ → (op : I.Op) → I.Res op → σ → Prop

namespace Prog

variable {I : Iface} {ε ε' α β γ σ τ : Type}

def bind : Prog I ε α → (α → Prog I ε β) → Prog I ε β
  | done (.ok a), f => f a
  | done (.err e), _ => done (.err e)
  | done .panic, _ => done .panic
  | call op k, f => call op fun r => (k r).bind f

instance : Monad (Prog I ε) where
  pure a := done (.ok a)
  bind := bind

instance : MonadLift (Outcome ε) (Prog I ε) := ⟨done⟩

instance : LawfulMonad (Prog I ε) := LawfulMonad.mk' (Prog I ε)
  (by
    intro α x
    change x.bind (fun a => done (.ok (id a))) = x
    induction x with
    | done r => cases r <;> rfl
    | call op k ih => simp only [bind]; exact congrArg (call op) (funext ih))
  (by intros; rfl)
  (by
    intro α β γ x f g
    change (x.bind f).bind g = x.bind fun a => (f a).bind g
    induction x with
    | done r => cases r <;> rfl
    | call op k ih => simp only [bind]; exact congrArg (call op) (funext ih))

@[simp] theorem lift_ok_bind (a : α) (f : α → Prog I ε β) :
    ((liftM (Outcome.ok a : Outcome ε α) : Prog I ε α) >>= f) = f a := rfl
@[simp] theorem lift_err_bind (e : ε) (f : α → Prog I ε β) :
    ((liftM (Outcome.err e : Outcome ε α) : Prog I ε α) >>= f) = done (.err e) := rfl

/-- The program that makes one call and goes by what its answer means. -/
def ask (op : I.Op) (meaning : I.Res op → Outcome ε α) : Prog I ε α :=
  call op fun r => done (meaning r)

/-- Run a program and hand its error to the caller instead of passing it on. -/
def attempt : Prog I ε α → Prog I ε' (Except ε α)
  | done (.ok a) => done (.ok (.ok a))
  | done (.err e) => done (.ok (.error e))
  | done .panic => done .panic
  | call op k => call op fun r => (k r).attempt

def mapErr (g : ε → ε') : Prog I ε α → Prog I ε' α
  | done r => done (r.mapErr g)
  | call op k => call op fun r => (k r).mapErr g

/-- Run a program against fixed answers; `none` when a call has no answer. -/
def eval (h : (op : I.Op) → Option (I.Res op)) : Prog I ε α → Option (Outcome ε α)
  | done r => some r
  | call op k =>
      match h op with
      | some r => (k r).eval h
      | none => none

section Eval

variable (h : (op : I.Op) → Option (I.Res op))

@[simp] theorem eval_done (r : Outcome ε α) : (done r : Prog I ε α).eval h = some r := rfl

@[simp] theorem eval_pure (a : α) : (pure a : Prog I ε α).eval h = some (.ok a) := rfl

theorem eval_bind (p : Prog I ε α) (f : α → Prog I ε β) :
    (p >>= f).eval h =
      match p.eval h with
      | some (.ok a) => (f a).eval h
      | some (.err e) => some (.err e)
      | some .panic => some .panic
      | none => none := by
  change (p.bind f).eval h = _
  induction p with
  | done r => cases r <;> rfl
  | call op k ih =>
    simp only [bind, eval]
    cases h op with
    | none => rfl
    | some r => exact ih r

theorem eval_bind_ok {p : Prog I ε α} {a : α} (f : α → Prog I ε β)
    (hp : p.eval h = some (.ok a)) : (p >>= f).eval h = (f a).eval h := by
  rw [eval_bind, hp]

/-- Against fixed answers a sequence of calls is a sequence of outcomes. -/
theorem eval_bind_some {p : Prog I ε α} {r : Outcome ε α} {f : α → Prog I ε β}
    {g : α → Outcome ε β} (hp : p.eval h = some r)
    (hf : ∀ a, r = .ok a → (f a).eval h = some (g a)) : (p >>= f).eval h = some (r >>= g) := by
  rw [eval_bind, hp]
  cases r with
  | ok a => exact hf a rfl
  | err e => rfl
  | panic => rfl

end Eval

/-! ### Weakest preconditions -/

/-- Every call of the program meets `pre` when it is made, and the program can
    only finish with `Q`. -/
def wp (H : Handler I σ) (pre : σ → I.Op → Prop) :
    Prog I ε α → (σ → Outcome ε α → Prop) → σ → Prop
  | done r, Q, s => Q s r
  | call op k, Q, s => pre s op ∧ ∀ r s', H s op r s' → wp H pre (k r) Q s'

/-- The postcondition of `p` that makes `p >>= f` finish with `Q`. -/
def andThen (H : Handler I σ) (pre : σ → I.Op → Prop) (f : α → Prog I ε β)
    (Q : σ → Outcome ε β → Prop) : σ → Outcome ε α → Prop
  | s, .ok a => wp H pre (f a) Q s
  | s, .err e => Q s (.err e)
  | s, .panic => Q s .panic

section Wp

variable {H : Handler I σ} {pre : σ → I.Op → Prop} {s : σ}

@[simp] theorem andThen_ok {f : α → Prog I ε β} {Q} {a : α} :
    andThen H pre f Q s (.ok a) = wp H pre (f a) Q s := rfl
@[simp] theorem andThen_err {f : α → Prog I ε β} {Q} {e : ε} :
    andThen H pre f Q s (.err e) = Q s (.err e) := rfl
@[simp] theorem andThen_panic {f : α → Prog I ε β} {Q} :
    andThen H pre f Q s .panic = Q s .panic := rfl

@[simp] theorem wp_done {r : Outcome ε α} {Q} : wp H pre (done r) Q s ↔ Q s r := Iff.rfl

@[simp] theorem wp_pure {a : α} {Q : σ → Outcome ε α → Prop} :
    wp H pre (pure a) Q s ↔ Q s (.ok a) := Iff.rfl

@[simp] theorem wp_lift {r : Outcome ε α} {Q : σ → Outcome ε α → Prop} :
    wp H pre (liftM r : Prog I ε α) Q s ↔ Q s r := Iff.rfl

@[simp] theorem wp_ask {op : I.Op} {meaning : I.Res op → Outcome ε α}
    {Q : σ → Outcome ε α → Prop} :
    wp H pre (ask op meaning) Q s ↔ pre s op ∧ ∀ r s', H s op r s' → Q s' (meaning r) := Iff.rfl

@[simp] theorem wp_bind {p : Prog I ε α} {f : α → Prog I ε β} {Q} :
    wp H pre (p >>= f) Q s ↔ wp H pre p (andThen H pre f Q) s := by
  change wp H pre (p.bind f) Q s ↔ _
  induction p generalizing s with
  | done r => cases r <;> rfl
  | call op k ih => simp only [bind, wp, ih]

/-- A weaker postcondition is easier to meet. -/
theorem wp_mono {p : Prog I ε α} {Q Q' : σ → Outcome ε α → Prop}
    (hp : wp H pre p Q s) (h : ∀ s r, Q s r → Q' s r) : wp H pre p Q' s := by
  induction p generalizing s with
  | done r => exact h s r hp
  | call op k ih => exact ⟨hp.1, fun r s' hs => ih r (hp.2 r s' hs)⟩

theorem wp_pre_mono {pre' : σ → I.Op → Prop} {p : Prog I ε α} {Q : σ → Outcome ε α → Prop}
    (hp : wp H pre p Q s) (h : ∀ s op, pre s op → pre' s op) : wp H pre' p Q s := by
  induction p generalizing s with
  | done r => exact hp
  | call op k ih => exact ⟨h s op hp.1, fun r s' hs => ih r (hp.2 r s' hs)⟩

/-- Fewer answers, fewer runs. -/
theorem wp_handler_mono {H' : Handler I σ} {p : Prog I ε α} {Q : σ → Outcome ε α → Prop}
    (hp : wp H pre p Q s) (h : ∀ s op r s', H' s op r s' → H s op r s') : wp H' pre p Q s := by
  induction p generalizing s with
  | done r => exact hp
  | call op k ih => exact ⟨hp.1, fun r s' hs => ih r (hp.2 r s' (h s op r s' hs))⟩

/-- Sequencing with the first program's own postcondition. -/
theorem wp_seq {p : Prog I ε α} {f : α → Prog I ε β} {Q : σ → Outcome ε β → Prop}
    {R : σ → Outcome ε α → Prop} (hp : wp H pre p R s)
    (h : ∀ s r, R s r → andThen H pre f Q s r) : wp H pre (p >>= f) Q s :=
  wp_bind.mpr (wp_mono hp h)

theorem wp_attempt {p : Prog I ε α} {Q : σ → Outcome ε' (Except ε α) → Prop} :
    wp H pre p.attempt Q s ↔
      wp H pre p (fun s r => match r with
        | .ok a => Q s (.ok (.ok a))
        | .err e => Q s (.ok (.error e))
        | .panic => Q s .panic) s := by
  induction p generalizing s with
  | done r => cases r <;> rfl
  | call op k ih => simp only [attempt, wp, ih]

theorem wp_mapErr {g : ε → ε'} {p : Prog I ε α} {Q : σ → Outcome ε' α → Prop} :
    wp H pre (p.mapErr g) Q s ↔ wp H pre p (fun s r => Q s (r.mapErr g)) s := by
  induction p generalizing s with
  | done r => rfl
  | call op k ih => simp only [mapErr, wp, ih]

/-- What a program can only finish with, it finishes with against fixed answers. -/
theorem wp_eval {h : (op : I.Op) → Option (I.Res op)} {p : Prog I ε α}
    {Q : Unit → Outcome ε α → Prop} {r : Outcome ε α}
    (hp : wp (fun _ op r _ => h op = some r) (fun _ _ => True) p Q ()) (hr : p.eval h = some r) :
    Q () r := by
  induction p with
  | done r' =>
    cases hr
    exact hp
  | call op k ih =>
    simp only [eval] at hr
    split at hr
    · rename_i a ha
      exact ih a (hp.2 a () ha) hr
    · cases hr

/-! Most postconditions say one thing about values and one about errors. -/

/-- `P` of a value, `E` of an error, and a panic only if `X`. -/
def post (P : σ → α → Prop) (E : σ → ε → Prop) (X : Prop) : σ → Outcome ε α → Prop
  | s, .ok a => P s a
  | s, .err e => E s e
  | _, .panic => X

variable {P : σ → α → Prop} {E : σ → ε → Prop} {X : Prop}

@[simp] theorem post_ok {a : α} : post P E X s (.ok a) ↔ P s a := Iff.rfl
@[simp] theorem post_err {e : ε} : post P E X s (.err e) ↔ E s e := Iff.rfl
@[simp] theorem post_panic : post P E X s .panic ↔ X := Iff.rfl

theorem wp_post_mono {p : Prog I ε α} {P' : σ → α → Prop} {E' : σ → ε → Prop}
    (hp : wp H pre p (post P E X) s) (hP : ∀ s a, P s a → P' s a) (hE : ∀ s e, E s e → E' s e) :
    wp H pre p (post P' E' X) s := by
  refine wp_mono hp ?_
  intro s r hr
  cases r with
  | ok a => exact hP s a hr
  | err e => exact hE s e hr
  | panic => exact hr

/-- Sequencing: an error of the first program is the result. -/
theorem wp_bind_post {p : Prog I ε α} {f : α → Prog I ε β} {P' : σ → β → Prop}
    (hp : wp H pre p (post P E X) s)
    (hf : ∀ s a, P s a → wp H pre (f a) (post P' E X) s) :
    wp H pre (p >>= f) (post P' E X) s := by
  refine wp_seq hp ?_
  intro s r hr
  cases r with
  | ok a => exact hf s a hr
  | err e => exact hr
  | panic => exact hr

/-- Sequencing where an error of the first program means something else at the end. -/
theorem wp_bind_err {p : Prog I ε α} {f : α → Prog I ε β} {P' : σ → β → Prop}
    {E' : σ → ε → Prop} (hp : wp H pre p (post P E X) s) (hE : ∀ s e, E s e → E' s e)
    (hf : ∀ s a, P s a → wp H pre (f a) (post P' E' X) s) :
    wp H pre (p >>= f) (post P' E' X) s :=
  wp_bind_post (wp_post_mono hp (fun _ _ h => h) hE) hf

theorem wp_lift_post {r : Outcome ε α} (hok : ∀ a, r = .ok a → P s a)
    (herr : ∀ e, r = .err e → E s e) (hpanic : r = .panic → X) :
    wp H pre (liftM r : Prog I ε α) (post P E X) s := by
  cases r with
  | ok a => exact hok a rfl
  | err e => exact herr e rfl
  | panic => exact hpanic rfl

/-- Sequencing after a computation that makes no call. -/
theorem wp_lift_bind {r : Outcome ε α} {f : α → Prog I ε β} {P' : σ → β → Prop}
    (hok : ∀ a, r = .ok a → wp H pre (f a) (post P' E X) s)
    (herr : ∀ e, r = .err e → E s e) (hpanic : r = .panic → X) :
    wp H pre ((liftM r : Prog I ε α) >>= f) (post P' E X) s := by
  cases r with
  | ok a => exact hok a rfl
  | err e => exact herr e rfl
  | panic => exact hpanic rfl

theorem wp_mapErr_post {g : ε → ε'} {p : Prog I ε α} {E' : σ → ε' → Prop}
    (hp : wp H pre p (post P (fun s e => E' s (g e)) X) s) :
    wp H pre (p.mapErr g) (post P E' X) s := by
  refine wp_mapErr.mpr (wp_mono hp ?_)
  intro s r hr
  cases r with
  | ok a => exact hr
  | err e => exact hr
  | panic => exact hr

theorem wp_attempt_post {p : Prog I ε α} {f : Except ε α → Prog I ε' β} {P' : σ → β → Prop}
    {E' : σ → ε' → Prop} (hp : wp H pre p (post P E X) s)
    (hok : ∀ s a, P s a → wp H pre (f (.ok a)) (post P' E' X) s)
    (herr : ∀ s e, E s e → wp H pre (f (.error e)) (post P' E' X) s) :
    wp H pre (p.attempt >>= f) (post P' E' X) s := by
  refine wp_bind.mpr (wp_attempt.mpr (wp_mono hp ?_))
  intro s r hr
  cases r with
  | ok a => exact hok s a hr
  | err e => exact herr s e hr
  | panic => exact hr

/-- Sequencing where nothing is asked of the result and `L` is kept. -/
theorem wp_bind_kept {p : Prog I ε α} {f : α → Prog I ε β} {L : σ → Prop}
    (hp : wp H pre p (fun s _ => L s) s)
    (hf : ∀ s a, L s → wp H pre (f a) (fun s _ => L s) s) :
    wp H pre (p >>= f) (fun s _ => L s) s := by
  apply wp_seq hp
  intro s r hs
  cases r with
  | ok a => exact hf s a hs
  | err e => exact hs
  | panic => exact hs

/-- A loop over a list: an invariant of the body, indexed by what is left. -/
theorem wp_forM {xs : List β} {body : β → Prog I ε PUnit} (Inv : List β → σ → Prop)
    (h0 : Inv xs s)
    (hbody : ∀ x xs s, Inv (x :: xs) s →
      wp H pre (body x) (post (fun s _ => Inv xs s) E X) s) :
    wp H pre (xs.forM body) (post (fun s _ => Inv [] s) E X) s := by
  induction xs generalizing s with
  | nil => exact h0
  | cons x xs ih => exact wp_bind_post (hbody x xs s h0) fun s _ hs => ih hs

/-- A loop whose every turn changes nothing changes nothing. -/
theorem wp_forM_still {xs : List β} {body : β → Prog I ε PUnit}
    (h : ∀ x ∈ xs, wp H pre (body x) (post (fun s' _ => s' = s) (fun s' _ => s' = s) X) s) :
    wp H pre (xs.forM body) (post (fun s' _ => s' = s) (fun s' _ => s' = s) X) s := by
  refine wp_post_mono (wp_forM (fun left s' => s' = s ∧ ∀ x ∈ left, x ∈ xs)
    ⟨rfl, fun _ hx => hx⟩ ?_) (fun _ _ h => h.1) (fun _ _ h => h)
  rintro x left s' ⟨rfl, hmem⟩
  rw [List.forall_mem_cons] at hmem
  exact wp_post_mono (h x hmem.1) (fun _ _ h => ⟨h, hmem.2⟩) (fun _ _ h => h)

end Wp

/-! ### Runs -/

/-- Every answer is possible and there is no state. -/
def anyAnswer : Handler I Unit := fun _ _ _ _ => True

/-- `Reaches H s p tr s' q`: from state `s`, after the calls and answers in
    `tr`, the state is `s'` and `q` is what is left of `p`. -/
inductive Reaches (H : Handler I σ) :
    σ → Prog I ε α → List (Event I) → σ → Prog I ε α → Prop
  | refl (s : σ) (p : Prog I ε α) : Reaches H s p [] s p
  | step {s s₁ s' : σ} {op : I.Op} {k : I.Res op → Prog I ε α} {r : I.Res op}
      {tr : List (Event I)} {q : Prog I ε α} (hop : H s op r s₁)
      (hrest : Reaches H s₁ (k r) tr s' q) : Reaches H s (call op k) (⟨op, r⟩ :: tr) s' q

/-- One more call, where the answers depend on nothing. -/
theorem reaches_answered {A : (op : I.Op) → I.Res op → Prop} {op : I.Op}
    {k : I.Res op → Prog I ε α} {r : I.Res op} {tr : List (Event I)} {q : Prog I ε α} (hop : A op r)
    (hrest : Reaches (fun _ op r _ => A op r) () (k r) tr () q) :
    Reaches (fun _ op r _ => A op r) () (call op k) (⟨op, r⟩ :: tr) () q := .step hop hrest

theorem reaches_anyAnswer {op : I.Op} {k : I.Res op → Prog I ε α} {r : I.Res op}
    {tr : List (Event I)} {q : Prog I ε α} (hrest : Reaches anyAnswer () (k r) tr () q) :
    Reaches anyAnswer () (call op k) (⟨op, r⟩ :: tr) () q := reaches_answered trivial hrest

theorem reaches_done {H : Handler I σ} {r : Outcome ε α} {s s' : σ} {tr : List (Event I)}
    {q : Prog I ε α} (hrun : Reaches H s (.done r) tr s' q) : tr = [] ∧ s' = s ∧ q = .done r := by
  cases hrun
  exact ⟨rfl, rfl, rfl⟩

/-- A weakest precondition holds of what is left after any part of a run. -/
theorem wp_reaches {H : Handler I σ} {pre : σ → I.Op → Prop} {p q : Prog I ε α}
    {Q : σ → Outcome ε α → Prop} {s s' : σ} {tr : List (Event I)}
    (hwp : wp H pre p Q s) (hrun : Reaches H s p tr s' q) : wp H pre q Q s' := by
  induction hrun with
  | refl s p => exact hwp
  | step hop hrest ih => exact ih (hwp.2 _ _ hop)

/-- Every call of a run met its precondition. -/
theorem Reaches.checked {H : Handler I σ} {pre : σ → I.Op → Prop} {p q : Prog I ε α}
    {Q : σ → Outcome ε α → Prop} {s s' : σ} {tr : List (Event I)} (hrun : Reaches H s p tr s' q)
    (hwp : wp H pre p Q s) : Reaches (fun s op r s' => pre s op ∧ H s op r s') s p tr s' q := by
  induction hrun with
  | refl s p => exact .refl s p
  | step hop hrest ih => exact .step ⟨hwp.1, hop⟩ (ih (hwp.2 _ _ hop))

/-- What the checked calls keep holds after any part of a run. -/
theorem Reaches.keeps {H : Handler I σ} {pre : σ → I.Op → Prop} {p q : Prog I ε α}
    {Q : σ → Outcome ε α → Prop} {s s' : σ} {tr : List (Event I)} (hrun : Reaches H s p tr s' q)
    (hwp : wp H pre p Q s) {Inv : σ → Prop} (hs : Inv s)
    (hstep : ∀ s op r s', Inv s → pre s op → H s op r s' → Inv s') : Inv s' := by
  induction hrun with
  | refl s p => exact hs
  | step hop hrest ih => exact ih (hwp.2 _ _ hop) (hstep _ _ _ _ hs hwp.1 hop)

def trace (h : (op : I.Op) → Option (I.Res op)) : Prog I ε α → List (Event I)
  | done _ => []
  | call op k =>
      match h op with
      | some r => ⟨op, r⟩ :: (k r).trace h
      | none => []

/-- A result against fixed answers is the result of a run, where these can be given. -/
theorem trace_reaches_of {A : (op : I.Op) → I.Res op → Prop} {h : (op : I.Op) → Option (I.Res op)}
    (hA : ∀ op r, h op = some r → A op r) {p : Prog I ε α} {r : Outcome ε α}
    (hr : p.eval h = some r) :
    Reaches (fun _ op r _ => A op r) () p (p.trace h) () (.done r) := by
  induction p with
  | done r' =>
    cases hr
    exact .refl () _
  | call op k ih =>
    simp only [eval] at hr
    split at hr
    · rename_i a ha
      simp only [trace, ha]
      exact .step (hA op a ha) (ih a hr)
    · cases hr

theorem trace_reaches {h : (op : I.Op) → Option (I.Res op)} {p : Prog I ε α} {r : Outcome ε α}
    (hr : p.eval h = some r) : Reaches anyAnswer () p (p.trace h) () (.done r) :=
  trace_reaches_of (fun _ _ _ => trivial) hr

theorem eval_reaches {h : (op : I.Op) → Option (I.Res op)} {p : Prog I ε α} {r : Outcome ε α}
    (hr : p.eval h = some r) : ∃ tr, Reaches anyAnswer () p tr () (.done r) :=
  ⟨p.trace h, trace_reaches hr⟩

/-- The handler that also keeps notes about the calls and their answers. -/
def recorded {γ : Type} (H : Handler I σ) (note : γ → (op : I.Op) → I.Res op → γ) :
    Handler I (σ × γ) :=
  fun s op r s' => H s.1 op r s'.1 ∧ s'.2 = note s.2 op r

theorem Reaches.recorded {γ : Type} {H : Handler I σ} {p q : Prog I ε α} {s s' : σ}
    {tr : List (Event I)} (hrun : Reaches H s p tr s' q)
    (note : γ → (op : I.Op) → I.Res op → γ) (g : γ) :
    Reaches (Prog.recorded H note) (s, g) p tr (s', tr.foldl (fun g e => note g e.1 e.2) g) q := by
  induction hrun generalizing g with
  | refl s p => exact .refl _ _
  | step hop hrest ih => exact .step ⟨hop, rfl⟩ (ih _)

/-- The notes of a run, taken by themselves. -/
theorem Reaches.noted {γ : Type} {H : Handler I σ} {G : Handler I γ} {p q : Prog I ε α} {s s' : σ}
    {tr : List (Event I)} (hrun : Reaches H s p tr s' q)
    (note : γ → (op : I.Op) → I.Res op → γ)
    (hnote : ∀ s op r s' g, H s op r s' → G g op r (note g op r)) (g : γ) :
    Reaches G g p tr (tr.foldl (fun g e => note g e.1 e.2) g) q := by
  induction hrun generalizing g with
  | refl s p => exact .refl _ _
  | step hop hrest ih => exact .step (hnote _ _ _ _ _ hop) (ih _)

/-- What every call has to meet, the calls of a run have met. -/
theorem Reaches.forall_event {H : Handler I σ} {P : I.Op → Prop} {p q : Prog I ε α}
    {Q : σ → Outcome ε α → Prop} {s s' : σ} {tr : List (Event I)} (hrun : Reaches H s p tr s' q)
    (hwp : wp H (fun _ op => P op) p Q s) : ∀ e ∈ tr, P e.1 := by
  induction hrun with
  | refl s p => exact fun _ he => absurd he List.not_mem_nil
  | step hop hrest ih => exact List.forall_mem_cons.mpr ⟨hwp.1, ih (hwp.2 _ _ hop)⟩

/-- Answers that depend on nothing, with the calls that were made as the state. -/
def remembering (A : (op : I.Op) → I.Res op → Prop) : Handler I (List (Event I)) :=
  fun h op r h' => A op r ∧ h' = h ++ [⟨op, r⟩]

/-- The notes that keep everything. -/
theorem foldl_snoc (h tr : List (Event I)) :
    tr.foldl (fun h e => h ++ [⟨e.1, e.2⟩]) h = h ++ tr := by
  induction tr generalizing h with
  | nil => exact (List.append_nil h).symm
  | cons e tr ih => rw [List.foldl_cons, ih, List.append_assoc, List.singleton_append]

theorem Reaches.remembering {A : (op : I.Op) → I.Res op → Prop} {p q : Prog I ε α} {u u' : Unit}
    {tr : List (Event I)} (hrun : Reaches (fun _ op r _ => A op r) u p tr u' q)
    (h : List (Event I)) : Reaches (Prog.remembering A) h p tr (h ++ tr) q := by
  have hnoted := hrun.noted (G := Prog.remembering A) (fun h op r => h ++ [⟨op, r⟩])
    (fun _ _ _ _ _ hop => ⟨hop, rfl⟩) h
  rwa [foldl_snoc] at hnoted

/-- A handler whose state has the calls that were made with it. -/
def traced (H : Handler I σ) : Handler I (σ × List (Event I)) :=
  recorded H fun h op r => h ++ [⟨op, r⟩]

theorem Reaches.traced {H : Handler I σ} {p q : Prog I ε α} {s s' : σ} {tr : List (Event I)}
    (hrun : Reaches H s p tr s' q) (h : List (Event I)) :
    Reaches (Prog.traced H) (s, h) p tr (s', h ++ tr) q := by
  have hrecorded := hrun.recorded (fun h op r => h ++ [⟨op, r⟩]) h
  rwa [foldl_snoc] at hrecorded

theorem wp_traced {H : Handler I σ} {pre : σ × List (Event I) → I.Op → Prop} {op : I.Op}
    {k : I.Res op → Prog I ε α} {Q : σ × List (Event I) → Outcome ε α → Prop}
    {s : σ × List (Event I)} (hop : pre s op)
    (hk : ∀ r s', H s.1 op r s' → wp (traced H) pre (k r) Q (s', s.2 ++ [⟨op, r⟩])) :
    wp (traced H) pre (call op k) Q s := by
  refine ⟨hop, ?_⟩
  rintro r ⟨s', h'⟩ ⟨hstep, hh⟩
  have hsame : h' = s.2 ++ [⟨op, r⟩] := hh
  subst hsame
  exact hk r s' hstep

/-- What every call has to meet after the calls before it, the calls of a run have met. -/
theorem Reaches.forall_split {A : (op : I.Op) → I.Res op → Prop}
    {pre : List (Event I) → I.Op → Prop} {p q : Prog I ε α}
    {Q : List (Event I) → Outcome ε α → Prop} {h h' tr : List (Event I)}
    (hrun : Reaches (Prog.remembering A) h p tr h' q) (hwp : wp (Prog.remembering A) pre p Q h) :
    ∀ before e after, tr = before ++ e :: after → pre (h ++ before) e.1 := by
  induction hrun with
  | refl h p =>
    intro before e after hnil
    simp at hnil
  | step hop hrest ih =>
    intro before e after hsplit
    cases before with
    | nil =>
      rcases List.cons_eq_cons.mp hsplit with ⟨rfl, -⟩
      rw [List.append_nil]
      exact hwp.1
    | cons x before =>
      rcases List.cons_eq_cons.mp hsplit with ⟨rfl, hafter⟩
      have hpre := ih (hwp.2 _ _ hop) before e after hafter
      rw [hop.2, List.append_assoc] at hpre
      exact hpre

/-- A run all of whose calls meet a condition is a run of the calls that do. -/
theorem Reaches.restrict {H : Handler I σ} {P : I.Op → Prop} {p q : Prog I ε α} {s s' : σ}
    {tr : List (Event I)} (hrun : Reaches H s p tr s' q) (hP : ∀ e ∈ tr, P e.1) :
    Reaches (fun s op r s' => P op ∧ H s op r s') s p tr s' q := by
  induction hrun with
  | refl s p => exact .refl s p
  | step hop hrest ih =>
    rw [List.forall_mem_cons] at hP
    exact .step ⟨hP.1, hop⟩ (ih hP.2)

/-- Where every call that can be made is answered, there is a run to the end. -/
theorem exists_run_of_wp {H : Handler I σ} {pre : σ → I.Op → Prop} {p : Prog I ε α}
    {Q : σ → Outcome ε α → Prop} {s : σ} (hp : wp H pre p Q s)
    (hH : ∀ s op, pre s op → ∃ r s', H s op r s') :
    ∃ tr s' r, Reaches H s p tr s' (.done r) ∧ Q s' r := by
  induction p generalizing s with
  | done r => exact ⟨[], s, r, .refl s _, hp⟩
  | call op k ih =>
    rcases hH s op hp.1 with ⟨a, s₁, hop⟩
    rcases ih a (hp.2 a s₁ hop) with ⟨tr, s', r, hrest, hr⟩
    exact ⟨_, s', r, .step hop hrest, hr⟩

theorem exists_reaches_done {H : Handler I σ} (hH : ∀ s op, ∃ r s', H s op r s')
    (p : Prog I ε α) (s : σ) : ∃ tr s' r, Reaches H s p tr s' (.done r) := by
  have htrue : wp H (fun _ _ => True) p (fun _ _ => True) s := by
    induction p generalizing s with
    | done r => trivial
    | call op k ih => exact ⟨trivial, fun r s' _ => ih r s'⟩
  rcases exists_run_of_wp htrue fun s op _ => hH s op with ⟨tr, s', r, hrun, -⟩
  exact ⟨tr, s', r, hrun⟩

/-- A program whose calls leave no trace in the notes can be treated without. -/
theorem wp_recorded {γ : Type} {H : Handler I σ} {pre : σ → I.Op → Prop}
    {note : γ → (op : I.Op) → I.Res op → γ} {p : Prog I ε α} {Q : σ → Outcome ε α → Prop} {s : σ}
    {g : γ} (hnote : ∀ s op r, pre s op → note g op r = g) (hp : wp H pre p Q s) :
    wp (recorded H note) (fun s op => pre s.1 op) p (fun s r => s.2 = g ∧ Q s.1 r) (s, g) := by
  induction p generalizing s with
  | done r => exact ⟨rfl, hp⟩
  | call op k ih =>
    refine ⟨hp.1, ?_⟩
    rintro r ⟨s', g'⟩ ⟨hop, hg⟩
    obtain rfl : g' = g := hg.trans (hnote s op r hp.1)
    exact ih r (hp.2 r s' hop)

/-- A run in pieces: first `p` to its value, then what follows it. -/
theorem Reaches.bind {H : Handler I σ} {p : Prog I ε α} {f : α → Prog I ε β} {q : Prog I ε β}
    {s s' s'' : σ} {tr tr' : List (Event I)} {a : α} (h₁ : Reaches H s p tr s' (.done (.ok a)))
    (h₂ : Reaches H s' (f a) tr' s'' q) : Reaches H s (p >>= f) (tr ++ tr') s'' q := by
  generalize hr : (done (.ok a) : Prog I ε α) = r at h₁
  induction h₁ with
  | refl s p =>
    subst hr
    exact h₂
  | step hop hrest ih => exact .step hop (ih h₂ hr)

/-- A run of two programs in a row is still in the first, or has its value and is in
    the second. -/
theorem Reaches.of_bind {H : Handler I σ} {p : Prog I ε α} {f : α → Prog I ε β} {q : Prog I ε β}
    {s s' : σ} {tr : List (Event I)} (hrun : Reaches H s (p >>= f) tr s' q) :
    (∃ p', Reaches H s p tr s' p' ∧ q = p' >>= f ∧ ∀ a, p' ≠ done (.ok a)) ∨
      ∃ tr₁ tr₂ s₁ a, tr = tr₁ ++ tr₂ ∧ Reaches H s p tr₁ s₁ (.done (.ok a)) ∧
        Reaches H s₁ (f a) tr₂ s' q := by
  induction p generalizing s tr with
  | done r =>
    cases r with
    | ok a => exact Or.inr ⟨[], tr, s, a, rfl, .refl _ _, hrun⟩
    | err e =>
      cases hrun
      exact Or.inl ⟨_, .refl _ _, rfl, fun a h => nomatch h⟩
    | panic =>
      cases hrun
      exact Or.inl ⟨_, .refl _ _, rfl, fun a h => nomatch h⟩
  | call op k ih =>
    cases hrun with
    | refl => exact Or.inl ⟨_, .refl _ _, rfl, fun a h => nomatch h⟩
    | step hop hrest =>
      rcases ih _ hrest with ⟨p', hp', hq, hne⟩ | ⟨tr₁, tr₂, s₁, a, rfl, hfirst, hsecond⟩
      · exact Or.inl ⟨p', .step hop hp', hq, hne⟩
      · exact Or.inr ⟨_, tr₂, s₁, a, rfl, .step hop hfirst, hsecond⟩

/-- What has no value yet has none with something behind it. -/
theorem bind_ne_ok {p : Prog I ε α} (hp : ∀ a, p ≠ done (.ok a)) (f : α → Prog I ε β) (b : β) :
    p >>= f ≠ done (.ok b) := by
  cases p with
  | call op k => exact fun h => nomatch h
  | done r =>
    cases r with
    | ok a => exact absurd rfl (hp a)
    | err e => exact fun h => nomatch h
    | panic => exact fun h => nomatch h

/-- Run a program on a machine that answers every call and changes its state. -/
def run (f : σ → (op : I.Op) → I.Res op × σ) :
    Prog I ε α → σ → List (Event I) × σ × Outcome ε α
  | done r, s => ([], s, r)
  | call op k, s =>
      let a := f s op
      let rest := (k a.1).run f a.2
      (⟨op, a.1⟩ :: rest.1, rest.2)

/-- The run of a machine that keeps to a handler is a run of the handler. -/
theorem run_reaches {H : Handler I σ} {f : σ → (op : I.Op) → I.Res op × σ}
    (hf : ∀ s op, H s op (f s op).1 (f s op).2) (p : Prog I ε α) (s : σ) :
    Reaches H s p (p.run f s).1 (p.run f s).2.1 (.done (p.run f s).2.2) := by
  induction p generalizing s with
  | done r => exact .refl s _
  | call op k ih => exact .step (hf s op) (ih _ _)

/-- Run a program up to the first call that the machine does not answer. -/
def runUntil (f : σ → (op : I.Op) → Option (I.Res op × σ)) :
    Prog I ε α → σ → List (Event I) × σ × Prog I ε α
  | done r, s => ([], s, done r)
  | call op k, s =>
      match f s op with
      | none => ([], s, call op k)
      | some (a, s₁) =>
          let rest := (k a).runUntil f s₁
          (⟨op, a⟩ :: rest.1, rest.2)

theorem runUntil_reaches {H : Handler I σ} {f : σ → (op : I.Op) → Option (I.Res op × σ)}
    (hf : ∀ s op r s', f s op = some (r, s') → H s op r s') (p : Prog I ε α) (s : σ) :
    Reaches H s p (p.runUntil f s).1 (p.runUntil f s).2.1 (p.runUntil f s).2.2 := by
  induction p generalizing s with
  | done r => exact .refl s _
  | call op k ih =>
    unfold runUntil
    split
    · exact .refl s _
    · rename_i a s₁ hanswer
      exact .step (hf s op a s₁ hanswer) (ih a s₁)

/-! ### Interleavings -/

/-- A program running while other clients take steps of their own; `tr` are the calls of
    the program. -/
inductive Interleaves (H : Handler I σ) (env : σ → σ → Prop) :
    σ → Prog I ε α → List (Event I) → σ → Prog I ε α → Prop
  | refl (s : σ) (p : Prog I ε α) : Interleaves H env s p [] s p
  | own {s s₁ s' : σ} {op : I.Op} {k : I.Res op → Prog I ε α} {r : I.Res op}
      {tr : List (Event I)} {q : Prog I ε α} (hop : H s op r s₁)
      (hrest : Interleaves H env s₁ (k r) tr s' q) :
      Interleaves H env s (call op k) (⟨op, r⟩ :: tr) s' q
  | other {s s₁ s' : σ} {p q : Prog I ε α} {tr : List (Event I)} (henv : env s s₁)
      (hrest : Interleaves H env s₁ p tr s' q) : Interleaves H env s p tr s' q

section Interleaved

variable {H : Handler I σ} {env : σ → σ → Prop} {p q : Prog I ε α} {s s' : σ}
  {tr : List (Event I)}

theorem Reaches.interleaves (h : Reaches H s p tr s' q) (env : σ → σ → Prop) :
    Interleaves H env s p tr s' q := by
  induction h with
  | refl s p => exact .refl s p
  | step hop hrest ih => exact .own hop ih

theorem Interleaves.trans {q' : Prog I ε α} {s'' : σ} {tr' : List (Event I)}
    (h : Interleaves H env s p tr s' q) (h' : Interleaves H env s' q tr' s'' q') :
    Interleaves H env s p (tr ++ tr') s'' q' := by
  induction h with
  | refl s p => exact h'
  | own hop hrest ih => exact .own hop (ih h')
  | other henv hrest ih => exact .other henv (ih h')

/-- The calls of the program alone, with the answers they got. -/
theorem Interleaves.answered {A : (op : I.Op) → I.Res op → Prop}
    (h : Interleaves H env s p tr s' q) (hA : ∀ s op r s', H s op r s' → A op r) :
    Reaches (fun (_ : Unit) op r _ => A op r) () p tr () q := by
  induction h with
  | refl s p => exact .refl _ p
  | own hop hrest ih => exact reaches_answered (hA _ _ _ _ hop) ih
  | other henv hrest ih => exact ih

/-- What only the program's own calls change, its calls determine. -/
theorem Interleaves.noted {γ : Type} (view : σ → γ) (note : γ → (op : I.Op) → I.Res op → γ)
    (h : Interleaves H env s p tr s' q)
    (hown : ∀ s op r s', H s op r s' → view s' = note (view s) op r)
    (henv : ∀ s s', env s s' → view s' = view s) :
    view s' = tr.foldl (fun g e => note g e.1 e.2) (view s) := by
  induction h with
  | refl s p => rfl
  | own hop hrest ih => rw [ih, hown _ _ _ _ hop, List.foldl_cons]
  | other he hrest ih => rw [ih, henv _ _ he]

end Interleaved

/-- **Simulation by a protocol.**  Let the program follow a protocol `G` whose
    state no other client can see, and let `J` tie the protocol state to the real
    one.  If the program's own calls keep `J` wherever the protocol permits them,
    and the other clients' steps keep it too, then `J` holds, and the rest of the
    program still follows the protocol, after every interleaving. -/
theorem wp_simulates {H : Handler I σ} {env : σ → σ → Prop} {G : Handler I τ}
    {pre : τ → I.Op → Prop} {J : τ → σ → Prop} {p q : Prog I ε α}
    {Q : τ → Outcome ε α → Prop} {s s' : σ} {tr : List (Event I)} {g : τ}
    (hown : ∀ g s op r s', J g s → pre g op → H s op r s' → ∃ g', G g op r g' ∧ J g' s')
    (henv : ∀ g s s', J g s → env s s' → J g s')
    (hJ : J g s) (hwp : wp G pre p Q g) (hrun : Interleaves H env s p tr s' q) :
    ∃ g', J g' s' ∧ wp G pre q Q g' := by
  induction hrun generalizing g with
  | refl s p => exact ⟨g, hJ, hwp⟩
  | own hop hrest ih =>
    obtain ⟨g', hG, hJ'⟩ := hown _ _ _ _ _ hJ hwp.1 hop
    exact ih hJ' (hwp.2 _ _ hG)
  | other he hrest ih => exact ih (henv _ _ _ hJ he) hwp

end Prog

end ElfLoader
