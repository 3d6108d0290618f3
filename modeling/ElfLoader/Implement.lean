import ElfLoader.Prog

/-!
# Calls carried out by programs

The calls of one level are carried out by programs over the calls of the level below.
`Prog.via` puts these programs in the place of the calls, and `Implements` says what
they owe: from related states, each of them comes back with an answer the call may give,
in states that are related again.  Then every run of the composed program is, call by
call, a run of the program above, and whatever is known of that one holds of it.
-/

namespace ElfLoader

/-- For each call of `J` a program over `I` that comes back with its answer. -/
abbrev Impl (J I : Iface) := (op : J.Op) → Prog I Empty (J.Res op)

namespace Prog

variable {I J : Iface} {ε ε' α β σ τ : Type}

def via (impl : Impl J I) : Prog J ε α → Prog I ε α
  | done r => done r
  | call op k => ((impl op).mapErr Empty.elim).bind fun a => (k a).via impl

section Via

variable (impl : Impl J I)

@[simp] theorem via_done (r : Outcome ε α) : (done r : Prog J ε α).via impl = done r := rfl

@[simp] theorem via_pure (a : α) : (pure a : Prog J ε α).via impl = pure a := rfl

@[simp] theorem via_lift (r : Outcome ε α) :
    (liftM r : Prog J ε α).via impl = (liftM r : Prog I ε α) := rfl

@[simp] theorem via_call (op : J.Op) (k : J.Res op → Prog J ε α) :
    (call op k).via impl = (impl op).mapErr Empty.elim >>= fun a => (k a).via impl := rfl

theorem via_bind (p : Prog J ε α) (f : α → Prog J ε β) :
    (p >>= f).via impl = p.via impl >>= fun a => (f a).via impl := by
  induction p with
  | done r =>
    cases r with
    | ok a => rfl
    | err e => rfl
    | panic => rfl
  | call op k ih =>
    change ((impl op).mapErr Empty.elim >>= fun a => (k a >>= f).via impl) = _
    rw [via_call, bind_assoc]
    apply bind_congr
    exact ih

theorem eval_mapErr (h : (op : I.Op) → Option (I.Res op)) (g : ε → ε') (p : Prog I ε α) :
    (p.mapErr g).eval h = (p.eval h).map (Outcome.mapErr g) := by
  induction p with
  | done r => rfl
  | call op k ih =>
    simp only [mapErr, eval]
    cases h op with
    | none => rfl
    | some r => exact ih r

/-- The error a program leaves to its caller, raised again. -/
def raise : Except ε α → Prog I ε α
  | .ok a => done (.ok a)
  | .error e => done (.err e)

/-- Nothing comes of catching an error only to raise it. -/
theorem attempt_raise (p : Prog I ε α) : (p.attempt >>= raise : Prog I ε α) = p := by
  induction p with
  | done r =>
    cases r with
    | ok a => rfl
    | err e => rfl
    | panic => rfl
  | call op k ih => exact congrArg (call op) (funext ih)

theorem attempt_bind_of_no_error (p : Prog I Empty α) (f : α → Prog I ε β) :
    ((p.mapErr Empty.elim : Prog I ε α) >>= f).attempt =
      ((p.mapErr Empty.elim : Prog I ε' α) >>= fun a => (f a).attempt) := by
  induction p with
  | done r =>
    cases r with
    | ok a => rfl
    | err e => exact e.elim
    | panic => rfl
  | call op k ih => exact congrArg (call op) (funext ih)

theorem via_attempt (p : Prog J ε α) :
    (p.attempt : Prog J ε' (Except ε α)).via impl = (p.via impl).attempt := by
  induction p with
  | done r =>
    cases r with
    | ok a => rfl
    | err e => rfl
    | panic => rfl
  | call op k ih =>
    change ((impl op).mapErr Empty.elim >>= fun a => ((k a).attempt).via impl) = _
    rw [via_call, attempt_bind_of_no_error]
    apply bind_congr
    exact ih

end Via

/-! ### What an implementation owes -/

/-- The result of a run, together with the run. -/
theorem wp_with_run {H : Handler I σ} {pre : σ → I.Op → Prop} {p : Prog I ε α}
    {Q : σ → Outcome ε α → Prop} {s : σ} (hp : wp H pre p Q s) :
    wp H pre p (fun s' r => Q s' r ∧ ∃ tr, Reaches H s p tr s' (.done r)) s := by
  induction p generalizing s with
  | done r => exact ⟨hp, [], .refl s _⟩
  | call op k ih =>
    constructor
    · exact hp.1
    intro a s₁ hop
    apply wp_mono (ih a (hp.2 a s₁ hop))
    intro s' r hr
    rcases hr with ⟨hQ, tr, hrun⟩
    exact ⟨hQ, _, .step hop hrun⟩

/-- What holds of every part of every run is a weakest precondition. -/
theorem wp_of_reaches {H : Handler I σ} {pre : σ → I.Op → Prop} {p : Prog I ε α}
    {Q : σ → Outcome ε α → Prop} {s : σ}
    (hcall : ∀ tr s' op k, Reaches H s p tr s' (call op k) → pre s' op)
    (hdone : ∀ tr s' r, Reaches H s p tr s' (done r) → Q s' r) : wp H pre p Q s := by
  induction p generalizing s with
  | done r => exact hdone [] s r (.refl s _)
  | call op k ih =>
    constructor
    · exact hcall [] s op k (.refl s _)
    intro a s₁ hop
    apply ih a
    · intro tr s' op' k' hrun
      exact hcall _ s' op' k' (.step hop hrun)
    · intro tr s' r hrun
      exact hdone _ s' r (.step hop hrun)

/-- A handler can be exchanged where the calls that are made cannot tell. -/
theorem wp_exchange {H H' : Handler I σ} {pre : σ → I.Op → Prop} {p : Prog I ε α}
    {Q : σ → Outcome ε α → Prop} {s : σ} (hp : wp H pre p Q s)
    (h : ∀ s op r s', pre s op → H' s op r s' → H s op r s') : wp H' pre p Q s := by
  induction p generalizing s with
  | done r => exact hp
  | call op k ih =>
    constructor
    · exact hp.1
    intro r s' hop
    exact ih r (hp.2 r s' (h s op r s' hp.1 hop))

/-- What every call keeps holds at the end. -/
theorem wp_keeps {H : Handler I σ} {pre : σ → I.Op → Prop} {J : σ → Prop} {p : Prog I ε α}
    {Q : σ → Outcome ε α → Prop} {s : σ} (hstep : ∀ s op r s', J s → H s op r s' → J s')
    (hp : wp H pre p Q s) (hs : J s) : wp H pre p (fun s' r => Q s' r ∧ J s') s := by
  induction p generalizing s with
  | done r => exact ⟨hp, hs⟩
  | call op k ih =>
    constructor
    · exact hp.1
    intro r s' hop
    exact ih r (hp.2 r s' hop) (hstep s op r s' hs hop)

/-- Two specifications of one program hold together. -/
theorem wp_and {H : Handler I σ} {pre pre' : σ → I.Op → Prop} {p : Prog I ε α}
    {Q Q' : σ → Outcome ε α → Prop} {s : σ} (hp : wp H pre p Q s) (hp' : wp H pre' p Q' s) :
    wp H (fun s op => pre s op ∧ pre' s op) p (fun s r => Q s r ∧ Q' s r) s := by
  induction p generalizing s with
  | done r => exact ⟨hp, hp'⟩
  | call op k ih =>
    exact ⟨⟨hp.1, hp'.1⟩, fun r s' hop => ih r (hp.2 r s' hop) (hp'.2 r s' hop)⟩

/-- The call leaves `J`, whatever it answers. -/
def upholds (H : Handler I σ) (J : σ → Prop) (s : σ) (op : I.Op) : Prop := ∀ r s', H s op r s' → J s'

theorem upholds.mono {H : Handler I σ} {J J' : σ → Prop} {s : σ} {op : I.Op}
    (h : upholds H J s op) (hJ : ∀ s, J s → J' s) : upholds H J' s op :=
  fun r s' hop => hJ s' (h r s' hop)

theorem wp_ask_upholds {H : Handler I σ} {J : σ → Prop} {op : I.Op}
    {meaning : I.Res op → Outcome ε α} {Q : σ → Outcome ε α → Prop} {s : σ}
    (h : ∀ r s', H s op r s' → J s' ∧ Q s' (meaning r)) :
    wp H (upholds H J) (ask op meaning) Q s :=
  wp_ask.mpr ⟨fun r s' hop => (h r s' hop).1, fun r s' hop => (h r s' hop).2⟩

/-- What every call leaves holds wherever a run has got to, be it the middle or the end. -/
theorem Reaches.upheld {H : Handler I σ} {J : σ → Prop} {p q : Prog I ε α}
    {Q : σ → Outcome ε α → Prop} {s s' : σ} {tr : List (Event I)} (hrun : Reaches H s p tr s' q)
    (hwp : wp H (upholds H J) p Q s) (hs : J s) : J s' :=
  hrun.keeps hwp hs fun _ _ r s' _ hleaves hop => hleaves r s' hop

/-- Calls that leave no note leave the notes as they are. -/
theorem wp_recorded_upholds {γ : Type} {H : Handler I σ} {J : σ → Prop} {pre : σ → I.Op → Prop}
    {note : γ → (op : I.Op) → I.Res op → γ} {p : Prog I ε α} {Q : σ → Outcome ε α → Prop} {s : σ}
    {g : γ} (hnote : ∀ s op r, pre s op → note g op r = g)
    (hp : wp H (fun s op => pre s op ∧ upholds H J s op) p Q s) :
    wp (recorded H note) (upholds (recorded H note) fun s => s.2 = g ∧ J s.1) p
      (fun s r => s.2 = g ∧ Q s.1 r) (s, g) := by
  induction p generalizing s with
  | done r => exact ⟨rfl, hp⟩
  | call op k ih =>
    have hsame {r : I.Res op} {s' : σ × γ} (hop : recorded H note (s, g) op r s') : s'.2 = g :=
      hop.2.trans (hnote s op r hp.1.1)
    constructor
    · intro r s' hop
      exact ⟨hsame hop, hp.1.2 r s'.1 hop.1⟩
    · intro r s' hop
      rcases s' with ⟨s', g'⟩
      obtain rfl : g' = g := hsame hop
      exact ih r (hp.2 r s' hop.1)

/-- A run, seen through a function of its states. -/
theorem Reaches.seen {H : Handler I σ} {G : Handler I τ} {p q : Prog I ε α} {s s' : σ}
    {tr : List (Event I)} (hrun : Reaches H s p tr s' q) (f : σ → τ)
    (h : ∀ s op r s', H s op r s' → G (f s) op r (f s')) : Reaches G (f s) p tr (f s') q := by
  induction hrun with
  | refl s p => exact .refl _ p
  | step hop _ ih => exact .step (h _ _ _ _ hop) ih

/-- **Two accounts of one program.**  If `J` ties the states of two accounts and each call
    one of them can see is a call the other can see, then every call meets the conditions of
    both, and so does the end. -/
theorem wp_ghost {H : Handler I σ} {G : Handler I τ} {pre : σ → I.Op → Prop}
    {preG : τ → I.Op → Prop} {J : τ → σ → Prop}
    (hstep : ∀ g s op r s', J g s → preG g op → pre s op → H s op r s' →
      ∃ g', G g op r g' ∧ J g' s')
    {p : Prog I ε α} {Q : σ → Outcome ε α → Prop} {QG : τ → Outcome ε α → Prop} {s : σ} {g : τ}
    (hJ : J g s) (hG : wp G preG p QG g) (hH : wp H pre p Q s) :
    wp H (fun s op => pre s op ∧ ∃ g, J g s ∧ preG g op) p
      (fun s r => Q s r ∧ ∃ g, J g s ∧ QG g r) s := by
  induction p generalizing s g with
  | done r => exact ⟨hH, g, hJ, hG⟩
  | call op k ih =>
    constructor
    · exact ⟨hH.1, g, hJ, hG.1⟩
    intro r s' hop
    rcases hstep g s op r s' hJ hG.1 hH.1 hop with ⟨g', hop', hJ'⟩
    exact ih r hJ' (hG.2 r g' hop') (hH.2 r s' hop)

/-! ### The calls of a program -/

/-- As long as the answers meet `A`, every call of `p` meets `P` and its value meets `F`. -/
def Calls (A : (op : I.Op) → I.Res op → Prop) (P : I.Op → Prop) (p : Prog I ε α)
    (F : α → Prop) : Prop :=
  wp (fun (_ : Unit) op r _ => A op r) (fun _ op => P op) p
    (post (fun _ a => F a) (fun _ _ => True) True) ()

section Calls

variable {A : (op : I.Op) → I.Res op → Prop} {P : I.Op → Prop} {F F' : α → Prop} {G : β → Prop}

theorem Calls.mono {p : Prog I ε α} (hp : Calls A P p F) (h : ∀ a, F a → F' a) : Calls A P p F' :=
  wp_post_mono hp (fun _ a => h a) fun _ _ h => h

theorem Calls.weaken {P' : I.Op → Prop} {p : Prog I ε α} (hp : Calls A P p F)
    (h : ∀ op, P op → P' op) : Calls A P' p F :=
  wp_pre_mono hp fun _ op => h op

theorem Calls.bind {p : Prog I ε α} {f : α → Prog I ε β} (hp : Calls A P p F)
    (hf : ∀ a, F a → Calls A P (f a) G) : Calls A P (p >>= f) G :=
  wp_bind_post hp fun _ a => hf a

theorem calls_ask {op : I.Op} {meaning : I.Res op → Outcome ε α} (hop : P op)
    (hF : ∀ r a, A op r → meaning r = .ok a → F a) : Calls A P (ask op meaning) F := by
  constructor
  · exact hop
  intro r _ hr
  change post _ _ _ _ (meaning r)
  cases hm : meaning r with
  | ok a => exact hF r a hr hm
  | err e => trivial
  | panic => trivial

theorem calls_lift {r : Outcome ε α} (hF : ∀ a, r = .ok a → F a) :
    Calls A P (liftM r : Prog I ε α) F :=
  wp_lift_post hF (fun _ _ => trivial) fun _ => trivial

theorem Calls.mapErr {p : Prog I ε α} (hp : Calls A P p F) (g : ε → ε') :
    Calls A P (p.mapErr g) F :=
  wp_mapErr_post hp

/-- Catching the error of a program makes no call. -/
theorem Calls.attempt {p : Prog I ε α} (hp : Calls A P p F) :
    Calls A P (p.attempt : Prog I ε' (Except ε α)) fun r => ∀ a, r = .ok a → F a := by
  apply wp_attempt.mpr
  apply wp_mono hp
  intro s r hr
  cases r with
  | ok a =>
    rintro b ⟨⟩
    exact hr
  | err e => exact fun a h => nomatch h
  | panic => trivial

theorem calls_forM {xs : List β} {body : β → Prog I ε PUnit}
    (h : ∀ x ∈ xs, Calls A P (body x) fun _ => True) : Calls A P (xs.forM body) fun _ => True := by
  induction xs with
  | nil => trivial
  | cons x xs ih =>
    rw [List.forall_mem_cons] at h
    exact Calls.bind h.1 fun _ _ => ih h.2

/-- The calls of a program, seen together with what they do to a state. -/
theorem Calls.wp {H : Handler I σ} {pre : σ → I.Op → Prop} {p : Prog I ε α}
    {Q : σ → Outcome ε α → Prop} {s : σ} (hA : ∀ s op r s', H s op r s' → A op r)
    (hp : Calls A P p F) (hwp : Prog.wp H pre p Q s) :
    Prog.wp H (fun s op => pre s op ∧ P op) p
      (fun s r => Q s r ∧ ∀ a, r = .ok a → F a) s := by
  have hboth := wp_ghost (J := fun _ _ => True)
    (fun _ s op r s' _ _ _ hop => ⟨(), hA s op r s' hop, trivial⟩) trivial hp hwp
  apply wp_mono (wp_pre_mono hboth ?_)
  · intro s r hr
    rcases hr with ⟨hQ, _, -, hF⟩
    refine ⟨hQ, ?_⟩
    rintro a rfl
    exact hF
  · intro s op hop
    rcases hop with ⟨hpre, _, -, hP⟩
    exact ⟨hpre, hP⟩

end Calls

/-! ### Calls that rule out a value -/

/-- Whether a call of the kind `U` has been made. -/
def spending (A : (op : I.Op) → I.Res op → Prop) (U : I.Op → Prop) : Handler I Prop :=
  fun spent op r spent' => A op r ∧ spent' = (spent ∨ U op)

/-- A run with a call of the kind `U` has no value, and a value meets `F`. -/
abbrev Unspent (A : (op : I.Op) → I.Res op → Prop) (U : I.Op → Prop) (p : Prog I ε α)
    (F : α → Prop) : Prop :=
  wp (spending A U) (fun _ _ => True) p
    (post (fun spent a => spent = False ∧ F a) (fun _ _ => True) True) False

section Unspent

variable {A : (op : I.Op) → I.Res op → Prop} {U : I.Op → Prop} {F : α → Prop} {G : β → Prop}

/-- A program that makes no such call. -/
theorem Calls.unspent {p : Prog I ε α} (hp : Calls A (fun op => ¬ U op) p F) : Unspent A U p F := by
  induction p with
  | done r =>
    cases r with
    | ok a => exact ⟨rfl, hp⟩
    | err e => trivial
    | panic => trivial
  | call op k ih =>
    constructor
    · trivial
    rintro r spent ⟨hA, rfl⟩
    have hno : (False ∨ U op) = False := by simpa using hp.1
    rw [hno]
    exact ih r (hp.2 r () hA)

/-- A program that has no value, whatever calls have been made before it. -/
theorem Calls.no_value {P : I.Op → Prop} {p : Prog I ε α} {E : Prop → ε → Prop}
    (hp : Calls A P p fun _ => False) (hE : ∀ spent e, E spent e) (F : Prop → α → Prop)
    (spent : Prop) : Prog.wp (spending A U) (fun _ _ => True) p (post F E True) spent := by
  induction p generalizing spent with
  | done r =>
    cases r with
    | ok a => exact hp.elim
    | err e => exact hE spent e
    | panic => trivial
  | call op k ih => exact ⟨trivial, fun r spent' hr => ih r (hp.2 r () hr.1) spent'⟩

theorem Unspent.bind {p : Prog I ε α} {f : α → Prog I ε β} (hp : Unspent A U p F)
    (hf : ∀ a, F a → Unspent A U (f a) G) : Unspent A U (p >>= f) G := by
  refine wp_bind_post hp ?_
  rintro _ a ⟨rfl, ha⟩
  exact hf a ha

/-- Where the error of a program is caught, what follows has no value either. -/
theorem Unspent.attempt {p : Prog I ε α} {f : Except ε α → Prog I ε' β} {P : I.Op → Prop}
    (hp : Unspent A U p F) (hok : ∀ a, F a → Unspent A U (f (.ok a)) G)
    (herr : ∀ e, Calls A P (f (.error e)) fun _ => False) :
    Unspent A U (p.attempt >>= f) G := by
  refine wp_attempt_post hp ?_ ?_
  · rintro _ a ⟨rfl, ha⟩
    exact hok a ha
  · intro spent e _
    exact (herr e).no_value (fun _ _ => trivial) _ spent

theorem unspent_of_run {p q : Prog I ε α} {tr : List (Event I)} {a : α} {spent : Prop}
    {u u' : Unit} (hp : wp (spending A U) (fun _ _ => True) p
      (post (fun spent a => spent = False ∧ F a) (fun _ _ => True) True) spent)
    (hrun : Reaches (fun (_ : Unit) op r _ => A op r) u p tr u' q) (hq : q = done (.ok a)) :
    ¬ spent ∧ ∀ e ∈ tr, ¬ U e.1 := by
  induction hrun generalizing spent with
  | refl u p =>
    subst hq
    exact ⟨of_eq_false hp.1, fun e he => absurd he List.not_mem_nil⟩
  | step hop hrest ih =>
    have hlater := ih (hp.2 _ _ ⟨hop, rfl⟩) hq
    rw [not_or] at hlater
    exact ⟨hlater.1.1, List.forall_mem_cons.mpr ⟨hlater.1.2, hlater.2⟩⟩

/-- **A run to a value has made no such call.** -/
theorem Unspent.no_call {p : Prog I ε α} {tr : List (Event I)} {a : α} (hp : Unspent A U p F)
    (hrun : Reaches (fun (_ : Unit) op r _ => A op r) () p tr () (done (.ok a))) :
    ∀ e ∈ tr, ¬ U e.1 := (unspent_of_run hp hrun rfl).2

end Unspent

end Prog

open Prog

/-- Where `R` relates the states, each call that meets `pre` is carried out by calls that
    meet `pre'`, and its answer and its effect are ones that `H` allows. -/
structure Implements {I J : Iface} {σ τ : Type} (H : Handler J σ) (pre : σ → J.Op → Prop)
    (impl : Impl J I) (R : σ → τ → Prop) (H' : Handler I τ) (pre' : τ → I.Op → Prop) : Prop where
  call : ∀ s t op, R s t → pre s op →
    wp H' pre' (impl op) (post (fun t' a => ∃ s', H s op a s' ∧ R s' t') (fun _ _ => True) False) t

namespace Implements

variable {I J : Iface} {ε α σ τ : Type} {H : Handler J σ} {pre : σ → J.Op → Prop}
  {impl : Impl J I} {R : σ → τ → Prop} {H' : Handler I τ} {pre' : τ → I.Op → Prop}

/-- **A program keeps its specification when its calls are carried out.** -/
theorem wp (himpl : Implements H pre impl R H' pre') {p : Prog J ε α}
    {Q : σ → Outcome ε α → Prop} {s : σ} {t : τ} (hR : R s t) (hp : Prog.wp H pre p Q s) :
    Prog.wp H' pre' (p.via impl) (fun t' r => ∃ s', R s' t' ∧ Q s' r) t := by
  induction p generalizing s t with
  | done r => exact ⟨s, hR, hp⟩
  | call op k ih =>
    rw [via_call, wp_bind, wp_mapErr]
    apply wp_mono (himpl.call s t op hR hp.1)
    intro t' r hr
    cases r with
    | ok a =>
      rcases hr with ⟨s', hop, hR'⟩
      exact ih a hR' (hp.2 a s' hop)
    | err e => exact e.elim
    | panic => exact hr.elim

/-- Every finished run of the composed program is a finished run of the program above. -/
theorem reaches (himpl : Implements H pre impl R H' pre') {p : Prog J ε α}
    {Q : σ → Outcome ε α → Prop} {s : σ} {t t' : τ} {tr : List (Event I)} {v : Outcome ε α}
    (hR : R s t) (hp : Prog.wp H pre p Q s) (hrun : Reaches H' t (p.via impl) tr t' (.done v)) :
    ∃ tr' s', Reaches H s p tr' s' (.done v) ∧ R s' t' ∧ Q s' v := by
  have hend : ∃ s', R s' t' ∧ Q s' v ∧ ∃ tr', Reaches H s p tr' s' (.done v) :=
    wp_reaches (himpl.wp hR (wp_with_run hp)) hrun
  rcases hend with ⟨s', hR', hQ, tr', hrun'⟩
  exact ⟨tr', s', hrun', hR', hQ⟩

end Implements

end ElfLoader
