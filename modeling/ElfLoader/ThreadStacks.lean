import ElfLoader.ConcurrentLoads
import ElfLoader.Process

/-!
# Threads on stacks of their own

A thread that runs programs also writes the stacks they start on.  The stacks were there
before, one for each thread, and no range is granted where they are.  So a thread runs as it
would run alone with its stack, and what it leaves there is what it would leave alone.
-/

namespace ElfLoader.AddressSpace

open ElfLoader Outcome Prog Elf Loader Program Reservation
open ElfLoader.Auxv hiding alignDown

/-- The call writes no stack but this one. -/
def WritesOn (stack : Nat → Prop) : HostOp → Prop
  | .stackWrite b data => ∀ x, b ≤ x → x < b + data.length → stack x
  | _ => True

def ThreadPre (stack : Nat → Prop) (a : Account) (op : HostOp) : Prop :=
  AccountPre a op ∧ WritesOn stack op

/-- The memory of `s`, with nothing mapped in it. -/
def bare (s : Space) : Space := { nothing with mem := s.mem }

variable {ι ε α : Type} {pg : PageSize} {w : World} {stack : ι → Nat → Prop} {s₀ s s' : Space}

/-- **Every call that a thread may make** leaves the accounts in step. -/
theorem Shares.thread [DecidableEq ι] {a : ι → Account} (h : Shares pg stack s₀ a s) {i : ι}
    {op : HostOp} {r : op.Res} (hpre : ThreadPre (stack i) (a i) op)
    (hop : processStep pg w s op r s') :
    ∃ t, accountStep pg (processStep pg w) (a i) op r t ∧
      Shares pg stack s₀ (Function.update a i t) s' := by
  rcases hop with ⟨hans, hnonzero, rfl⟩
  have hsees := h.sees i
  have hview := hsees.answers hpre.1.2 hans
  have hgranted := granted_of_answers hans
  rcases hsees.turn hpre.1 hans with ⟨T, hturn⟩
  have hturned := h.turn hturn
  cases op with
  | stackWrite b data =>
    cases r with
    | ok u =>
      exact ⟨((a i).1, (a i).2.written b data), ⟨⟨hgranted, rfl⟩, hview, hnonzero, rfl⟩,
        h.written hpre.2⟩
    | error e => exact ⟨_, ⟨⟨hgranted, rfl⟩, hview, hnonzero, rfl⟩, hturned⟩
  | _ => exact ⟨_, ⟨⟨hgranted, rfl⟩, hview, hnonzero, rfl⟩, hturned⟩

/-- **A pool of threads that keep to the protocol**, each on its stack. -/
theorem pool_isolatedOn [DecidableEq ι] (hstacks : Stacks pg stack s₀)
    {p q : ι → Prog Host ε α} {Q : ι → Account → Outcome ε α → Prop}
    (hp : ∀ i, wp (accountStep pg (processStep pg w)) (ThreadPre (stack i)) (p i) (Q i)
      ([], bare s₀))
    (hrun : Pool (processStep pg w) s₀ p s q) :
    ∃ a : ι → Account, IsolatedOn pg stack s₀ s (fun i => (a i).2) ∧
      (∀ i p, ¬ OwnPage pg (a i).1 p → (a i).2.prot p = none) ∧
      ∀ i, wp (accountStep pg (processStep pg w)) (ThreadPre (stack i)) (q i) (Q i) (a i) ∧
        ∃ tr, Reaches (processStep pg w) (bare s₀) (p i) tr (a i).2 (q i) := by
  have hstart : Shares pg stack s₀ (fun _ : ι => ([], bare s₀)) s₀ :=
    shares_start hstacks (fun _ => rfl) fun _ _ _ => rfl
  rcases hrun.accounts (fun _ _ _ _ _ _ h hpre hop => h.thread hpre hop) hstart hp with
    ⟨a, hshares, hall⟩
  refine ⟨a, hshares.isolatedOn, hshares.empty, fun i => ⟨(hall i).1, ?_⟩⟩
  rcases (hall i).2 with ⟨tr, hreaches⟩
  exact ⟨tr, hreaches.seen Prod.snd fun _ _ _ _ h => h.2⟩

end ElfLoader.AddressSpace
