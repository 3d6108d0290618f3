import ElfLoader.Binfmt
import ElfLoader.ThreadStacks

/-!
# Programs that come and go

`libukbinfmt` calls `elfrs_binfmt_load` for every `execve` of the guest, and
`elfrs_binfmt_unload` for what it was handed, once.  Threads do so one program after the
other, side by side, each on a stack of its own.  A thread whose programs were all handled
holds nothing when they are gone, and when all threads are done the address space is as it
was, apart from what was written to the stacks.
-/

namespace ElfLoader.Binfmt

open ElfLoader Outcome Prog Elf Layout Loader Program AddressSpace Reservation
open ElfLoader.Auxv hiding alignDown

variable {ε : Type}

/-- One `execve`: the program is loaded, and unloaded when it is gone. -/
def execOne (b : Build) (sys : System) (args : Args) : Prog Host ε Int := do
  let (code, handover) ← elfrsBinfmtLoad b sys args
  let _ ← elfrsBinfmtUnload (handover.map Handover.user)
  pure code

/-- The programs of one thread, one after the other, with what the system says at each;
    their return codes. -/
def execAll (b : Build) : List (System × Args) → Prog Host ε (List Int)
  | [] => pure []
  | (sys, args) :: rest => do
      let code ← execOne b sys args
      let codes ← execAll b rest
      pure (code :: codes)

/-- A byte of the stack that a call starts its program on. -/
def OnStack (args : Args) (x : Nat) : Prop :=
  args.stackSize ≤ args.ctxSp ∧ stackBytes (appRange args.ctxSp args.stackSize) x

/-- The stack of a thread: that of any of its programs. -/
def stacksOf (calls : List (System × Args)) (x : Nat) : Prop := ∃ c ∈ calls, OnStack c.2 x

/-! ### What a thread holds -/

section Account

variable {α : Type} {pg : PageSize} {w : World} {a : Account} {g : List Held} {stack : Nat → Prop}

/-- Building a stack changes what is on the stack, and not what is held. -/
theorem wp_stackOnly {r : StackRange} {p : Prog Host ε α} {Q : Memory → Outcome ε α → Prop}
    (hr : ∀ x, stackBytes r x → stack x) (hp : StackOnly p)
    (hwp : wp stackStep (InStack r) p Q a.2.mem) :
    wp (accountStep pg (processStep pg w)) (ThreadPre stack) p
      (post (fun a' _ => a'.1 = a.1) (fun a' _ => a'.1 = a.1) True) a := by
  induction p generalizing a with
  | done v =>
    cases v with
    | ok x => rfl
    | err e => rfl
    | panic => trivial
  | call op k ih =>
    have hcall : StackCall op := hp.1
    cases op with
    | stackWrite b data =>
      have hin : r.bottom ≤ b ∧ b + data.length ≤ r.top := hwp.1
      refine ⟨⟨⟨trivial, trivial⟩, fun x hlo hhi => hr x ⟨?_, ?_⟩⟩, ?_⟩
      · exact hin.1.trans hlo
      · exact lt_of_lt_of_le hhi hin.2
      rintro res ⟨held, v⟩ ⟨⟨-, hheld⟩, -, -, hview⟩
      have hsame : held = a.1 := hheld
      dsimp only at hview
      subst hsame hview
      cases res with
      | ok u =>
        have hpoke : stackStep a.2.mem (.stackWrite b data) (Except.ok u : Except Error Unit)
            (a.2.written b data).mem := rfl
        exact ih (.ok u) (a := (a.1, a.2.written b data)) (hp.2 _ () trivial) (hwp.2 _ _ hpoke)
      | error e => exact ih (.error e) (a := a) (hp.2 _ () trivial) (hwp.2 (.error e) a.2.mem rfl)
    | tryReserve n =>
      refine ⟨⟨⟨trivial, trivial⟩, trivial⟩, ?_⟩
      rintro res ⟨held, v⟩ ⟨⟨-, hheld⟩, -, -, hview⟩
      have hsame : held = a.1 := hheld
      dsimp only at hview
      subst hsame hview
      exact ih res (a := a) (hp.2 res () trivial) (hwp.2 res _ rfl)
    | vm op => exact hcall.elim
    | openPath path => exact hcall.elim
    | readExactAt src off n => exact hcall.elim

/-- Where `unmap` does not fail, an image that is unloaded is not held any more. -/
theorem wp_unloadImage {E : Account → ε → Prop} (hw : w.unmaps = true) {l : Loaded}
    (hl : l.allocated = false) (hheld : a.1 = heldBy l :: g) :
    wp (accountStep pg (processStep pg w)) (ThreadPre stack) (l.unload : Prog Host ε Unit)
      (post (fun a' _ => a'.1 = g) E True) a := by
  have hrange : heldBy l = ⟨l.plan.reserveAddr, l.plan.reserveLen, false⟩ := by
    rw [heldBy, hl]
  have hmem : ⟨l.plan.reserveAddr, l.plan.reserveLen, false⟩ ∈ a.1 := by
    rw [hheld, hrange]
    exact List.mem_cons_self
  unfold Loaded.unload
  rw [hl]
  refine ⟨⟨⟨hmem, trivial⟩, trivial⟩, ?_⟩
  rintro r a' ⟨⟨-, hhold⟩, hans, -⟩
  cases r with
  | ok u =>
    change a'.1 = g
    rw [hhold, hheld, hrange]
    exact List.erase_cons_head ..
  | error e =>
    have hfail : w.unmaps = false := hans
    rw [hw] at hfail
    cases hfail

theorem wp_unloadProgram {E : Account → ε → Prop} (hw : w.unmaps = true) {p : LoadedProgram}
    (hp : AllMapped p) (hheld : a.1 = heldByProgram p ++ g) :
    wp (accountStep pg (processStep pg w)) (ThreadPre stack) (p.unload : Prog Host ε Unit)
      (post (fun a' _ => a'.1 = g) E True) a := by
  unfold LoadedProgram.unload
  unfold heldByProgram at hheld
  cases hinterp : p.interp with
  | none =>
    rw [hinterp] at hheld
    exact wp_unloadImage hw hp.1 hheld
  | some v =>
    rw [hinterp] at hheld
    apply wp_bind_post (wp_unloadImage hw (hp.2 v hinterp) hheld)
    intro a' _ ha'
    exact wp_unloadImage hw hp.1 ha'

section Load

variable {arch : Arch} (hmappable : Mappable w) (hw : w.unmaps = true)
include hmappable

theorem wp_programLoad (path : Bytes) (ha : a.1 = g) :
    wp (accountStep pg (processStep pg w)) (ThreadPre stack) (loadProgram ⟨arch, pg, true⟩ path)
      (post (fun a' p => a'.1 = heldByProgram p ++ g ∧ AllMapped p) (fun _ _ => True) True) a := by
  rcases a with ⟨held, v⟩
  subst ha
  have hopens (s : Space) (op : HostOp) (r : op.Res) (s' : Space)
      (h : processStep pg w s op r s') := opensMappable_of_answers hmappable h.1
  have hprogram := wp_account (v := v) hopens (wp_loadProgram (g := held) ⟨arch, pg, true⟩ path)
    (maps_loadProgram rfl path)
  have hcalls := (calls_loadProgram (b := ⟨arch, pg, true⟩) path).wp
    (fun _ _ _ _ h => ⟨granted_of_answers h.2.1, h.2.2.1⟩) hprogram
  apply wp_mono (wp_pre_mono hcalls ?_)
  · rintro a' r ⟨⟨hheld, hmapped⟩, -⟩
    cases r with
    | ok p => exact ⟨hheld.1, hmapped p rfl⟩
    | err e => trivial
    | panic => trivial
  · rintro a' op ⟨hpre, hoff⟩
    refine ⟨hpre, ?_⟩
    cases op with
    | stackWrite b data => exact hoff.elim
    | _ => trivial

include hw

/-- A program that was handed over is held, and nothing else is that was not before. -/
theorem wp_binfmtLoad (sys : System) (args : Args) (hstack : ∀ x, OnStack args x → stack x)
    (ha : a.1 = g) :
    wp (accountStep pg (processStep pg w)) (ThreadPre stack) (load ⟨arch, pg, true⟩ sys args)
      (post (fun a' h => a'.1 = heldByProgram h.user ++ g ∧ AllMapped h.user) (fun _ _ => True)
        True) a := by
  apply wp_bind_post (wp_programLoad hmappable args.pathname ha)
  rintro a' loaded ⟨hheld, hloaded⟩
  split
  · apply wp_bind_post (wp_unloadProgram (E := fun _ _ => True) hw hloaded hheld)
    intro _ _ _
    trivial
  · rename_i hfits
    refine wp_lift_bind ?_ (fun _ _ => trivial) fun _ => trivial
    intro aux _
    have hrange : ∀ x, stackBytes (appRange args.ctxSp args.stackSize) x → stack x :=
      fun x hx => hstack x ⟨UInt64.not_lt.mp hfits, hx⟩
    apply wp_bind.mpr
    apply wp_attempt.mpr
    apply wp_mono (wp_stackOnly hrange (stackOnly_buildStack _ _ _) wp_buildStack)
    intro a'' r hr
    cases r with
    | ok layout => exact ⟨Eq.trans hr hheld, hloaded⟩
    | panic => trivial
    | err e =>
      apply wp_bind_post
        (wp_unloadProgram (E := fun _ _ => True) hw hloaded (Eq.trans hr hheld))
      intro _ _ _
      trivial

/-- A program that was handled leaves nothing. -/
theorem wp_execOne (sys : System) (args : Args) (hstack : ∀ x, OnStack args x → stack x)
    (ha : a.1 = g) :
    wp (accountStep pg (processStep pg w)) (ThreadPre stack)
      (execOne ⟨arch, pg, true⟩ sys args : Prog Host ε Int)
      (post (fun a' code => code = HANDLED → a'.1 = g) (fun _ _ => True) True) a := by
  unfold execOne elfrsBinfmtLoad
  rw [bind_assoc]
  apply wp_bind.mpr
  apply wp_attempt.mpr
  apply wp_mono (wp_binfmtLoad hmappable hw sys args hstack ha)
  intro a' r hr
  cases r with
  | panic => trivial
  | ok h =>
    rcases hr with ⟨hheld, hmapped⟩
    change wp _ _ ((elfrsBinfmtUnload (some h.user)) >>= _) _ a'
    unfold elfrsBinfmtUnload
    rw [bind_assoc]
    apply wp_bind_post (wp_unloadProgram (E := fun _ _ => True) hw hmapped hheld)
    intro a'' _ ha'' _
    exact ha''
  | err e =>
    change wp _ _ ((if e = Error.ENOEXEC then _ else _) >>= _) _ a'
    split
    · intro hcode
      exact absurd hcode (by decide)
    · intro hcode
      have hneg := e.asNeg_neg
      rw [hcode] at hneg
      exact absurd hneg (by decide)

theorem wp_execAll (calls : List (System × Args)) (hstack : ∀ x, stacksOf calls x → stack x)
    (ha : a.1 = g) :
    wp (accountStep pg (processStep pg w)) (ThreadPre stack)
      (execAll ⟨arch, pg, true⟩ calls : Prog Host ε (List Int))
      (post (fun a' codes => (∀ c ∈ codes, c = HANDLED) → a'.1 = g) (fun _ _ => True) True) a := by
  induction calls generalizing a g with
  | nil => exact fun _ => ha
  | cons call rest ih =>
    rcases call with ⟨sys, args⟩
    have hfirst : ∀ x, OnStack args x → stack x :=
      fun x hx => hstack x ⟨(sys, args), List.mem_cons_self, hx⟩
    have hrest : ∀ x, stacksOf rest x → stack x := by
      rintro x ⟨c, hc, hx⟩
      exact hstack x ⟨c, List.mem_cons_of_mem _ hc, hx⟩
    apply wp_bind_post (wp_execOne hmappable hw sys args hfirst ha)
    intro a₁ code hcode
    apply wp_bind_post (ih hrest rfl)
    intro a₂ codes hcodes hall
    rw [List.forall_mem_cons] at hall
    exact (hcodes hall.2).trans (hcode hall.1)

end Load

end Account

/-- **Programs come and go without a trace.**  Any number of threads run programs through the
    binfmt loader, one after the other and side by side, on stacks that are apart.  In every
    state they can reach they are isolated from each other; a thread whose programs have all
    been handled and are gone has nothing mapped; and when this holds of every thread, the
    address space is what it was before the first of them, outside of the stacks. -/
theorem execs_leave_nothing {ι : Type} [DecidableEq ι] {pg : PageSize} {w : World}
    (hmappable : Mappable w) (hw : w.unmaps = true) (arch : Arch)
    (calls : ι → List (System × Args)) {s₀ s : Space} {q : ι → Prog Host ε (List Int)}
    (hstacks : Stacks pg (fun i => stacksOf (calls i)) s₀)
    (hrun : Pool (processStep pg w) s₀ (fun i => execAll ⟨arch, pg, true⟩ (calls i)) s q) :
    ∃ v : ι → Space, IsolatedOn pg (fun i => stacksOf (calls i)) s₀ s v ∧
      (∀ i, ∃ tr, Reaches (processStep pg w) (bare s₀) (execAll ⟨arch, pg, true⟩ (calls i)) tr
        (v i) (q i)) ∧
      (∀ i codes, q i = .done (ok codes) → (∀ c ∈ codes, c = HANDLED) →
        ∀ p, (v i).prot p = none) ∧
      ((∀ i, ∃ codes, q i = .done (ok codes) ∧ ∀ c ∈ codes, c = HANDLED) →
        (∀ p, s.prot p = s₀.prot p) ∧
          ∀ x, s₀.protAt pg x ≠ none → (∀ i, ¬ stacksOf (calls i) x) → s.mem x = s₀.mem x) := by
  have hexec (i : ι) : wp (accountStep pg (processStep pg w)) (ThreadPre (stacksOf (calls i)))
      (execAll ⟨arch, pg, true⟩ (calls i) : Prog Host ε (List Int))
      (post (fun a codes => (∀ c ∈ codes, c = HANDLED) → a.1 = []) (fun _ _ => True) True)
      ([], bare s₀) := wp_execAll hmappable hw (calls i) (fun _ hx => hx) rfl
  rcases pool_isolatedOn hstacks hexec hrun with ⟨a, hisolated, hempty, hall⟩
  have hgone : ∀ i codes, q i = .done (ok codes) → (∀ c ∈ codes, c = HANDLED) →
      ∀ p, (a i).2.prot p = none := by
    intro i codes hq hcodes p
    have hend := (hall i).1
    rw [hq] at hend
    have hheld : (a i).1 = [] := hend hcodes
    apply hempty i p
    rintro ⟨r, hr, -⟩
    rw [hheld] at hr
    cases hr
  refine ⟨fun i => (a i).2, hisolated, fun i => (hall i).2, hgone, ?_⟩
  intro hdone
  have hnone : ∀ p i, (a i).2.prot p = none := by
    intro p i
    rcases hdone i with ⟨codes, hq, hcodes⟩
    exact hgone i codes hq hcodes p
  refine ⟨fun p => hisolated.rest p (hnone p), ?_⟩
  exact fun x hmapped hstack => hisolated.restMem x (hnone _) hstack hmapped

theorem length_zeroSeed : (List.replicate 16 (0 : UInt8)).length = 16 := rfl

theorem length_oneSeed : (List.replicate 16 (1 : UInt8)).length = 16 := rfl

def smallSystem : System := ⟨0, 0, 0, [], ⟨List.replicate 16 0, length_zeroSeed⟩, (0, 0)⟩

/-- The system at another time, with another seed. -/
def laterSystem : System := ⟨0, 0, 0, [], ⟨List.replicate 16 1, length_oneSeed⟩, (0, 0)⟩

/-- The small program, on a stack of 32 KiB below `sp`. -/
def smallArgs (sp : UInt64) : Args := ⟨[47], [], 0, none, 0, none, sp, 0x8000⟩

/-- One thread runs the small program once, the other runs it twice. -/
def twoCalls : Bool → List (System × Args)
  | false => [(smallSystem, smallArgs 0x108000)]
  | true => [(smallSystem, smallArgs 0x110000), (laterSystem, smallArgs 0x110000)]

/-- Their calls take turns. -/
def twoExecs : Space × (Bool → Prog Host Empty (List Int)) :=
  runPool (I := Host) (processExec (machine (smallElf 0x1100) 16) page4K)
    (List.replicate 150 [false, true]).flatten emptySpace
    fun i => execAll ⟨.x86_64, page4K, true⟩ (twoCalls i)

theorem twoExecs_handled (i : Bool) :
    ∃ codes, twoExecs.2 i = .done (ok codes) ∧ ∀ c ∈ codes, c = HANDLED := by
  cases i with
  | false =>
    refine ⟨[HANDLED], eq_done_of_outcome (by decide +kernel), ?_⟩
    exact List.forall_mem_singleton.mpr rfl
  | true =>
    refine ⟨[HANDLED, HANDLED], eq_done_of_outcome (by decide +kernel), ?_⟩
    exact List.forall_mem_cons.mpr ⟨rfl, List.forall_mem_singleton.mpr rfl⟩

/-- The stacks of the two threads lie one behind the other in the heap. -/
theorem bounds_of_stacksOf_twoCalls {x : Nat} :
    (stacksOf (twoCalls false) x → 0x100000 ≤ x ∧ x < 0x108000) ∧
      (stacksOf (twoCalls true) x → 0x108000 ≤ x ∧ x < 0x110000) := by
  constructor
  · rintro ⟨c, hc, -, hx⟩
    rw [twoCalls, List.mem_singleton] at hc
    subst hc
    exact hx
  · rintro ⟨c, hc, -, hx⟩
    rw [twoCalls] at hc
    rcases List.mem_pair.mp hc with rfl | rfl
    · exact hx
    · exact hx

theorem stacks_twoCalls : Stacks page4K (fun i => stacksOf (twoCalls i)) emptySpace := by
  constructor
  · intro i x hx
    have hin : 0x100000 ≤ x ∧ x < 0x110000 := by
      cases i with
      | false =>
        have hbounds := bounds_of_stacksOf_twoCalls.1 hx
        omega
      | true =>
        have hbounds := bounds_of_stacksOf_twoCalls.2 hx
        omega
    have hpage : 0x100 ≤ x / 0x1000 ∧ x / 0x1000 < 0x110 := by omega
    have hprot : emptySpace.protAt page4K x = some RW := if_pos hpage
    rw [hprot]
    exact Option.some_ne_none RW
  · intro i j x hi hj
    cases i with
    | false =>
      cases j with
      | false => rfl
      | true =>
        have hlo := bounds_of_stacksOf_twoCalls.1 hi
        have hhi := bounds_of_stacksOf_twoCalls.2 hj
        omega
    | true =>
      cases j with
      | true => rfl
      | false =>
        have hlo := bounds_of_stacksOf_twoCalls.2 hi
        have hhi := bounds_of_stacksOf_twoCalls.1 hj
        omega

/-- All were handled, and nothing is left of them. -/
theorem twoExecs_leave_nothing : twoExecs.1.prot = emptySpace.prot := by
  have hrun : Pool (processStep page4K (oneFile (smallElf 0x1100))) emptySpace
      (fun i => execAll ⟨.x86_64, page4K, true⟩ (twoCalls i)) twoExecs.1 twoExecs.2 :=
    runPool_pool (processExec_ok (machine (smallElf 0x1100) 16) page4K) _ _ _
  rcases execs_leave_nothing (mappable_oneFile _) rfl .x86_64 twoCalls stacks_twoCalls hrun with
    ⟨v, -, -, -, hend⟩
  exact funext (hend twoExecs_handled).1

end ElfLoader.Binfmt
