import ElfLoader.App
import ElfLoader.MemoryImage

/-!
# What start-up releases

The ledger of a run has the threads and programs `run` has acquired and what it has
given back.  The thread has a guard; the program has none and is unloaded by hand
before every return, except after the one allocation between the load and the stack.
-/

namespace ElfLoader.App

open ElfLoader Outcome Prog Loader Program Auxv

def images (p : LoadedProgram) : List Loaded := (p.interp.map Prod.snd).toList ++ [p.main]

structure Ledger where
  created : List Thread
  released : List Thread
  loaded : List LoadedProgram
  unloaded : List Loaded
  /-- The thread was scheduled. -/
  scheduled : Bool
  /-- A reservation failed while a program was loaded. -/
  noRoom : Bool
deriving DecidableEq, Repr

def Ledger.empty : Ledger := ⟨[], [], [], [], false, false⟩

def enter (g : Ledger) : (op : GlueOp) → op.Res → Ledger
  | .threadCreate _ _, some thread => { g with created := g.created ++ [thread] }
  | .threadRelease thread, _ => { g with released := g.released ++ [thread] }
  | .loadProgram _ _, .ok loaded => { g with loaded := g.loaded ++ [loaded] }
  | .unload l, _ => { g with unloaded := g.unloaded ++ [l] }
  | .threadSchedule _, rc => if rc = 0 then { g with scheduled := true } else g
  | .tryReserve _, false => { g with noRoom := g.noRoom || !g.loaded.isEmpty }
  | _, _ => g

def ledgerOf (tr : List (Event Glue)) : Ledger := tr.foldl (fun g e => enter g e.1 e.2) .empty

/-- The calls as the ledger sees them, whatever they answer. -/
def ledgerStep : Handler Glue Ledger := fun g op r g' => g' = enter g op r

/-- Nothing was released if the thread has been scheduled. -/
def Kept (g : Ledger) : Prop := g.scheduled = true → g.released = [] ∧ g.unloaded = []

/-- The call leaves the ledger kept, whatever it answers. -/
def Keeps (g : Ledger) (op : GlueOp) : Prop := ∀ r, Kept (enter g op r)

/-- What was acquired is what was given back, each once. -/
def Settled (g : Ledger) : Prop :=
  g.released = g.created ∧ g.unloaded = g.loaded.flatMap images

section Steps

variable {ε α : Type} {g : Ledger} {X : Prop}

/-- The program leaves the ledger as it is, and has no error. -/
abbrev Quiet (g : Ledger) (p : Prog Glue ε α) : Prop :=
  wp ledgerStep Keeps p (post (fun g' _ => g' = g) (fun _ _ => False) True) g

/-- A call that is not entered. -/
theorem quiet_get {op : GlueOp} (hg : Kept g) (h : ∀ r, enter g op r = g) :
    Quiet g (get op : Prog Glue ε op.Res) := by
  constructor
  · intro r
    rw [h r]
    exact hg
  · intro r g' hg'
    exact hg'.trans (h r)

/-- What follows starts with the same ledger. -/
theorem Quiet.next {β : Type} {p : Prog Glue ε α} {f : α → Prog Glue ε β}
    {P : Ledger → β → Prop} {E : Ledger → ε → Prop} (hp : Quiet g p)
    (hf : ∀ a, wp ledgerStep Keeps (f a) (post P E True) g) :
    wp ledgerStep Keeps (p >>= f) (post P E True) g := by
  apply wp_bind_err hp (fun _ _ h => h.elim)
  intro g' a hg'
  subst hg'
  exact hf a

abbrev Still (g : Ledger) (p : Prog Glue ε α) : Prop :=
  wp ledgerStep Keeps p (post (fun g' _ => g' = g) (fun g' _ => g' = g) True) g

theorem still_get {op : GlueOp} (hg : Kept g) (h : ∀ r, enter g op r = g) :
    Still g (get op : Prog Glue ε op.Res) :=
  wp_post_mono (quiet_get hg h) (fun _ _ h => h) fun _ _ h => h.elim

/-- What follows starts with the same ledger, if its error may end it. -/
theorem Still.next {β : Type} {p : Prog Glue ε α} {f : α → Prog Glue ε β}
    {P : Ledger → β → Prop} {E : Ledger → ε → Prop} (hp : Still g p) (hE : ∀ e, E g e)
    (hf : ∀ a, wp ledgerStep Keeps (f a) (post P E True) g) :
    wp ledgerStep Keeps (p >>= f) (post P E True) g := by
  have herr : ∀ g' e, g' = g → E g' e := by
    intro g' e hg'
    subst hg'
    exact hE e
  apply wp_bind_err hp herr
  intro g' a hg'
  subst hg'
  exact hf a

theorem Still.bind {β : Type} {p : Prog Glue ε α} {f : α → Prog Glue ε β} (hp : Still g p)
    (hf : ∀ a, Still g (f a)) : Still g (p >>= f) :=
  hp.next (fun _ => rfl) hf

theorem Still.attempt {ε' : Type} {p : Prog Glue ε α} (hp : Still g p) :
    Still g (p.attempt : Prog Glue ε' (Except ε α)) := by
  apply wp_attempt.mpr
  apply wp_mono hp
  intro g' r hr
  cases r with
  | ok a => exact hr
  | err e => exact hr
  | panic => trivial

theorem still_lift {r : Outcome ε α} : Still g (liftM r : Prog Glue ε α) := by
  cases r with
  | ok a => rfl
  | err e => rfl
  | panic => trivial

end Steps

/-! ### Before anything is loaded -/

section Before

variable {ε : Type} {g : Ledger}

theorem enter_tryReserve (hl : g.loaded = []) (n : Nat) (r : Bool) :
    enter g (.tryReserve n) r = g := by
  rcases g with ⟨created, released, loaded, unloaded, scheduled, noRoom⟩
  dsimp only at hl
  subst hl
  cases r with
  | true => rfl
  | false => simp only [enter, List.isEmpty_nil, Bool.not_true, Bool.or_false]

theorem still_tryReserve (hg : Kept g) (hl : g.loaded = []) (n : Nat) (e : Error) :
    Still g (tryReserve n e) := by
  constructor
  · intro r
    rw [enter_tryReserve hl]
    exact hg
  · intro r g' hg'
    have hsame : g' = g := Eq.trans hg' (enter_tryReserve hl n r)
    cases r with
    | true => exact hsame
    | false => exact hsame

theorem still_cString (hg : Kept g) (hl : g.loaded = []) (s : Bytes) : Still g (cString s) :=
  still_lift.bind fun _ => still_tryReserve hg hl _ _

theorem still_getenv (hg : Kept g) (hl : g.loaded = []) (c : Cfg) (name : Bytes) :
    Still g (getenv c name : Prog Glue ε (Option Bytes)) := by
  unfold getenv
  split
  · apply (still_cString hg hl name).attempt.bind
    intro r
    cases r with
    | ok u => exact still_get hg fun _ => rfl
    | error e => rfl
  · rfl

theorem still_locateIn (hg : Kept g) (hl : g.loaded = []) (name : Bytes) (dirs : List Bytes) :
    Still g (locateIn name dirs : Prog Glue ε (Option Bytes)) := by
  induction dirs with
  | nil => rfl
  | cons dir rest ih =>
    apply (still_get hg (enter_tryReserve hl _)).bind
    intro room
    split
    · apply (still_cString hg hl _).attempt.bind
      intro r
      cases r with
      | error e => exact ih
      | ok u =>
        apply (still_get hg fun _ => rfl).bind
        intro rc
        split
        · rfl
        · exact ih
    · exact ih

theorem still_resolve (hg : Kept g) (hl : g.loaded = []) (c : Cfg) (target : Target) :
    Still g (resolve c target : Prog Glue ε Target) := by
  unfold resolve
  split
  · apply (still_getenv hg hl c PATH).bind
    intro pathEnv
    cases pathEnv with
    | none => rfl
    | some pathEnv =>
      have hlocate : Still g (locateInPath target.path pathEnv : Prog Glue ε (Option Bytes)) := by
        unfold locateInPath
        split
        · exact still_locateIn hg hl _ _
        · rfl
      apply hlocate.bind
      intro full
      cases full with
      | some full => rfl
      | none => rfl
  · rfl

theorem still_changeDir (hg : Kept g) (hl : g.loaded = []) (c : Cfg) : Still g (changeDir c) := by
  unfold changeDir
  split
  · apply (still_getenv hg hl c PWD).bind
    intro pwd
    cases pwd with
    | none => rfl
    | some pwd =>
      apply (still_cString hg hl pwd).bind
      intro _
      exact (still_get hg fun _ => rfl).bind fun _ => still_lift
  · rfl

/-- The load is entered if it succeeds. -/
theorem wp_loadTarget (hg : Kept g) (c : Cfg) (target : Target) :
    wp ledgerStep Keeps (loadTarget c target)
      (post (fun g' p => g' = { g with loaded := g.loaded ++ [p] }) (fun g' _ => g' = g) True) g := by
  have hload (opener : Opener) (path : Bytes) :
      wp ledgerStep Keeps (loadProgram opener path)
        (post (fun g' p => g' = { g with loaded := g.loaded ++ [p] }) (fun g' _ => g' = g) True)
        g := by
    constructor
    · intro r
      cases r with
      | ok p => exact hg
      | error e => exact hg
    · intro r g' hg'
      cases r with
      | ok p => exact hg'
      | error e => exact hg'
  unfold loadTarget
  split
  · exact hload _ _
  · apply (still_get hg fun _ => rfl).next fun _ => rfl
    intro found
    apply still_lift.next fun _ => rfl
    intro _
    exact hload _ _

end Before

/-! ### With a program loaded -/

section Loaded

variable {ε α : Type} {g : Ledger} {p : LoadedProgram}

/-- The ledger when this thread and this program are held. -/
def holding (thread : Thread) (p : LoadedProgram) : Ledger :=
  { Ledger.empty with created := [thread], loaded := [p] }

/-- What an error behind the guard leaves: nothing loaded, everything unloaded, or the
    program lost for want of memory. -/
inductive Failed (thread : Thread) : Ledger → Prop
  | before : Failed thread { Ledger.empty with created := [thread] }
  | unloaded (p : LoadedProgram) : Failed thread { holding thread p with unloaded := images p }
  | lost (p : LoadedProgram) : Failed thread { holding thread p with noRoom := true }

theorem kept_of_not_scheduled (h : g.scheduled = false) : Kept g :=
  fun hs => absurd (h.symm.trans hs) Bool.false_ne_true

theorem wp_unload (h : g.scheduled = false) {E : Ledger → ε → Prop} :
    wp ledgerStep Keeps (unload p : Prog Glue ε Unit)
      (post (fun g' _ => g' = { g with unloaded := g.unloaded ++ images p }) E True) g := by
  have hget (g : Ledger) (h : g.scheduled = false) (l : Loaded) :
      wp ledgerStep Keeps (get (.unload l) : Prog Glue ε Unit)
        (post (fun g' _ => g' = { g with unloaded := g.unloaded ++ [l] }) E True) g := by
    constructor
    · exact fun _ => kept_of_not_scheduled h
    · exact fun _ _ hg' => hg'
  unfold unload images
  cases p.interp with
  | none => exact hget g h p.main
  | some il =>
    apply wp_bind_post (hget g h il.2)
    intro g' _ hg'
    subst hg'
    refine wp_post_mono (hget { g with unloaded := g.unloaded ++ [il.2] } h p.main) ?_ fun _ _ h => h
    intro g' _ hg'
    rw [hg', List.append_assoc]
    rfl

/-- An error after the program has been unloaded. -/
theorem wp_unload_then {thread : Thread} {r : Outcome Errno α} {P : Ledger → α → Prop}
    (hr : ∀ a, r ≠ ok a) :
    wp ledgerStep Keeps (unload p >>= fun _ => (liftM r : Prog Glue Errno α))
      (post P (fun g' _ => Failed thread g') True) (holding thread p) := by
  apply wp_bind_post (wp_unload rfl)
  intro g' _ hg'
  subst hg'
  cases r with
  | ok a => exact absurd rfl (hr a)
  | err e => exact .unloaded p
  | panic => trivial

theorem errNeg_ne_ok {rc : Int32} (a : α) : errNeg rc ≠ ok a := by
  unfold errNeg
  split <;> simp

theorem wp_orUnload {thread : Thread} {rc : Int32} {P : Ledger → Prop}
    (hP : rc = 0 → P (holding thread p)) :
    wp ledgerStep Keeps (orUnload p rc)
      (post (fun g' _ => P g') (fun g' _ => Failed thread g') True) (holding thread p) := by
  unfold orUnload
  split
  · exact wp_unload_then fun _ => errNeg_ne_ok _
  · rename_i hrc
    exact hP (not_not.mp hrc)

theorem wp_makePthread (c : Cfg) (thread : Thread) :
    wp ledgerStep Keeps (makePthread c thread p)
      (post (fun g' _ => g' = holding thread p) (fun g' _ => Failed thread g') True)
      (holding thread p) := by
  unfold makePthread
  split
  · apply (quiet_get (kept_of_not_scheduled rfl) fun _ => rfl).next
    intro rc
    exact wp_orUnload fun _ => rfl
  · rfl

theorem wp_schedule (c : Cfg) (thread : Thread) (layout : StackLayout) :
    wp ledgerStep Keeps (schedule c thread p layout)
      (post (fun g' _ => g' = { holding thread p with scheduled := true })
        (fun g' _ => Failed thread g') True) (holding thread p) := by
  have hkept : Kept (holding thread p) := kept_of_not_scheduled rfl
  apply (quiet_get hkept fun _ => rfl).next
  intro _
  apply (quiet_get hkept fun _ => rfl).next
  intro _
  apply wp_bind_post (wp_makePthread c thread)
  intro g' _ hg'
  subst hg'
  -- the entry that ends the duty to release
  apply wp_bind.mpr
  constructor
  · intro rc
    simp only [enter]
    split
    · exact fun _ => ⟨rfl, rfl⟩
    · exact hkept
  intro rc g' hg'
  by_cases hrc : rc = 0
  · have hentry : g' = { holding thread p with scheduled := true } := by
      rw [hg', enter, if_pos hrc]
    subst hentry hrc
    exact rfl
  · have hentry : g' = holding thread p := by rw [hg', enter, if_neg hrc]
    subst hentry
    exact wp_orUnload fun h => absurd h hrc

theorem quiet_environ (hg : Kept g) (c : Cfg) : Quiet g (environ c : Prog Glue ε (List Bytes)) := by
  unfold environ
  split
  · exact (quiet_get hg fun _ => rfl).next fun _ => rfl
  · rfl

theorem quiet_environment (hg : Kept g) (c : Cfg) (target : Target) :
    Quiet g (environment c target : Prog Glue ε Environment) := by
  have hrandom : Quiet g (randomBytes c : Prog Glue ε (Buf 16)) := by
    unfold randomBytes
    split
    · exact (quiet_get hg fun _ => rfl).next fun _ => rfl
    · rfl
  apply (quiet_get hg fun _ => rfl).next
  intro platform
  apply hrandom.next
  intro random
  apply (quiet_get hg fun _ => rfl).next
  intro hwcap
  exact (quiet_get hg fun _ => rfl).next fun _ => rfl

theorem wp_start (arch : Elf.Arch) (c : Cfg) (target : Target) (thread : Thread) :
    wp ledgerStep Keeps (start arch c target thread p)
      (post (fun g' _ => g' = { holding thread p with scheduled := true })
        (fun g' _ => Failed thread g') True) (holding thread p) := by
  have hkept : Kept (holding thread p) := kept_of_not_scheduled rfl
  apply (quiet_get hkept fun _ => rfl).next
  intro lo
  apply (quiet_get hkept fun _ => rfl).next
  intro hi
  split
  swap
  · exact wp_unload_then fun _ => by simp
  -- the only way out that does not unload
  have hreserve : wp ledgerStep Keeps (tryReserve (target.rest.length + 1) Error.ENOMEM)
      (post (fun g' _ => g' = holding thread p) (fun g' _ => Failed thread g') True)
      (holding thread p) := by
    constructor
    · intro room
      cases room with
      | true => exact hkept
      | false => exact kept_of_not_scheduled rfl
    intro room g' hg'
    cases room with
    | true => exact hg'
    | false =>
      have hentry : g' = { holding thread p with noRoom := true } := hg'
      rw [hentry]
      exact .lost p
  apply wp_bind_post hreserve
  intro g' _ hg'
  subst hg'
  apply (quiet_environ hkept c).next
  intro envp
  apply (quiet_environment hkept c target).next
  intro env
  apply wp_lift_bind
  case herr => exact fun e he => (onlyErr_auxv (S := fun _ => False) e he).elim
  case hpanic => exact fun _ => trivial
  intro aux _
  apply (quiet_get hkept fun _ => rfl).next
  intro layout
  cases layout with
  | ok layout => exact wp_schedule c thread layout
  | error e => exact wp_unload_then (r := err (errno e)) fun _ => by simp

/-- Behind the guard, an error has unloaded the program unless it was lost. -/
theorem wp_underGuard (arch : Elf.Arch) (c : Cfg) (target : Target) (thread : Thread) :
    wp ledgerStep Keeps (underGuard arch c target thread)
      (post (fun g' _ => ∃ p, g' = { holding thread p with scheduled := true })
        (fun g' _ => Failed thread g') True) { Ledger.empty with created := [thread] } := by
  have hkept : Kept { Ledger.empty with created := [thread] } := kept_of_not_scheduled rfl
  apply (still_changeDir hkept rfl c).next fun _ => .before
  intro _
  have hfailed : ∀ g' (_ : Errno), g' = { Ledger.empty with created := [thread] } →
      Failed thread g' := by
    intro g' _ hg'
    subst hg'
    exact .before
  apply wp_bind_err (wp_loadTarget hkept c target) hfailed
  intro g' p hg'
  subst hg'
  exact wp_post_mono (wp_start arch c target thread) (fun _ _ h => ⟨p, h⟩) fun _ _ h => h

end Loaded

/-! ### The whole of `run` -/

/-- The ledger of a `run` that returned an error. -/
def Ended (g : Ledger) : Prop := Settled g ↔ g.noRoom = false

theorem ended_empty : Ended Ledger.empty := iff_of_true ⟨rfl, rfl⟩ rfl

/-- The guard releases the thread, and a lost program stays lost. -/
theorem Failed.ended {thread : Thread} {g : Ledger} (h : Failed thread g) :
    Ended { g with released := g.released ++ [thread] } := by
  have himages (p : LoadedProgram) : images p ≠ [] := by simp [images]
  cases h with
  | before => exact iff_of_true ⟨rfl, rfl⟩ rfl
  | unloaded p => exact iff_of_true ⟨rfl, (List.flatMap_singleton images p).symm⟩ rfl
  | lost p =>
    apply iff_of_false
    · intro hsettled
      have hnil : [] = [p].flatMap images := hsettled.2
      rw [List.flatMap_singleton] at hnil
      exact himages p hnil.symm
    · exact fun hroom => Bool.noConfusion hroom

/-- **Every call of `run`** leaves the ledger kept, and an error ends it. -/
theorem wp_run (arch : Elf.Arch) (c : Cfg) (args : List Bytes) :
    wp ledgerStep Keeps (run arch c args)
      (post (fun _ _ => False) (fun g' _ => Ended g') True) Ledger.empty := by
  have hkept : Kept Ledger.empty := kept_of_not_scheduled rfl
  apply still_lift.next fun _ => ended_empty
  intro target
  apply (still_resolve hkept rfl c target).next fun _ => ended_empty
  intro target
  apply (still_cString hkept rfl _).next fun _ => ended_empty
  intro _
  apply wp_bind.mpr
  constructor
  · intro created
    cases created with
    | none => exact hkept
    | some thread => exact kept_of_not_scheduled rfl
  intro created g' hg'
  cases created with
  | none =>
    have hentry : g' = Ledger.empty := hg'
    rw [hentry]
    exact ended_empty
  | some thread =>
    have hentry : g' = { Ledger.empty with created := [thread] } := hg'
    subst hentry
    apply wp_attempt_post (wp_underGuard arch c target thread)
    · intro g' _ hscheduled
      rcases hscheduled with ⟨p, hg'⟩
      subst hg'
      constructor
      · exact fun never => never.elim
      · exact fun never => never.elim
    · intro g' e hfailed
      constructor
      · intro _
        cases hfailed <;> exact kept_of_not_scheduled rfl
      · intro _ g'' hg''
        subst hg''
        exact hfailed.ended

/-! ### The condition -/

def loads : Event Glue → Bool
  | ⟨.loadProgram _ _, .ok _⟩ => true
  | _ => false

def noMemory : Event Glue → Bool
  | ⟨.tryReserve _, false⟩ => true
  | _ => false

/-- No reservation fails after the program has been loaded. -/
def RoomOnceLoaded (tr : List (Event Glue)) : Prop :=
  tr.Pairwise fun e e' => ¬ (loads e = true ∧ noMemory e' = true)

instance (tr : List (Event Glue)) : Decidable (RoomOnceLoaded tr) :=
  inferInstanceAs (Decidable (tr.Pairwise _))

section Condition

variable {g : Ledger} {e : Event Glue} {tr : List (Event Glue)}

theorem enter_loaded_isEmpty :
    (enter g e.1 e.2).loaded.isEmpty = (g.loaded.isEmpty && !loads e) := by
  rcases e with ⟨op, r⟩
  cases op with
  | loadProgram opener path =>
    cases r with
    | ok p => simp [enter, loads]
    | error e => simp [enter, loads]
  | threadCreate name len => cases r <;> simp [enter, loads]
  | tryReserve n => cases r <;> simp [enter, loads]
  | threadSchedule thread =>
    by_cases hr : r = 0
    · simp [enter, loads, hr]
    · simp [enter, loads, hr]
  | _ => simp [enter, loads]

theorem enter_noRoom :
    (enter g e.1 e.2).noRoom = (g.noRoom || !g.loaded.isEmpty && noMemory e) := by
  rcases e with ⟨op, r⟩
  cases op with
  | loadProgram opener path => cases r <;> simp [enter, noMemory]
  | threadCreate name len => cases r <;> simp [enter, noMemory]
  | tryReserve n => cases r <;> simp [enter, noMemory]
  | threadSchedule thread =>
    by_cases hr : r = 0
    · simp [enter, noMemory, hr]
    · simp [enter, noMemory, hr]
  | _ => simp [enter, noMemory]

/-- The ledger notes exactly the reservations that fail too late. -/
theorem foldl_enter_noRoom :
    (tr.foldl (fun g e => enter g e.1 e.2) g).noRoom = false ↔
      g.noRoom = false ∧ (g.loaded.isEmpty = false → ∀ e ∈ tr, noMemory e = false) ∧
        RoomOnceLoaded tr := by
  induction tr generalizing g with
  | nil => simp [RoomOnceLoaded]
  | cons e rest ih =>
    have hcons : RoomOnceLoaded (e :: rest) ↔
        (loads e = true → ∀ e' ∈ rest, noMemory e' = false) ∧ RoomOnceLoaded rest := by
      simp only [RoomOnceLoaded, List.pairwise_cons, not_and, Bool.not_eq_true]
      exact and_congr_left fun _ => ⟨fun h hl e he => h e he hl, fun h e he hl => h hl e he⟩
    rw [List.foldl_cons, ih, enter_noRoom, enter_loaded_isEmpty, hcons, List.forall_mem_cons]
    cases g.loaded.isEmpty <;> cases loads e <;> simp <;> tauto

theorem ledgerOf_noRoom : (ledgerOf tr).noRoom = false ↔ RoomOnceLoaded tr := by
  rw [ledgerOf, foldl_enter_noRoom]
  simp [Ledger.empty]

end Condition

/-- What start-up owes at any point of a run: an error has given back all it acquired,
    and a scheduled thread has lost nothing. -/
structure Clean (tr : List (Event Glue)) (q : Prog Glue Errno Unit) : Prop where
  settled : ∀ e, q = .done (.err e) → Settled (ledgerOf tr)
  kept : Kept (ledgerOf tr)

/-- **Start-up gives back what it acquired** exactly when no reservation fails once the
    program is loaded. -/
theorem run_clean_iff {arch : Elf.Arch} {c : Cfg} {args : List Bytes} {tr : List (Event Glue)}
    {q : Prog Glue Errno Unit} (hrun : Reaches anyAnswer () (run arch c args) tr () q) :
    Clean tr q ↔ ((∃ e, q = .done (.err e)) → RoomOnceLoaded tr) := by
  have hnoted : Reaches ledgerStep Ledger.empty (run arch c args) tr (ledgerOf tr) q :=
    Reaches.noted (G := ledgerStep) hrun enter (fun _ _ _ _ _ _ => rfl) Ledger.empty
  have hkept : Kept (ledgerOf tr) := by
    apply hnoted.keeps (wp_run arch c args) (kept_of_not_scheduled rfl)
    intro g op r g' _ hkeeps hg'
    subst hg'
    exact hkeeps r
  have hleft := wp_reaches (wp_run arch c args) hnoted
  rw [← ledgerOf_noRoom]
  constructor
  · intro hclean hfailed
    rcases hfailed with ⟨e, hq⟩
    subst hq
    have hended : Ended (ledgerOf tr) := hleft
    exact hended.mp (hclean.settled e rfl)
  · intro hroom
    constructor
    · intro e hq
      subst hq
      have hended : Ended (ledgerOf tr) := hleft
      exact hended.mpr (hroom ⟨e, rfl⟩)
    · exact hkept

/-! A boot of `app` from the file system, with the image of the small program. -/

def bootCfg : Cfg where
  stackLen := 0x10000
  pageSize := 0x1000
  uid := 0
  gid := 0
  haveEnviron := false
  haveRandom := false
  havePthread := true
  vfsexec := true
  customappname := true
  envpath := false
  envpwd := false
  vfsexecPath := []
  vdsoAddr := 0

def bootArgs : List Bytes := [[0x6b, 0x65, 0x72, 0x6e, 0x65, 0x6c], [0x61, 0x70, 0x70]]

/-- The small program, as its own interpreter. -/
def bootProgram : LoadedProgram :=
  ⟨AddressSpace.smallImage 0x1100, AddressSpace.smallLoaded true,
    some (AddressSpace.smallImage 0x1100, AddressSpace.smallLoaded false), none⟩

/-- What the kernel answers: `room` is the memory for a reservation, `rc` the answer
    of the scheduler. -/
def bootAnswer (room : Nat → Bool) (rc : Int32) : (op : GlueOp) → Option op.Res
  | .tryReserve n => some (room n)
  | .getenv _ => some none
  | .pathIsExec _ => some 0
  | .threadCreate .. => some (some 7)
  | .threadRelease _ => some ()
  | .chdir _ => some 0
  | .initrd => some (0, 0, 0)
  | .loadProgram .. => some (.ok bootProgram)
  | .unload _ => some ()
  | .threadStackBase _ => some 0x10000
  | .ctxGetSp _ => some 0x20000
  | .environ => some none
  | .platform => some []
  | .randomFill => some (0, fixedSeed)
  | .hwcap => some 0
  | .hwcap2 => some 0
  | .buildStack .. => some (.ok ⟨0x18000, 0x18000, 0x18000⟩)
  | .ctxInit .. => some ()
  | .threadSetRunnable _ => some ()
  | .threadMakePthread _ => some 0
  | .threadSchedule _ => some rc
  | .waitForever => none

def bootTrace (room : Nat → Bool) (rc : Int32) : List (Event Glue) :=
  (run .x86_64 bootCfg bootArgs).trace (I := Glue) (bootAnswer room rc)

/-- A thread the scheduler refuses: both images and the thread are given back. -/
theorem refused_boot_clean : Clean (bootTrace (fun _ => true) (-11)) (.done (.err 11)) := by
  have hrun : Reaches anyAnswer () (run .x86_64 bootCfg bootArgs) (bootTrace (fun _ => true) (-11))
      () (.done (.err 11)) := trace_reaches (by decide +kernel)
  apply (run_clean_iff hrun).mpr
  exact fun _ => by decide +kernel

/-- No room for the one argument: the thread is given back, the images are not. -/
theorem argv_boot_leaks :
    Reaches anyAnswer () (run .x86_64 bootCfg bootArgs) (bootTrace (fun n => n ≠ 1) 0) ()
        (.done (.err (errno Error.ENOMEM))) ∧
      ledgerOf (bootTrace (fun n => n ≠ 1) 0) =
        { created := [7], released := [7], loaded := [bootProgram], unloaded := [],
          scheduled := false, noRoom := true } ∧
      ¬ Clean (bootTrace (fun n => n ≠ 1) 0) (.done (.err (errno Error.ENOMEM))) := by
  have hledger : ledgerOf (bootTrace (fun n => n ≠ 1) 0) =
      { created := [7], released := [7], loaded := [bootProgram], unloaded := [],
        scheduled := false, noRoom := true } := by decide +kernel
  refine ⟨trace_reaches (by decide +kernel), hledger, ?_⟩
  intro hclean
  have hsettled := (hclean.settled _ rfl).2
  rw [hledger] at hsettled
  exact absurd hsettled (by decide +kernel)

end ElfLoader.App
