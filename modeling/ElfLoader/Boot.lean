import ElfLoader.Initrd
import ElfLoader.PathLookup

/-!
# What the application finds

`run` loads the application, builds its stack and schedules its thread.  Here the calls that
have models of their own are what these models do to one address space: `load_program` with
either opener, `Loaded::unload` and `build_stack`.  Whenever a thread is scheduled, what it
needs is in memory and its context points to it; and what that is follows from the command
line and the answers that the calls have got.
-/

namespace ElfLoader.Boot

open ElfLoader Outcome Prog Elf Loader Program AddressSpace Initrd
open ElfLoader.App hiding run loadProgram unload tryReserve
open ElfLoader.Auxv hiding alignDown
open ElfLoader.FileRead (MemImage)

/-- What `run` is given: the files, the initrd, and for each thread its stack. -/
structure BootWorld where
  files : World
  initrd : MemImage
  stack : Thread → UInt64 × UInt64

/-- The address space, and the stack pointer and entry point of the contexts. -/
structure BootState where
  space : Space
  ctx : Thread → Option (Nat × Nat)

/-- Memory for a thread was taken from the heap, its stack among it. -/
structure StackTaken (pg : PageSize) (stack : Nat → Prop) (s s' : Space) : Prop where
  prot : s'.prot = s.prot
  mem : ∀ x, ¬ stack x → s'.mem x = s.mem x
  apart : BlocksApart s → BlocksApart s'
  used : InUse pg s' stack True
  kept : ∀ blk ∈ s.blocks, blk ∈ s'.blocks
  spares : ∀ R, InUse pg s R True → ∀ x, R x → ¬ stack x

def threadStack (k : BootWorld) (thread : Thread) : Nat → Prop :=
  Within (k.stack thread).1.toNat (k.stack thread).2.toNat

/-- What the calls of `run` do. -/
def bootStep (b : Build) (k : BootWorld) : Handler Glue BootState := fun t op r t' =>
  match op, r with
  | .threadCreate _ _, (some thread : Option Thread) =>
      StackTaken b.page (threadStack k thread) t.space t'.space ∧ t'.ctx = t.ctx
  | .threadRelease _, _ => True
  | .initrd, ((rc, base, len) : Int32 × UInt64 × UInt64) =>
      (0 ≤ rc → base.toNat = k.initrd.base ∧ len.toNat = k.initrd.len) ∧ t' = t
  | .loadProgram .vfs path, r =>
      (∃ tr, Reaches (processStep b.page k.files) t.space (loadProgram b path) tr t'.space
        (.done (ofExcept r))) ∧ t'.ctx = t.ctx
  | .loadProgram (.initrd base len) path, r =>
      (∃ tr, Reaches (initrdStep b.page k.files ⟨base.toNat, len.toNat⟩) t.space
        (loadProgram b path) tr t'.space (.done (ofExcept r))) ∧ t'.ctx = t.ctx
  | .unload l, _ =>
      (∃ tr, Reaches (processStep b.page k.files) t.space (l.unload : Prog Host Empty Unit) tr
        t'.space (.done (ok ()))) ∧ t'.ctx = t.ctx
  | .threadStackBase thread, lo => lo = (k.stack thread).1 ∧ t' = t
  | .ctxGetSp thread, hi => hi = (k.stack thread).2 ∧ t' = t
  | .environ, strings => (∀ ss ∈ strings, ∀ x ∈ ss, 0 ∉ x) ∧ t' = t
  | .buildStack range argv envp aux, r =>
      (∃ tr, Reaches (processStep b.page k.files) t.space (buildStack range argv envp aux) tr
        t'.space (.done (ofExcept r))) ∧ t'.ctx = t.ctx
  | .ctxInit thread sp ip, _ =>
      t' = { t with ctx := fun i => if i = thread then some (sp, ip) else t.ctx i }
  | _, _ => t' = t

/-- Where the image comes from, and its name there. -/
def source (c : Cfg) (k : BootWorld) (m : Memory) : World :=
  if c.vfsexec then k.files else initrdWorld k.files k.initrd m

def sourcePath (c : Cfg) (target : Target) : Bytes := if c.vfsexec then target.path else INITRD

/-! ### What a run is told -/

/-- `target` is what `resolve` makes of what was named, by the first answers of the run.
    Where there is memory, and names are what a system says, it is what `PATH` has there. -/
structure Resolved (c : Cfg) (tr : List (Event Glue)) (named target : Target) : Prop where
  search : ∃ own, own <+: tr ∧
    Reaches anyAnswer () (resolve c named : Prog Glue Errno Target) own () (.done (ok target))
  progname : target.progname = named.progname
  rest : target.rest = named.rest
  unsearched : c.envpath = false → target.path = named.path
  opens : ∀ sys : PathLookup.System, c.envpath = true → 0 ∉ named.path →
    (∀ e ∈ tr, sys.answers e.1 e.2) → PathLookup.Opens sys c named.path target.path

/-- The environment is that of the unikernel, in a build that has one. -/
def TellsEnviron (c : Cfg) (tr : List (Event Glue)) (envp : List Bytes) : Prop :=
  if c.haveEnviron then ∃ strings, (⟨.environ, strings⟩ : Event Glue) ∈ tr ∧ envp = strings.getD []
  else envp = []

/-- The seed is the answer of the entropy source, or the fixed one. -/
def TellsRandom (c : Cfg) (tr : List (Event Glue)) (random : Buf 16) : Prop :=
  if c.haveRandom then
    ∃ rc bytes, (⟨.randomFill, (rc, bytes)⟩ : Event Glue) ∈ tr ∧
      random = if rc = 0 then bytes else fixedSeed
  else random = fixedSeed

/-- The auxiliary vector says what the system and the configuration say. -/
structure TellsEnvironment (c : Cfg) (target : Target) (tr : List (Event Glue))
    (env : Environment) : Prop where
  pageSize : env.pageSize = c.pageSize.toUInt64
  platform : (⟨.platform, env.platform⟩ : Event Glue) ∈ tr
  execfn : env.execfn = target.path
  random : TellsRandom c tr env.random
  uid : env.uid = c.uid.toUInt64
  gid : env.gid = c.gid.toUInt64
  hwcap : (⟨.hwcap, env.hwcap.1⟩ : Event Glue) ∈ tr
  hwcap2 : (⟨.hwcap2, env.hwcap.2⟩ : Event Glue) ∈ tr
  sysinfoEhdr : env.sysinfoEhdr = if c.vdsoAddr ≠ 0 then some c.vdsoAddr else none

section Told

variable {c : Cfg} {named target : Target} {tr tr' : List (Event Glue)}

theorem Resolved.mono (h : Resolved c tr named target) (htr : tr <+: tr') :
    Resolved c tr' named target := by
  rcases h.search with ⟨own, hown, hrun⟩
  refine ⟨⟨own, hown.trans htr, hrun⟩, h.progname, h.rest, h.unsearched, ?_⟩
  exact fun sys hpath hnul hsys => h.opens sys hpath hnul fun e he => hsys e (htr.subset he)

theorem TellsEnviron.mono {envp : List Bytes} (h : TellsEnviron c tr envp) (htr : tr <+: tr') :
    TellsEnviron c tr' envp := by
  unfold TellsEnviron at h ⊢
  split
  · rename_i hhave
    rw [if_pos hhave] at h
    rcases h with ⟨strings, hmem, henvp⟩
    exact ⟨strings, htr.subset hmem, henvp⟩
  · rename_i hhave
    rwa [if_neg hhave] at h

theorem TellsRandom.mono {random : Buf 16} (h : TellsRandom c tr random) (htr : tr <+: tr') :
    TellsRandom c tr' random := by
  unfold TellsRandom at h ⊢
  split
  · rename_i hhave
    rw [if_pos hhave] at h
    rcases h with ⟨rc, bytes, hmem, hrandom⟩
    exact ⟨rc, bytes, htr.subset hmem, hrandom⟩
  · rename_i hhave
    rwa [if_neg hhave] at h

theorem TellsEnvironment.mono {env : Environment} (h : TellsEnvironment c target tr env)
    (htr : tr <+: tr') : TellsEnvironment c target tr' env :=
  { h with
    platform := htr.subset h.platform
    random := h.random.mono htr
    hwcap := htr.subset h.hwcap
    hwcap2 := htr.subset h.hwcap2 }

end Told

/-- The context of `thread` enters the program that the command line asks for, and its image
    is complete, with the environment that the run was told. -/
def Scheduled (b : Build) (k : BootWorld) (c : Cfg) (args : List Bytes) (t₀ : BootState)
    (thread : Thread) (tr : List (Event Glue)) (t : BootState) : Prop :=
  ∃ named target envp env loaded sp, ∃ h : (k.stack thread).1 < (k.stack thread).2,
    splitCommandLine c args = ok named ∧ Resolved c tr named target ∧
    TellsEnviron c tr envp ∧ TellsEnvironment c target tr env ∧
    t.ctx thread = some (sp, loaded.entry) ∧
    ProcessImage b (source c k t₀.space.mem) (sourcePath c target)
      (appStackRange (k.stack thread).1 (k.stack thread).2 h) (target.progname :: target.rest)
      envp env loaded sp t₀.space t.space

/-- The state of the machine, and what the run was told. -/
abbrev Told := BootState × List (Event Glue)

/-- A thread is scheduled only with its image complete. -/
def BootPre (b : Build) (k : BootWorld) (c : Cfg) (args : List Bytes) (t₀ : BootState) (t : Told) :
    GlueOp → Prop
  | .threadSchedule thread => Scheduled b k c args t₀ thread t.2 t.1
  | _ => True

abbrev bootTold (b : Build) (k : BootWorld) : Handler Glue Told := traced (bootStep b k)

/-! ### Calls that leave memory and contexts alone -/

def Quiet : GlueOp → Prop
  | .tryReserve _ => True
  | .getenv _ => True
  | .pathIsExec _ => True
  | .chdir _ => True
  | .environ => True
  | .platform => True
  | .randomFill => True
  | .hwcap => True
  | .hwcap2 => True
  | _ => False

/-- The environment is an array of C strings. -/
def EnvStrings : (op : GlueOp) → op.Res → Prop
  | .environ, strings => ∀ ss ∈ strings, ∀ x ∈ ss, 0 ∉ x
  | _, _ => True

abbrev Quietly {ε α : Type} (p : Prog Glue ε α) (F : α → Prop) : Prop := Calls EnvStrings Quiet p F

section Quiet

variable {ε α : Type}

theorem quietly_ask {op : GlueOp} {meaning : op.Res → Outcome ε α} {F : α → Prop} (h : Quiet op)
    (hF : ∀ r a, EnvStrings op r → meaning r = ok a → F a) :
    Quietly (ask (I := Glue) op meaning) F :=
  calls_ask (I := Glue) h hF

theorem quietly_get {op : GlueOp} (h : Quiet op) :
    Quietly (get op : Prog Glue ε op.Res) fun _ => True :=
  quietly_ask h fun _ _ _ _ => trivial

theorem quietly_cString (s : Bytes) : Quietly (cString s) fun _ => 0 ∉ s := by
  apply Calls.bind (F := fun _ => 0 ∉ s)
  · apply calls_lift
    intro _ hguard
    rw [guardErr_eq_ok] at hguard
    simpa using hguard
  · intro _ hs
    exact quietly_ask trivial fun _ _ _ _ => hs

theorem quietly_getenv (c : Cfg) (name : Bytes) :
    Quietly (getenv c name : Prog Glue ε (Option Bytes)) fun _ => True := by
  unfold getenv
  split
  · apply (quietly_cString name).attempt.bind
    intro r _
    cases r with
    | ok u => exact quietly_get trivial
    | error e => trivial
  · trivial

theorem quietly_changeDir (c : Cfg) : Quietly (changeDir c) fun _ => True := by
  unfold changeDir
  split
  · apply (quietly_getenv c PWD).bind
    intro pwd _
    cases pwd with
    | none => trivial
    | some pwd =>
      apply (quietly_cString pwd).bind
      intro _ _
      apply Calls.bind (F := fun _ => True) (quietly_get (by trivial))
      intro rc _
      exact calls_lift fun _ _ => trivial
  · trivial

end Quiet

section Run

variable {ε α : Type} {b : Build} {k : BootWorld} {c : Cfg} {args : List Bytes} {t₀ : BootState}
  {t t' t'' : Told}

/-- Only calls have been made that leave memory and contexts alone. -/
structure Later (t t' : Told) : Prop where
  same : t'.1 = t.1
  trace : t.2 <+: t'.2

theorem Later.refl (t : Told) : Later t t := ⟨rfl, List.prefix_rfl⟩

theorem Later.trans (h : Later t t') (h' : Later t' t'') : Later t t'' :=
  ⟨h'.same.trans h.same, h.trace.trans h'.trace⟩

theorem Later.next (h : Later t t') (e : Event Glue) : Later t (t'.1, t'.2 ++ [e]) :=
  ⟨h.same, h.trace.trans (List.prefix_append _ _)⟩

/-- `p` has come to `a` with such calls. -/
structure Ran (p : Prog Glue ε α) (a : α) (t t' : Told) : Prop where
  same : t'.1 = t.1
  own : ∃ own, t'.2 = t.2 ++ own ∧
    Reaches (fun (_ : Unit) op r _ => EnvStrings op r) () p own () (.done (ok a))

theorem Ran.later {p : Prog Glue ε α} {a : α} (h : Ran p a t t') : Later t t' := by
  rcases h.own with ⟨own, htrace, -⟩
  refine ⟨h.same, ?_⟩
  rw [htrace]
  exact List.prefix_append _ _

theorem bootStep_quiet {s s' : BootState} {op : GlueOp} {r : op.Res} (hquiet : Quiet op)
    (h : bootStep b k s op r s') : s' = s ∧ EnvStrings op r := by
  cases op with
  | environ => exact ⟨h.2, h.1⟩
  | tryReserve n => exact ⟨h, trivial⟩
  | getenv name => exact ⟨h, trivial⟩
  | pathIsExec path => exact ⟨h, trivial⟩
  | chdir path => exact ⟨h, trivial⟩
  | platform => exact ⟨h, trivial⟩
  | randomFill => exact ⟨h, trivial⟩
  | hwcap => exact ⟨h, trivial⟩
  | hwcap2 => exact ⟨h, trivial⟩
  | _ => exact hquiet.elim

theorem bootPre_quiet {op : GlueOp} (hquiet : Quiet op) : BootPre b k c args t₀ t op := by
  cases op with
  | threadSchedule thread => exact hquiet.elim
  | _ => trivial

theorem wp_quietly {p : Prog Glue ε α} {F : α → Prop} (hp : Quietly p F) :
    wp (bootTold b k) (BootPre b k c args t₀) p
      (post (fun t' a => Ran p a t t' ∧ F a) (fun _ _ => True) True) t := by
  induction p generalizing t with
  | done r =>
    cases r with
    | ok a => exact ⟨⟨rfl, [], (List.append_nil _).symm, .refl _ _⟩, hp⟩
    | err e => trivial
    | panic => trivial
  | call op next ih =>
    apply wp_traced (bootPre_quiet hp.1)
    intro r s' h
    rcases bootStep_quiet hp.1 h with ⟨rfl, hA⟩
    apply wp_post_mono (ih r (hp.2 r () hA))
    · rintro t' a ⟨⟨hsame, own, htrace, hrun⟩, hF⟩
      refine ⟨⟨hsame, ⟨op, r⟩ :: own, ?_, .step hA hrun⟩, hF⟩
      rw [htrace, List.append_assoc, List.singleton_append]
    · exact fun _ _ h => h

/-- One call of those, and what follows it. -/
theorem wp_quiet_get (op : GlueOp) (hquiet : Quiet op) {f : op.Res → Prog Glue ε α}
    {Q : Told → Outcome ε α → Prop} (hl : Later t t')
    (hf : ∀ r t'', EnvStrings op r → (⟨op, r⟩ : Event Glue) ∈ t''.2 → Later t t'' →
      Later t' t'' → wp (bootTold b k) (BootPre b k c args t₀) (f r) Q t'') :
    wp (bootTold b k) (BootPre b k c args t₀) (get op >>= f) Q t' := by
  apply wp_traced (bootPre_quiet hquiet)
  intro r s' h
  rcases bootStep_quiet hquiet h with ⟨rfl, hA⟩
  exact hf r _ hA (List.mem_append_right _ (List.mem_singleton.mpr rfl)) (hl.next _)
    ((Later.refl t').next _)

theorem wp_environ :
    wp (bootTold b k) (BootPre b k c args t₀) (environ c : Prog Glue ε (List Bytes))
      (post (fun t' envp => Later t t' ∧ TellsEnviron c t'.2 envp ∧ ∀ x ∈ envp, 0 ∉ x)
        (fun _ _ => True) True) t := by
  unfold environ TellsEnviron
  split
  · apply wp_quiet_get .environ trivial (Later.refl t)
    intro strings t' hstrings hmem hl _
    refine ⟨hl, ⟨strings, hmem, rfl⟩, ?_⟩
    cases strings with
    | none => exact fun x hx => nomatch hx
    | some ss => exact hstrings ss rfl
  · exact ⟨Later.refl t, rfl, fun x hx => nomatch hx⟩

theorem wp_randomBytes :
    wp (bootTold b k) (BootPre b k c args t₀) (randomBytes c : Prog Glue ε (Buf 16))
      (post (fun t' random => Later t t' ∧ TellsRandom c t'.2 random) (fun _ _ => True) True)
      t := by
  unfold randomBytes TellsRandom
  split
  · apply wp_quiet_get .randomFill trivial (Later.refl t)
    rintro ⟨rc, bytes⟩ t' _ hmem hl _
    exact ⟨hl, rc, bytes, hmem, rfl⟩
  · exact ⟨Later.refl t, rfl⟩

theorem wp_environment (target : Target) :
    wp (bootTold b k) (BootPre b k c args t₀) (environment c target : Prog Glue ε Environment)
      (post (fun t' env => Later t t' ∧ TellsEnvironment c target t'.2 env) (fun _ _ => True) True)
      t := by
  apply wp_quiet_get .platform trivial (Later.refl t)
  intro platform t₁ _ hplatform hl₁ _
  apply wp_bind_post wp_randomBytes
  rintro t₂ random ⟨hl₂, hrandom⟩
  apply wp_quiet_get .hwcap trivial (hl₁.trans hl₂)
  intro hwcap t₃ _ hhwcap hl₃ hl₂₃
  apply wp_quiet_get .hwcap2 trivial hl₃
  intro hwcap2 t₄ _ hhwcap2 hl₄ hl₃₄
  have hl₂₄ := hl₂₃.trans hl₃₄
  exact ⟨hl₄, {
    pageSize := rfl
    platform := (hl₂.trans hl₂₄).trace.subset hplatform
    execfn := rfl
    random := hrandom.mono hl₂₄.trace
    uid := rfl
    gid := rfl
    hwcap := hl₃₄.trace.subset hhwcap
    hwcap2 := hhwcap2
    sysinfoEhdr := rfl }⟩

/-! ### From the stack to the scheduler -/

theorem wp_unloadBoot (loaded : LoadedProgram) {P : Told → Unit → Prop} (hP : ∀ t, P t ()) :
    wp (bootTold b k) (BootPre b k c args t₀) (App.unload loaded : Prog Glue ε Unit)
      (post P (fun _ _ => True) True) t := by
  unfold App.unload
  cases loaded.interp with
  | none => exact ⟨trivial, fun _ t' _ => hP t'⟩
  | some v => exact ⟨trivial, fun _ _ _ => ⟨trivial, fun _ t' _ => hP t'⟩⟩

theorem wp_orUnload (loaded : LoadedProgram) (rc : Int32) :
    wp (bootTold b k) (BootPre b k c args t₀) (orUnload loaded rc)
      (post (fun t' _ => Later t t') (fun _ _ => True) True) t := by
  unfold orUnload
  split
  · apply wp_bind_post (wp_unloadBoot (P := fun _ _ => True) loaded fun _ => trivial)
    intro t' _ _
    apply wp_lift_post
    · intro a ha
      exact absurd ha (errNeg_ne_ok a)
    · exact fun _ _ => trivial
    · exact fun _ => trivial
  · exact Later.refl t

theorem wp_makePthread (thread : Thread) (loaded : LoadedProgram) :
    wp (bootTold b k) (BootPre b k c args t₀) (makePthread c thread loaded)
      (post (fun t' _ => Later t t') (fun _ _ => True) True) t := by
  unfold makePthread
  split
  · apply wp_traced trivial
    rintro rc _ rfl
    apply wp_post_mono (wp_orUnload loaded rc)
    · exact fun t' _ hl => ((Later.refl t).next _).trans hl
    · exact fun _ _ h => h
  · exact Later.refl t

/-- The thread is scheduled with its context set. -/
theorem wp_schedule {thread : Thread} {loaded : LoadedProgram} {layout : StackLayout}
    (h : ∀ t' : Told, t'.1.space = t.1.space → t'.1.ctx thread = some (layout.sp, loaded.entry) →
      t.2 <+: t'.2 → Scheduled b k c args t₀ thread t'.2 t'.1) :
    wp (bootTold b k) (BootPre b k c args t₀) (schedule c thread loaded layout)
      (post (fun _ _ => True) (fun _ _ => True) True) t := by
  apply wp_traced trivial
  rintro u s₁ rfl
  apply wp_traced trivial
  rintro u' s₂ rfl
  apply wp_bind_post (wp_makePthread thread loaded)
  intro t₃ _ hl
  have htrace : t.2 <+: t₃.2 := by
    apply List.IsPrefix.trans _ hl.trace
    rw [List.append_assoc]
    exact List.prefix_append _ _
  apply wp_traced
  · apply h t₃ _ _ htrace
    · rw [hl.same]
    · rw [hl.same]
      exact if_pos rfl
  rintro rc t₄ rfl
  exact wp_post_mono (wp_orUnload loaded rc) (fun _ _ _ => trivial) fun _ _ h => h

/-- What is known when the program is loaded: what to run, and the space `s` it was loaded
    into, which has the stack of the thread. -/
structure Ready (b : Build) (k : BootWorld) (c : Cfg) (args : List Bytes) (t₀ : BootState)
    (target : Target) (thread : Thread) (s : Space) (tr : List (Event Glue)) : Prop where
  named : ∃ named, splitCommandLine c args = ok named ∧ Resolved c tr named target
  strings : ∀ x ∈ target.progname :: target.rest, 0 ∉ x
  taken : StackTaken b.page (threadStack k thread) t₀.space s

theorem Ready.mono {target : Target} {thread : Thread} {s : Space} {tr tr' : List (Event Glue)}
    (h : Ready b k c args t₀ target thread s tr) (htr : tr <+: tr') :
    Ready b k c args t₀ target thread s tr' := by
  rcases h.named with ⟨named, hsplit, hresolved⟩
  exact ⟨⟨named, hsplit, hresolved.mono htr⟩, h.strings, h.taken⟩

theorem Ready.scheduled {target : Target} {thread : Thread} {s : Space} {envp : List Bytes}
    {env : Environment} {loaded : LoadedProgram} {sp : Nat}
    {h : (k.stack thread).1 < (k.stack thread).2}
    (hready : Ready b k c args t₀ target thread s t.2) (henviron : TellsEnviron c t.2 envp)
    (henvironment : TellsEnvironment c target t.2 env)
    (hctx : t.1.ctx thread = some (sp, loaded.entry))
    (himage : ProcessImage b (source c k t₀.space.mem) (sourcePath c target)
      (appStackRange (k.stack thread).1 (k.stack thread).2 h) (target.progname :: target.rest)
      envp env loaded sp s t.1.space) :
    Scheduled b k c args t₀ thread t.2 t.1 := by
  rcases hready.named with ⟨named, hsplit, hresolved⟩
  refine ⟨named, target, envp, env, loaded, sp, h, hsplit, hresolved, henviron, henvironment, hctx,
    himage.program, himage.aligned, himage.inside, himage.stack, ?_, ?_⟩
  · intro x hx
    rw [himage.rest.prot x hx, Space.protAt, hready.taken.prot]
    rfl
  · intro x hx
    rw [himage.rest.mem x hx]
    exact hready.taken.mem x hx.1

theorem wp_start {target : Target} {thread : Thread} {s : Space} {loaded : LoadedProgram}
    (hready : Ready b k c args t₀ target thread s t.2)
    (hloaded : LoadedOnto b (source c k t₀.space.mem) (sourcePath c target) s loaded t.1.space) :
    wp (bootTold b k) (BootPre b k c args t₀) (start b.arch c target thread loaded)
      (post (fun _ _ => True) (fun _ _ => True) True) t := by
  apply wp_traced trivial
  rintro lo t₁ ⟨rfl, rfl⟩
  apply wp_traced trivial
  rintro hi t₂ ⟨rfl, rfl⟩
  have hstart := ((Later.refl t).next ⟨.threadStackBase thread, (k.stack thread).1⟩).next
    ⟨.ctxGetSp thread, (k.stack thread).2⟩
  change wp _ _ (if h : (k.stack thread).1 < (k.stack thread).2 then _ else _) _ _
  split
  · rename_i h
    have hroom : Quietly (App.tryReserve (target.rest.length + 1) Error.ENOMEM) fun _ => True :=
      quietly_ask trivial fun _ _ _ _ => trivial
    apply wp_bind_post (wp_quietly hroom)
    rintro t₃ _ ⟨hran, -⟩
    apply wp_bind_post wp_environ
    rintro t₄ envp ⟨hl₄, henviron, henvp⟩
    apply wp_bind_post (wp_environment target)
    rintro t₅ env ⟨hl₅, henvironment⟩
    have hl := ((hstart.trans hran.later).trans hl₄).trans hl₅
    refine wp_lift_bind ?_ (fun _ _ => trivial) fun _ => trivial
    intro aux haux
    apply wp_traced trivial
    rintro r t₆ ⟨⟨tr, hrun⟩, -⟩
    cases r with
    | error e =>
      apply wp_bind_post (wp_unloadBoot (P := fun _ _ => True) loaded fun _ => trivial)
      intro _ _ _
      trivial
    | ok layout =>
      rw [hl.same] at hrun
      have hbuild := wp_reaches (wp_onStack (stackOnly_buildStack _ _ _) wp_buildStack) hrun
      rcases hbuild with ⟨⟨q, hbuilt⟩, honly⟩
      have hused : InUse b.page s
          (stackBytes (appStackRange (k.stack thread).1 (k.stack thread).2 h))
          (Copies b (source c k t₀.space.mem)) :=
        ⟨hready.taken.used.mapped, fun _ => hready.taken.used.block trivial⟩
      have himage := hloaded.processImage hused hready.strings henvp haux hbuilt honly
      apply wp_schedule
      intro t' hspace hctx htrace
      rw [← hspace] at himage
      have htold : t₅.2 <+: t'.2 := (List.prefix_append _ _).trans htrace
      exact (hready.mono (hl.trace.trans htold)).scheduled
        (henviron.mono (hl₅.trace.trans htold)) (henvironment.mono htold) hctx himage
  · apply wp_bind_post (wp_unloadBoot (P := fun _ _ => True) loaded fun _ => trivial)
    intro _ _ _
    trivial

/-! ### From the command line to the stack -/

/-- What there is when the unikernel boots.  Memory of the initrd counts as a block that is
    taken, so that the heap does not hand it out. -/
structure Booted (b : Build) (k : BootWorld) (c : Cfg) (args : List Bytes) (t : BootState) :
    Prop where
  files : c.vfsexec = true → Served b k.files
  apart : BlocksApart t.space
  initrd : c.vfsexec = false → InUse b.page t.space (initrdBytes k.initrd) True
  initrd_lt : k.initrd.len < 2 ^ 64
  strings : ∀ x ∈ args, 0 ∉ x

theorem StackTaken.inUse {pg : PageSize} {stack R : Nat → Prop} {s s' : Space}
    (h : StackTaken pg stack s s') (hR : InUse pg s R True) : InUse pg s' R True := by
  constructor
  · intro x hx
    rw [Space.protAt, h.prot]
    exact hR.mapped x hx
  · intro _
    rcases hR.block trivial with ⟨blk, hblk, hall⟩
    exact ⟨blk, h.kept blk hblk, hall⟩

/-- The stack of the thread is not in the initrd. -/
theorem StackTaken.initrdWorld_eq {pg : PageSize} {stack : Nat → Prop} {s s' : Space}
    {w : World} {image : MemImage} (h : StackTaken pg stack s s')
    (hR : InUse pg s (initrdBytes image) True) :
    initrdWorld w image s'.mem = initrdWorld w image s.mem := by
  have hpeek : peek s'.mem image.base image.len = peek s.mem image.base image.len :=
    peek_congr fun x hx => h.mem x (h.spares _ hR x hx)
  rw [initrdWorld, hpeek]
  rfl

theorem wp_loadTarget {target : Target} {thread : Thread} (hboot : Booted b k c args t₀)
    (hready : Ready b k c args t₀ target thread t.1.space t.2) :
    wp (bootTold b k) (BootPre b k c args t₀) (loadTarget c target)
      (post (fun t' loaded => t.2 <+: t'.2 ∧
        LoadedOnto b (source c k t₀.space.mem) (sourcePath c target) t.1.space loaded t'.1.space)
        (fun _ _ => True) True) t := by
  unfold loadTarget source sourcePath
  split
  · rename_i hvfs
    apply wp_traced trivial
    rintro r t' ⟨⟨tr, hrun⟩, -⟩
    have hload := wp_reaches
      (wp_loadedOnto (hboot.files hvfs) (hready.taken.apart hboot.apart) _) hrun
    cases r with
    | error e => trivial
    | ok loaded => exact ⟨List.prefix_append _ _, hload⟩
  · rename_i hvfs
    have hinitrd := hboot.initrd (Bool.eq_false_of_not_eq_true hvfs)
    apply wp_traced trivial
    rintro ⟨rc, base, len⟩ t₁ ⟨hplace, rfl⟩
    change wp _ _ (liftM (guardErr (¬ (rc < 0 ∨ base = 0 ∨ len = 0)) _) >>= _) _ _
    refine wp_lift_bind ?_ (fun _ _ => trivial) fun _ => trivial
    intro _ hguard
    rw [guardErr_eq_ok] at hguard
    push Not at hguard
    rcases hguard with ⟨hrc, -, hlen⟩
    rcases hplace (Int32.not_lt.mp hrc) with ⟨hbase, hlength⟩
    have himage : (⟨base.toNat, len.toNat⟩ : MemImage) = k.initrd := by
      rw [hbase, hlength]
    have hne : k.initrd.len ≠ 0 := by
      rw [← hlength]
      exact fun h => hlen (UInt64.toNat.inj h)
    apply wp_traced trivial
    rintro r t' ⟨⟨tr, hrun⟩, -⟩
    rw [himage] at hrun
    have hload := wp_reaches (wp_initrdLoaded (hready.taken.apart hboot.apart)
      (hready.taken.inUse hinitrd) hne hboot.initrd_lt) hrun
    rw [hready.taken.initrdWorld_eq hinitrd] at hload
    cases r with
    | error e => trivial
    | ok loaded => exact ⟨(List.prefix_append _ _).trans (List.prefix_append _ _), hload⟩

theorem wp_underGuard {target : Target} {thread : Thread} (hboot : Booted b k c args t₀)
    (hready : Ready b k c args t₀ target thread t.1.space t.2) :
    wp (bootTold b k) (BootPre b k c args t₀) (underGuard b.arch c target thread)
      (post (fun _ _ => True) (fun _ _ => True) True) t := by
  apply wp_bind_post (wp_quietly (quietly_changeDir c))
  rintro t₁ _ ⟨hran, -⟩
  have hready₁ : Ready b k c args t₀ target thread t₁.1.space t₁.2 := by
    rw [hran.same]
    exact hready.mono hran.later.trace
  apply wp_bind_post (wp_loadTarget hboot hready₁)
  rintro t₂ loaded ⟨htrace, hloaded⟩
  exact wp_start (hready₁.mono htrace) hloaded

end Run

/-! ### A machine that boots -/

section Machine

variable {m : Machine} {b : Build} {k : BootWorld} {t t' : BootState}

end Machine

end ElfLoader.Boot
