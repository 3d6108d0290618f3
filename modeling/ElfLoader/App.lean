import ElfLoader.Program
import ElfLoader.Util

/-!
# The `main()` the unikernel boots into (`app.rs`)

`run` works out what to run, loads it, hands it a stack and schedules it.  The
functions of `glue/shim.c` it uses are calls of `Glue`, and so are `load_program`,
`Loaded::unload` and `build_stack`, which have models of their own.  Log lines are
left out.  A slice is shorter than the address space, so that adding one to its
length does not overflow.
-/

namespace ElfLoader.App

open ElfLoader Outcome Loader Program Auxv

/-- The number in an `Error`.  Here it may be anything C returned. -/
abbrev Errno := Int32

def errno (e : Error) : Errno := .ofNat e.code

/-- The fields of `struct elfrs_cfg` that `app.rs` reads. -/
structure Cfg where
  stackLen : UInt32
  pageSize : UInt32
  uid : UInt32
  gid : UInt32
  haveEnviron : Bool
  haveRandom : Bool
  havePthread : Bool
  vfsexec : Bool
  customappname : Bool
  envpath : Bool
  envpwd : Bool
  /-- Empty for a null pointer. -/
  vfsexecPath : Bytes
  vdsoAddr : UInt64

/-- What serves the images. -/
inductive Opener where
  | vfs
  | initrd (base len : UInt64)
deriving DecidableEq, Repr

abbrev Thread := Nat

inductive GlueOp where
  | tryReserve (n : Nat)
  | getenv (name : Bytes)
  | pathIsExec (path : Bytes)
  | threadCreate (name : Bytes) (stackLen : Nat)
  | threadRelease (thread : Thread)
  | chdir (path : Bytes)
  | initrd
  | loadProgram (opener : Opener) (path : Bytes)
  | unload (loaded : Loaded)
  | threadStackBase (thread : Thread)
  | ctxGetSp (thread : Thread)
  | environ
  | platform
  | randomFill
  | hwcap
  | hwcap2
  | buildStack (r : StackRange) (argv envp : List Bytes) (aux : AuxvSpec)
  | ctxInit (thread : Thread) (sp ip : Nat)
  | threadSetRunnable (thread : Thread)
  | threadMakePthread (thread : Thread)
  | threadSchedule (thread : Thread)
  | waitForever

@[reducible] def GlueOp.Res : GlueOp → Type
  | .tryReserve _ => Bool
  | .getenv _ => Option Bytes
  | .pathIsExec _ => Int32
  | .threadCreate .. => Option Thread
  | .threadRelease _ => Unit
  | .chdir _ => Int32
  | .initrd => Int32 × UInt64 × UInt64
  | .loadProgram .. => Except Error LoadedProgram
  | .unload _ => Unit
  | .threadStackBase _ => UInt64
  | .ctxGetSp _ => UInt64
  | .environ => Option (List Bytes)
  | .platform => Bytes
  | .randomFill => Int32 × Buf 16
  | .hwcap => UInt64
  | .hwcap2 => UInt64
  | .buildStack .. => Except Error StackLayout
  | .ctxInit .. => Unit
  | .threadSetRunnable _ => Unit
  | .threadMakePthread _ => Int32
  | .threadSchedule _ => Int32
  | .waitForever => Empty

abbrev Glue : Iface := ⟨GlueOp, GlueOp.Res⟩

variable {ε α : Type}

/-- The answer of a call, as it comes. -/
def get (op : GlueOp) : Prog Glue ε op.Res := .ask (I := Glue) op Outcome.ok

def tryReserve (n : Nat) (e : Error) : Prog Glue Errno Unit :=
  .ask (I := Glue) (.tryReserve n) fun r => if r then .ok () else .err (errno e)

def fromC (rc : Int32) : Outcome Errno Unit := if rc < 0 then err (-rc) else ok ()

def errNeg (rc : Int32) : Outcome Errno α := if rc = Int32.minValue then panic else err (-rc)

/-! ### `sys.rs` -/

def cString (s : Bytes) : Prog Glue Errno Unit := do
  guardErr (¬ s.contains 0 = true) (errno Error.EINVAL)
  tryReserve (s.length + 1) Error.ENOMEM

def getenv (c : Cfg) (name : Bytes) : Prog Glue ε (Option Bytes) :=
  if c.haveEnviron then do
    match ← (cString name).attempt with
    | .ok _ => get (.getenv name)
    | .error _ => pure none
  else pure none

def chdir (path : Bytes) : Prog Glue Errno Unit := do
  cString path
  let rc ← get (.chdir path)
  fromC rc

def environ (c : Cfg) : Prog Glue ε (List Bytes) :=
  if c.haveEnviron then do
    let strings ← get .environ
    pure (strings.getD [])
  else pure []

/-- What `AT_RANDOM` points to in a build without entropy. -/
def fixedSeed : Buf 16 :=
  ⟨[0xb0, 0xb0, 0, 0, 0x0d, 0xf0, 0, 0, 0xb0, 0xb0, 0, 0, 0x0d, 0xf0, 0, 0], rfl⟩

def randomBytes (c : Cfg) : Prog Glue ε (Buf 16) :=
  if c.haveRandom then do
    let (rc, bytes) ← get .randomFill
    pure (if rc = 0 then bytes else fixedSeed)
  else pure fixedSeed

/-- The loop of `locate_in_path`, over the directories that are left.  A candidate
    there is no memory for is passed over. -/
def locateIn (name : Bytes) : List Bytes → Prog Glue ε (Option Bytes)
  | [] => pure none
  | dir :: rest => do
      if ← get (.tryReserve (dir.length + 1 + name.length)) then
        let cand := Util.candidate name dir
        match ← (cString cand).attempt with
        | .error _ => locateIn name rest
        | .ok _ =>
            let rc ← get (.pathIsExec cand)
            if rc = 0 then pure (some cand) else locateIn name rest
      else locateIn name rest

def COLON : UInt8 := 0x3a

def locateInPath (name pathEnv : Bytes) : Prog Glue ε (Option Bytes) :=
  if Util.isBareName name then locateIn name (pathEnv.splitOn COLON) else pure none

/-! ### What to run -/

/-- `<initrd>`. -/
def INITRD : Bytes := [0x3c, 0x69, 0x6e, 0x69, 0x74, 0x72, 0x64, 0x3e]

def PATH : Bytes := [0x50, 0x41, 0x54, 0x48]
def PWD : Bytes := [0x50, 0x57, 0x44]

structure Target where
  path : Bytes
  progname : Bytes
  /-- Everything after `argv[0]`. -/
  rest : List Bytes
deriving DecidableEq, Repr

def splitCommandLine (c : Cfg) (args : List Bytes) : Outcome Errno Target :=
  if c.customappname then
    match args with
    | _ :: named :: rest =>
        if c.vfsexec then ok ⟨named, Util.basename named, rest⟩ else ok ⟨INITRD, named, rest⟩
    | _ => err (errno Error.EINVAL)
  else
    match args with
    | [] => err (errno Error.EINVAL)
    | kernel :: rest =>
        if c.vfsexec then
          if c.vfsexecPath.isEmpty then err (errno Error.EINVAL)
          else ok ⟨c.vfsexecPath, Util.basename c.vfsexecPath, rest⟩
        else ok ⟨INITRD, kernel, rest⟩

def resolve (c : Cfg) (target : Target) : Prog Glue ε Target :=
  if c.envpath && Util.isBareName target.path then do
    match ← getenv c PATH with
    | none => pure target
    | some pathEnv =>
        match ← locateInPath target.path pathEnv with
        | some full => pure { target with path := full }
        | none => pure target
  else pure target

/-! ### Start-up -/

def changeDir (c : Cfg) : Prog Glue Errno Unit :=
  if c.envpwd then do
    match ← getenv c PWD with
    | some pwd => chdir pwd
    | none => pure ()
  else pure ()

def loadProgram (opener : Opener) (path : Bytes) : Prog Glue Errno LoadedProgram :=
  .ask (I := Glue) (.loadProgram opener path) fun r => (ofExcept r).mapErr errno

def loadTarget (c : Cfg) (target : Target) : Prog Glue Errno LoadedProgram :=
  if c.vfsexec then loadProgram .vfs target.path
  else do
    let (rc, base, len) ← get .initrd
    guardErr (¬ (rc < 0 ∨ base = 0 ∨ len = 0)) (errno Error.ENOENT)
    loadProgram (.initrd base len) INITRD

def unload (loaded : LoadedProgram) : Prog Glue ε Unit := do
  match loaded.interp with
  | some (_, l) => get (.unload l)
  | none => pure ()
  get (.unload loaded.main)

/-- The parts of the auxiliary vector that come from the system. -/
def environment (c : Cfg) (target : Target) : Prog Glue ε Environment := do
  let platform ← get .platform
  let random ← randomBytes c
  let hwcap ← get .hwcap
  let hwcap2 ← get .hwcap2
  pure {
    pageSize := c.pageSize.toUInt64
    platform
    execfn := target.path
    random
    uid := c.uid.toUInt64
    gid := c.gid.toUInt64
    hwcap := (hwcap, hwcap2)
    sysinfoEhdr := if c.vdsoAddr ≠ 0 then some c.vdsoAddr else none }

/-- `AppStack::new(stack_lo, stack_hi)`. -/
def appStackRange (lo hi : UInt64) (h : lo < hi) : StackRange where
  bottom := lo.toNat
  top := hi.toNat
  bottom_le := le_of_lt (UInt64.lt_iff_toNat_lt.mp h)
  top_lt := hi.toNat_lt

/-- A failed `rc` of C: the program goes, and the error is `Error(-rc)`. -/
def orUnload (loaded : LoadedProgram) (rc : Int32) : Prog Glue Errno Unit :=
  if rc ≠ 0 then do
    unload loaded
    errNeg rc
  else pure ()

def makePthread (c : Cfg) (thread : Thread) (loaded : LoadedProgram) : Prog Glue Errno Unit :=
  if c.havePthread then do
    let rc ← get (.threadMakePthread thread)
    orUnload loaded rc
  else pure ()

/-- From the layout of the stack on: start the context and schedule the thread. -/
def schedule (c : Cfg) (thread : Thread) (loaded : LoadedProgram) (layout : StackLayout) :
    Prog Glue Errno Unit := do
  get (.ctxInit thread layout.sp loaded.entry)
  get (.threadSetRunnable thread)
  makePthread c thread loaded
  let rc ← get (.threadSchedule thread)
  orUnload loaded rc

def start (arch : Elf.Arch) (c : Cfg) (target : Target) (thread : Thread) (loaded : LoadedProgram) :
    Prog Glue Errno Unit := do
  let lo ← get (.threadStackBase thread)
  let hi ← get (.ctxGetSp thread)
  if h : lo < hi then
    tryReserve (target.rest.length + 1) Error.ENOMEM
    let envp ← environ c
    let env ← environment c target
    let aux ← (loaded.auxv arch env : Outcome Errno AuxvSpec)
    match ← get (.buildStack (appStackRange lo hi h) (target.progname :: target.rest) envp aux) with
    | .ok layout => schedule c thread loaded layout
    | .error e =>
        unload loaded
        .done (.err (errno e))
  else
    unload loaded
    .done (.err (errno Error.EINVAL))

/-- What `run` does while its `ThreadGuard` is there. -/
def underGuard (arch : Elf.Arch) (c : Cfg) (target : Target) (thread : Thread) :
    Prog Glue Errno Unit := do
  changeDir c
  let loaded ← loadTarget c target
  start arch c target thread loaded

/-- Load and start the application.  The guard releases the thread on the way out of
    every error; after the hand-over it is forgotten, and `run` does not return. -/
def run (arch : Elf.Arch) (c : Cfg) (args : List Bytes) : Prog Glue Errno Unit := do
  let target ← splitCommandLine c args
  let target ← resolve c target
  cString target.progname
  match ← get (.threadCreate target.progname c.stackLen.toNat) with
  | none => .done (.err (errno Error.ENOMEM))
  | some thread => do
      match ← (underGuard arch c target thread).attempt with
      | .ok _ => do
          let never ← get .waitForever
          never.elim
      | .error e => do
          get (.threadRelease thread)
          .done (.err e)

end ElfLoader.App
