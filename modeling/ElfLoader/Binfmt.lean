import ElfLoader.Program
import ElfLoader.Util

/-!
# The `libukbinfmt` loader (`binfmt.rs`)

An `execve` of the guest lands here.  What `load` takes from `struct
uk_binfmt_loader_args`, and what it asks the system for, is passed in `Args` and
`System`; what it leaves in them is its value.
-/

namespace ElfLoader.Binfmt

open ElfLoader Outcome Elf Loader Program Auxv

/-- Return values for the C wrapper, which maps them onto `UK_BINFMT_*`. -/
def HANDLED : Int := 0
def NOT_HANDLED : Int := 1

structure Args where
  pathname : Bytes
  progname : Bytes
  argc : Int
  /-- The strings an array points to; `none` is a null pointer. -/
  argv : Option (List Bytes)
  envc : Int
  envp : Option (List Bytes)
  /-- Stack pointer of the context to start. -/
  ctxSp : UInt64
  stackSize : UInt64

structure System where
  uid : UInt32
  gid : UInt32
  /-- Address of the vDSO image, 0 without one. -/
  vdsoAddr : UInt64
  platform : Bytes
  random : Buf 16
  hwcap : UInt64 × UInt64

def vecFromC (p : Option (List Bytes)) (n : Int) : List Bytes :=
  match p with
  | none => []
  | some xs => if n ≤ 0 then [] else xs.take n.toNat

/-- What a successful `load` leaves: the context to start, and the program, which
    `libukbinfmt` now owns. -/
structure Handover where
  sp : Nat
  entry : Nat
  user : LoadedProgram
deriving DecidableEq, Repr

/-- `AppStack::new(sp_top - stack_size, sp_top)`. -/
def appRange (spTop stackSize : UInt64) : StackRange where
  bottom := spTop.toNat - stackSize.toNat
  top := spTop.toNat
  bottom_le := Nat.sub_le _ _
  top_lt := spTop.toNat_lt

/-- The stack of a program that is loaded; on failure the program goes. -/
def startOn (r : StackRange) (argv envp : List Bytes) (aux : AuxvSpec) (loaded : LoadedProgram) :
    Prog Host Error Handover := do
  match ← (buildStack r argv envp aux).attempt with
  | .ok layout => pure ⟨layout.sp, loaded.entry, loaded⟩
  | .error e => do
      loaded.unload
      .done (.err e)

def load (b : Build) (sys : System) (args : Args) : Prog Host Error Handover := do
  let progname := if args.progname.isEmpty then Util.basename args.pathname else args.progname
  let argv := vecFromC args.argv args.argc
  let envp := vecFromC args.envp args.envc
  let loaded ← loadProgram b args.pathname
  if args.ctxSp < args.stackSize then do
    loaded.unload
    .done (.err Error.EINVAL)
  else do
    let argvRef := if argv.isEmpty then [progname] else argv
    let aux ← (loaded.auxv b.arch {
      pageSize := .ofNat b.pageSize
      platform := sys.platform
      execfn := args.pathname
      random := sys.random
      uid := sys.uid.toUInt64
      gid := sys.gid.toUInt64
      hwcap := sys.hwcap
      sysinfoEhdr := if sys.vdsoAddr ≠ 0 then some sys.vdsoAddr else none } :
      Outcome Error AuxvSpec)
    startOn (appRange args.ctxSp args.stackSize) argvRef envp aux loaded

variable {ε : Type}

/-- The entry point of the C wrapper; its value is the code and what it leaves. -/
def elfrsBinfmtLoad (b : Build) (sys : System) (args : Args) :
    Prog Host ε (Int × Option Handover) := do
  match ← (load b sys args).attempt with
  | .ok h => pure (HANDLED, some h)
  | .error e => if e = Error.ENOEXEC then pure (NOT_HANDLED, none) else pure (e.asNeg, none)

/-- Give back what `elfrs_binfmt_load` handed over; the user pointer is cleared. -/
def elfrsBinfmtUnload (user : Option LoadedProgram) :
    Prog Host ε (Int × Option LoadedProgram) :=
  match user with
  | none => pure (HANDLED, none)
  | some loaded => do
      loaded.unload
      pure (HANDLED, none)

end ElfLoader.Binfmt
