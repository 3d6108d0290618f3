import ElfLoader.ExecCycles
import ElfLoader.Process

/-!
# What a program started by `execve` finds

`elfrs_binfmt_load` answers that it has handled a program when the program, its interpreter
and its stack are all in place.
-/

namespace ElfLoader.Binfmt

open ElfLoader Outcome Prog Elf Layout Loader Program Auxv AddressSpace

/-- The arguments a program is started with: its name, if there are none. -/
def startArgv (args : Args) : List Bytes :=
  if (vecFromC args.argv args.argc).isEmpty then
    [if args.progname.isEmpty then Util.basename args.pathname else args.progname]
  else vecFromC args.argv args.argc

/-- What the auxiliary vector is told of the system. -/
def startEnv (b : Build) (sys : System) (args : Args) : Environment where
  pageSize := .ofNat b.pageSize
  platform := sys.platform
  execfn := args.pathname
  random := sys.random
  uid := sys.uid.toUInt64
  gid := sys.gid.toUInt64
  hwcap := sys.hwcap
  sysinfoEhdr := if sys.vdsoAddr ≠ 0 then some sys.vdsoAddr else none

/-- The stack that `libukbinfmt` hands over. -/
abbrev stackOf (args : Args) : StackRange := appRange args.ctxSp args.stackSize

section Load

variable {b : Build} {w : World} {s : Space} {sys : System} {args : Args}

/-- What the guest finds when it enters the program that was handed over. -/
structure Started (b : Build) (w : World) (sys : System) (args : Args) (s : Space) (h : Handover)
    (s' : Space) : Prop where
  image : ProcessImage b w args.pathname (stackOf args) (startArgv args)
    (vecFromC args.envp args.envc) (startEnv b sys args) h.user h.sp s s'
  entry : h.entry = h.user.entry

end Load

/-! ### The small program -/

/-- A stack of eight pages on the heap. -/
def smallStack : Space := { emptySpace with blocks := [(0x108000, 0x8000)] }

end ElfLoader.Binfmt
