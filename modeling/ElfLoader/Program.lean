import ElfLoader.Auxv
import ElfLoader.Loader

/-!
# A program and its interpreter (`program.rs`)
-/

namespace ElfLoader.Program

open ElfLoader Outcome Elf Layout Loader

structure LoadedProgram where
  image : Image
  main : Loaded
  interp : Option (Image × Loaded)
  interpPath : Option Bytes
deriving DecidableEq, Repr

def LoadedProgram.entry (p : LoadedProgram) : Nat :=
  match p.interp with
  | some (_, l) => l.plan.entry
  | none => p.main.plan.entry

/-- Load bias of the interpreter, for `AT_BASE`. -/
def LoadedProgram.interpBase (p : LoadedProgram) : Nat :=
  match p.interp with
  | some (_, l) => l.plan.bias
  | none => 0

structure Environment where
  pageSize : UInt64
  platform : Bytes
  execfn : Bytes
  random : Buf 16
  uid : UInt64
  gid : UInt64
  /-- `AT_HWCAP` and `AT_HWCAP2`. -/
  hwcap : UInt64 × UInt64
  sysinfoEhdr : Option UInt64

def minSigStackSize : Arch → Option UInt64
  | .aarch64 => some 4096
  | .x86_64 => none

variable {ε : Type}

def LoadedProgram.auxv (p : LoadedProgram) (arch : Arch) (env : Environment) :
    Outcome ε Auxv.AuxvSpec := do
  let phdr ← p.main.plan.phdrAddr p.image
  ok {
    phdr := phdr.map UInt64.ofNat
    phent := .ofNat p.image.ehdr.ePhentsize
    phnum := .ofNat p.image.ehdr.ePhnum
    base := .ofNat p.interpBase
    entry := .ofNat p.main.plan.entry
    pagesz := env.pageSize
    uid := env.uid
    gid := env.gid
    hwcap := env.hwcap.1
    hwcap2 := env.hwcap.2
    clktck := 100
    secure := false
    random := env.random
    platform := env.platform
    execfn := env.execfn
    sysinfoEhdr := env.sysinfoEhdr
    minsigstksz := minSigStackSize arch }

/-- The auxiliary vector has no error of its own. -/
theorem onlyErr_auxv {S : ε → Prop} {p : LoadedProgram} {arch : Arch} {env : Environment} :
    OnlyErr S (p.auxv arch env : Outcome ε Auxv.AuxvSpec) := by
  refine OnlyErr.bind ?_ fun _ _ => onlyErr_ok
  have hsearch (loads : List Nat) :
      OnlyErr S (p.main.plan.phdrSearch p.image loads : Outcome ε (Option Nat)) := by
    induction loads with
    | nil => exact onlyErr_ok
    | cons i rest ih =>
      refine onlyErr_index.bind fun l _ => ?_
      dsimp only
      split
      · split
        · exact onlyErr_ok
        · split
          · exact U64.onlyErr_sub.bind fun _ _ => onlyErr_ok
          · exact ih
      · exact ih
  unfold LoadPlan.phdrAddr
  split
  · split
    · exact onlyErr_ok
    · split
      · exact onlyErr_ok
      · exact hsearch _
  · exact hsearch _

def LoadedProgram.unload (p : LoadedProgram) : Prog Host ε Unit := do
  match p.interp with
  | some (_, l) => l.unload
  | none => pure ()
  p.main.unload

def loadInterp (b : Build) (path : Bytes) : Prog Host Error (Image × Loaded) := do
  let opened ← openPath path
  let image ← (Image.parse b.arch opened.src b.pageSize).mapErr Reject.toError
  guardErr (¬ image.ehdr.eType ≠ ET_DYN) Error.ENOEXEC
  guardErr (¬ image.needsInterp = true) Error.ENOEXEC
  let loaded ← load b image opened.src opened.fd
  pure (image, loaded)

/-- The interpreter stage of `load_program`: on failure the program goes too. -/
def loadInterpFor (b : Build) (main : Loaded) :
    Option Bytes → Prog Host Error (Option (Image × Loaded))
  | none => pure none
  | some ip => do
      match ← (loadInterp b ip).attempt with
      | .ok v => pure (some v)
      | .error e => do
          main.unload
          .done (.err e)

def interpPathOf (image : Image) (src : Source) : Prog Host Error (Option Bytes) :=
  if image.needsInterp then do
    let ip ← image.interpPath src
    pure (some ip)
  else pure none

/-- Load `path` and, if it asks for one, its program interpreter. -/
def loadProgram (b : Build) (path : Bytes) : Prog Host Error LoadedProgram := do
  let opened ← openPath path
  let image ← (Image.parse b.arch opened.src b.pageSize).mapErr Reject.toError
  checkStackRequest image
  let interpPath ← interpPathOf image opened.src
  let main ← load b image opened.src opened.fd
  let _ ← (U64.sub main.plan.fin main.plan.base : Outcome Error Nat)
  let _ ← (entryIsExecutable image main.plan : Outcome Error Bool)
  let interp ← loadInterpFor b main interpPath
  pure { image, main, interp, interpPath }

end ElfLoader.Program
