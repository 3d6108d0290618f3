import ElfLoader.Host

/-!
# The initial stack (`auxv.rs`)

`build_stack` pushes the strings downwards, the last one first, sizes the block of
pointers and auxiliary entries in advance and writes it upwards from the final
stack pointer.  The `sp` of the source's `Pusher` is passed along.
-/

namespace ElfLoader.Auxv

open ElfLoader Outcome

def AT_NULL : Nat := 0
def AT_PHDR : Nat := 3
def AT_PHENT : Nat := 4
def AT_PHNUM : Nat := 5
def AT_PAGESZ : Nat := 6
def AT_BASE : Nat := 7
def AT_FLAGS : Nat := 8
def AT_ENTRY : Nat := 9
def AT_UID : Nat := 11
def AT_EUID : Nat := 12
def AT_GID : Nat := 13
def AT_EGID : Nat := 14
def AT_PLATFORM : Nat := 15
def AT_HWCAP : Nat := 16
def AT_CLKTCK : Nat := 17
def AT_SECURE : Nat := 23
def AT_RANDOM : Nat := 25
def AT_HWCAP2 : Nat := 26
def AT_EXECFN : Nat := 31
def AT_SYSINFO_EHDR : Nat := 33
def AT_MINSIGSTKSZ : Nat := 51

/-- Floor for the combined size of arguments and environment. -/
def ARG_MAX : Nat := 4096 * 32

def SP_ALIGN : Nat := 16

/-- Everything that goes into the auxiliary vector. -/
structure AuxvSpec where
  phdr : Option UInt64 := none
  phent : UInt64 := 0
  phnum : UInt64 := 0
  /-- Load bias of the program interpreter, 0 without one. -/
  base : UInt64 := 0
  entry : UInt64 := 0
  pagesz : UInt64 := 4096
  uid : UInt64 := 0
  gid : UInt64 := 0
  hwcap : UInt64 := 0
  hwcap2 : UInt64 := 0
  clktck : UInt64 := 100
  secure : Bool := false
  random : Buf 16 := ⟨List.replicate 16 0, rfl⟩
  platform : Bytes := []
  execfn : Bytes := []
  sysinfoEhdr : Option UInt64 := none
  minsigstksz : Option UInt64 := none
deriving DecidableEq, Repr

/-- `bottom` and `top` of a `StackWriter`. -/
structure StackRange where
  bottom : Nat
  top : Nat
  bottom_le : bottom ≤ top
  top_lt : top < 2 ^ 64

structure StackLayout where
  /-- Value the entry point must be entered with. -/
  sp : Nat
  argcAt : Nat
  /-- Lowest address written. -/
  lowWater : Nat
deriving DecidableEq, Repr

/-- The bytes and the pointer of each string, added up. -/
def argEnvLen (len : Nat) (s : Bytes) : Outcome Error Nat := do
  let n ← U64.add s.length 1
  okOr Error.E2BIG ((U64.checkedAdd len n).bind (U64.checkedAdd · 8))

/-- Reject an argument and environment block that would eat the stack. -/
def checkArgEnvSize (argv envp : List Bytes) (stackSize : Nat) : Outcome Error Nat := do
  let len ← (argv ++ envp).foldlM argEnvLen 0
  let budget := max ARG_MAX (stackSize / 4)
  guardErr (¬ len > budget) Error.E2BIG
  ok len

def alignDown (v a : Nat) : Nat := v &&& U64.not (a - 1)

section Pusher

variable (r : StackRange)

/-- `Pusher::push_bytes`: the address of the data, which is the new `sp`. -/
def pushBytes (sp : Nat) (data : Bytes) : Prog Host Error Nat := do
  let sp ← okOr Error.E2BIG (U64.checkedSub sp data.length)
  guardErr (¬ sp < r.bottom) Error.E2BIG
  stackWrite sp data
  pure sp

def pushCstr (sp : Nat) (s : Bytes) : Prog Host Error Nat := do
  let sp ← pushBytes r sp [0]
  if s.isEmpty then pure sp else pushBytes r sp s

/-- `for s in .. { at.push(p.push_cstr(s)?) }`, with `sp` at the end. -/
def pushEach (sp : Nat) (ats : List Nat) : List Bytes → Prog Host Error (Nat × List Nat)
  | [] => pure (sp, ats)
  | s :: rest => do
      let a ← pushCstr r sp s
      pushEach a (ats ++ [a]) rest

/-- The strings of `argv` or `envp`, the last one first; their addresses come back
    in the order of the strings. -/
def pushStrings (sp : Nat) (ss : List Bytes) : Prog Host Error (Nat × List Nat) := do
  tryReserve ss.length Error.ENOMEM
  let (sp, ats) ← pushEach r sp [] ss.reverse
  pure (sp, ats.reverse)

def pushPlatform (sp : Nat) (platform : Bytes) : Prog Host Error (Nat × Option Nat) :=
  if platform.isEmpty then pure (sp, none)
  else do
    let a ← pushCstr r sp platform
    pure (a, some a)

end Pusher

def putSome (k : Nat) : Option Nat → List (Nat × Nat)
  | some v => [(k, v)]
  | none => []

/-- The pairs of the auxiliary vector, in the order they are put. -/
def auxPairs (aux : AuxvSpec) (randomAt : Nat) (platformAt execfnAt : Option Nat) :
    List (Nat × Nat) :=
  (match aux.phdr with
    | some a => [(AT_PHDR, a.toNat), (AT_PHENT, aux.phent.toNat), (AT_PHNUM, aux.phnum.toNat)]
    | none => []) ++
  [(AT_PAGESZ, aux.pagesz.toNat),
    (AT_BASE, aux.base.toNat),
    (AT_FLAGS, 0),
    (AT_ENTRY, aux.entry.toNat),
    (AT_UID, aux.uid.toNat),
    (AT_EUID, aux.uid.toNat),
    (AT_GID, aux.gid.toNat),
    (AT_EGID, aux.gid.toNat),
    (AT_SECURE, aux.secure.toNat),
    (AT_CLKTCK, aux.clktck.toNat),
    (AT_HWCAP, aux.hwcap.toNat),
    (AT_HWCAP2, aux.hwcap2.toNat),
    (AT_RANDOM, randomAt)] ++
  putSome AT_PLATFORM platformAt ++
  putSome AT_EXECFN execfnAt ++
  putSome AT_SYSINFO_EHDR (aux.sysinfoEhdr.map (·.toNat)) ++
  putSome AT_MINSIGSTKSZ (aux.minsigstksz.map (·.toNat))

/-- `(1 + argv.len() + 1 + envp.len() + 1) * 8 + av.len() * 16`. -/
def blockSize (argc envc auxc : Nat) : Outcome Error Nat := do
  let n ← U64.add 1 argc
  let n ← U64.add n 1
  let n ← U64.add n envc
  let n ← U64.add n 1
  let pointers ← U64.mul n 8
  let entries ← U64.mul auxc 16
  U64.add pointers entries

/-- Write words from `a` on; the address behind the last one. -/
def writeWords (a : Nat) : List Nat → Prog Host Error Nat
  | [] => pure a
  | v :: vs => do
      stackWrite a (toLe 8 v)
      let a ← (U64.add a 8 : Outcome Error Nat)
      writeWords a vs

/-- Lay out the initial stack; `argv` is complete, `argv[0]` included. -/
def buildStack (r : StackRange) (argv envp : List Bytes) (aux : AuxvSpec) :
    Prog Host Error StackLayout := do
  let stackSize ← (U64.sub r.top r.bottom : Outcome Error Nat)
  let _ ← checkArgEnvSize argv envp stackSize
  let sp := alignDown r.top SP_ALIGN
  -- strings and other blobs, highest first
  let (sp, platformAt) ← pushPlatform r sp aux.platform
  let execfnAt ← pushCstr r sp aux.execfn
  let randomAt ← pushBytes r (alignDown execfnAt SP_ALIGN) aux.random.val
  let (sp, envpAt) ← pushStrings r randomAt envp
  let (sp, argvAt) ← pushStrings r sp argv
  let av := auxPairs aux randomAt platformAt (some execfnAt) ++ [(AT_NULL, 0)]
  -- the pointer block, written low to high from the final `sp`
  let block ← blockSize argv.length envp.length av.length
  let low ← okOr Error.E2BIG (U64.checkedSub sp block)
  let sp := alignDown low SP_ALIGN
  guardErr (¬ sp < r.bottom) Error.E2BIG
  let a ← writeWords sp [argv.length]
  let a ← writeWords a argvAt
  let a ← writeWords a [0]
  let a ← writeWords a envpAt
  let a ← writeWords a [0]
  let _ ← writeWords a (av.flatMap fun e => [e.1, e.2])
  pure { sp, argcAt := sp, lowWater := sp }

end ElfLoader.Auxv
