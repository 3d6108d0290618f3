import ElfLoader.Bytes
import ElfLoader.Prog

/-!
# The environment of the loader

The loader reaches the unikernel through traits (`Vm`, `ImageSource`, `Opener`,
`StackWriter`) and through the heap.  Each trait method is one call of `Host`,
with the answer its Rust signature gives.  What the calls do is not said here:
`AddressSpace.lean` and `Reservation.lean` give handlers for them.
-/

namespace ElfLoader

/-- A POSIX error number, stored positive (`err.rs`). -/
structure Error where
  code : Nat
  pos : 0 < code := by decide
deriving DecidableEq, Repr

namespace Error

def ENOENT : Error := { code := 2 }
def E2BIG : Error := { code := 7 }
def ENOEXEC : Error := { code := 8 }
def EBADF : Error := { code := 9 }
def ENOMEM : Error := { code := 12 }
def EFAULT : Error := { code := 14 }
def EINVAL : Error := { code := 22 }
def ENOSYS : Error := { code := 38 }
def ENOTSUP : Error := { code := 95 }

/-- What the C side expects. -/
def asNeg (e : Error) : Int := -(e.code : Int)

theorem asNeg_neg (e : Error) : e.asNeg < 0 := by
  have := e.pos
  simp only [asNeg]
  omega

end Error

inductive Where where
  | anywhere
  | hint (addr : Nat)
  | exact (addr : Nat)
deriving DecidableEq, Repr

inductive MapSrc where
  | anon
  | file (fd : Int) (off : Nat)
deriving DecidableEq, Repr

/-- The methods of `Vm` that act on the address space. -/
inductive VmOp where
  | map (place : Where) (len prot : Nat) (src : MapSrc)
  | unmap (addr len : Nat)
  | protect (addr len prot : Nat)
  | write (addr : Nat) (data : Bytes)
  | zero (addr len : Nat)
  | icacheSync (addr len : Nat)
  | allocAligned (align len : Nat)
  | freeAligned (addr len : Nat)
deriving DecidableEq, Repr

@[reducible] def VmOp.Res : VmOp → Type
  | .map .. => Except Error Nat
  | .unmap .. => Except Error Unit
  | .protect .. => Except Error Unit
  | .write .. => Except Error Unit
  | .zero .. => Except Error Unit
  | .icacheSync .. => Unit
  | .allocAligned .. => Except Error Nat
  | .freeAligned .. => Unit

/-- An open image: the handle its reads go to, and `ImageSource::size`. -/
structure Source where
  handle : Nat
  size : Option Nat
deriving DecidableEq, Repr

/-- An image the loader can read, and the descriptor to map it from. -/
structure Opened where
  src : Source
  fd : Option Int
deriving DecidableEq, Repr

/-- A buffer of exactly `n` bytes. -/
abbrev Buf (n : Nat) := { bs : Bytes // bs.length = n }

inductive HostOp where
  | vm (op : VmOp)
  | openPath (path : Bytes)
  | readExactAt (src : Source) (off n : Nat)
  | tryReserve (n : Nat)
  | stackWrite (addr : Nat) (data : Bytes)
deriving DecidableEq, Repr

@[reducible] def HostOp.Res : HostOp → Type
  | .vm op => op.Res
  | .openPath _ => Except Error Opened
  | .readExactAt _ _ n => Except Error (Buf n)
  | .tryReserve _ => Bool
  | .stackWrite .. => Except Error Unit

abbrev Host : Iface := ⟨HostOp, HostOp.Res⟩

/-! ### The calls as programs -/

namespace Vm

variable {ε : Type}

def map (place : Where) (len prot : Nat) (src : MapSrc) : Prog Host Error Nat :=
  .ask (I := Host) (.vm (.map place len prot src)) Outcome.ofExcept

/-- `unmap`, with the error left for the caller to look at. -/
def unmap (addr len : Nat) : Prog Host ε (Except Error Unit) :=
  .ask (I := Host) (.vm (.unmap addr len)) Outcome.ok

/-- `protect`, with the error left for the caller to look at. -/
def protect (addr len prot : Nat) : Prog Host ε (Except Error Unit) :=
  .ask (I := Host) (.vm (.protect addr len prot)) Outcome.ok

def write (addr : Nat) (data : Bytes) : Prog Host Error Unit :=
  .ask (I := Host) (.vm (.write addr data)) Outcome.ofExcept

def zero (addr len : Nat) : Prog Host Error Unit :=
  .ask (I := Host) (.vm (.zero addr len)) Outcome.ofExcept

def icacheSync (addr len : Nat) : Prog Host ε Unit :=
  .ask (I := Host) (.vm (.icacheSync addr len)) Outcome.ok

def allocAligned (align len : Nat) : Prog Host Error Nat :=
  .ask (I := Host) (.vm (.allocAligned align len)) Outcome.ofExcept

def freeAligned (addr len : Nat) : Prog Host ε Unit :=
  .ask (I := Host) (.vm (.freeAligned addr len)) Outcome.ok

end Vm

/-- `ImageSource::read_exact_at` with a buffer of `n` bytes. -/
def readExactAt (src : Source) (off n : Nat) : Prog Host Error (Buf n) :=
  .ask (I := Host) (.readExactAt src off n) Outcome.ofExcept

def openPath (path : Bytes) : Prog Host Error Opened :=
  .ask (I := Host) (.openPath path) Outcome.ofExcept

/-- `Vec::try_reserve`, failing with the error the caller maps it to. -/
def tryReserve {ε : Type} (n : Nat) (e : ε) : Prog Host ε Unit :=
  .ask (I := Host) (.tryReserve n) fun r => if r then .ok () else .err e

def stackWrite (addr : Nat) (data : Bytes) : Prog Host Error Unit :=
  .ask (I := Host) (.stackWrite addr data) Outcome.ofExcept

/-- Calls that only read, or ask for heap memory. -/
def HostOp.Quiet : HostOp → Prop
  | .readExactAt .. => True
  | .tryReserve _ => True
  | _ => False

end ElfLoader
