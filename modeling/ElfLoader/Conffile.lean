import ElfLoader.Memory
import ElfLoader.Prog

/-!
# Configuration files (`autogen/conffile.c`)

The helpers the `/etc` generators write their files with.  A pointer is an object of
the program and an offset into it: the index of a byte in its object is what the C
code has to keep in bounds, and nothing here depends on where an object lies.  A retry
loop has a number of turns; a program that has used them up is still in the loop.
-/

namespace ElfLoader.Conffile

open ElfLoader Outcome

/-- What a pointer points into. -/
inductive Object where
  /-- A string constant, or a string a device owns. -/
  | text (s : Bytes)
  /-- The array `buf` of `cf_vnprintf`. -/
  | buf
  /-- The array `ip4buf` of `uk_netdev_ip4addr_get`. -/
  | ip4buf
deriving DecidableEq, Repr

structure Ptr where
  object : Object
  off : Nat
deriving DecidableEq, Repr

def Ptr.add (p : Ptr) (n : Nat) : Ptr := { p with off := p.off + n }

/-- The first `char` of an object. -/
def start (object : Object) : Ptr := ⟨object, 0⟩

inductive PosixOp where
  | stat (path : Bytes)
  | mkdir (path : Bytes) (mode : UInt32)
  | openFile (path : Bytes) (flags mode : UInt32)
  | chmod (path : Bytes) (mode : UInt32)
  | write (fd : Int32) (buf : Ptr) (len : UInt64)
  | close (fd : Int32)
  /-- The text is what the format and its arguments come to. -/
  | vsnprintf (buf : Ptr) (size : UInt64) (text : Bytes)
  | store (p : Ptr) (c : UInt8)
  /-- The string behind a `%s`. -/
  | cstr (p : Ptr)
deriving DecidableEq, Repr

@[reducible] def PosixOp.Res : PosixOp → Type
  | .stat _ => Int32 × UInt32
  | .mkdir .. => Int32
  | .openFile .. => Int32
  | .chmod .. => Int32
  | .write .. => Int64
  | .close _ => Int32
  | .vsnprintf .. => Int32
  | .store .. => Unit
  | .cstr _ => Bytes

abbrev Posix : Iface := ⟨PosixOp, PosixOp.Res⟩

/-- Not an error of the code: the program is still in a loop. -/
inductive Busy where
  | busy
deriving DecidableEq, Repr

abbrev CProg (α : Type) := Prog Posix Busy α

/-- The answer of a call, as it comes. -/
def get (op : PosixOp) : CProg op.Res := .ask (I := Posix) op Outcome.ok

def ENOENT : Int32 := 2
def EINTR : Int32 := 4
def EAGAIN : Int32 := 11
def EEXIST : Int32 := 17
def ENOTDIR : Int32 := 20

def S_IFDIR : UInt32 := 0o040000
def S_IFREG : UInt32 := 0o100000

def O_WRONLY : UInt32 := 0o1
def O_CREAT : UInt32 := 0o100
def O_TRUNC : UInt32 := 0o1000

/-- `CONFIG_APPELFLOADER_AUTOGEN_*EXIST`: what becomes of a file that is there. -/
inductive OnExist where
  | error
  | skip
  | replace
deriving DecidableEq, Repr

def cfMkdir (dpath : Bytes) (dmode : UInt32) : CProg Int32 := do
  let (rc, mode) ← get (.stat dpath)
  if rc = 0 ∧ mode &&& S_IFDIR = 0 then pure (-ENOTDIR)
  else if rc = 0 then pure 0
  else if rc ≠ -ENOENT then pure rc
  else do
    let rc ← get (.mkdir dpath dmode)
    if rc < 0 then pure rc else pure 1

/-- From the check for an existing file on. -/
def cfOpen (fpath : Bytes) (fmode : UInt32) : CProg Int32 := do
  let fd ← get (.openFile fpath (O_CREAT ||| O_WRONLY ||| O_TRUNC) 0)
  if fd < 0 then pure fd
  else do
    let rc ← get (.chmod fpath fmode)
    if rc < 0 then pure rc else pure fd

def cfCreate (exist : OnExist) (fpath : Bytes) (fmode : UInt32) : CProg Int32 := do
  let (rc, mode) ← get (.stat fpath)
  if rc = 0 then
    match exist with
    | .error | .skip => pure (-EEXIST)
    | .replace => if mode &&& S_IFREG = 0 then pure (-ENOENT) else cfOpen fpath fmode
  else cfOpen fpath fmode

/-- The loop of `cf_write`, which `continue`s to its own condition. -/
def cfWrite (fd : Int32) : Nat → Ptr → UInt64 → CProg Int32
  | 0, _, _ => .done (.err .busy)
  | turns + 1, buf, buflen => do
      let rc ← get (.write fd buf buflen)
      if rc < 0 then
        if rc ≠ -EAGAIN.toInt64 ∧ rc ≠ -EINTR.toInt64 then pure rc.toInt32
        else if buflen > 0 then cfWrite fd turns buf buflen
        else pure 0
      else
        let buflen := buflen - rc.toUInt64
        if buflen > 0 then cfWrite fd turns (buf.add rc.toNatClampNeg) buflen
        else pure 0

def cfClose (fd : Int32) : CProg Unit := do
  let _ ← get (.close fd)
  pure ()

/-- `cf_vnprintf` of the text that `fmt` and `ap` come to. -/
def cfVnprintf (turns : Nat) (fd : Int32) (maxlen : UInt64) (text : Bytes) : CProg Int32 := do
  let strlen ← get (.vsnprintf (start .buf) maxlen text)
  if strlen ≤ 0 then pure strlen
  else cfWrite fd turns (start .buf) strlen.toInt64.toUInt64

def cfNprintf (turns : Nat) (fd : Int32) (maxlen : UInt64) (text : Bytes) : CProg Int32 :=
  cfVnprintf turns fd maxlen text

def cfStrcpy (turns : Nat) (fd : Int32) (strbuf : Bytes) : CProg Int32 :=
  if strbuf.length = 0 then pure 0
  else cfWrite fd turns (start (.text strbuf)) (.ofNat strbuf.length)

/-! ### What the calls do -/

/-- The memory of the program, and what has been appended through each descriptor. -/
structure World where
  buf : Memory
  ip4buf : Memory
  /-- What lies behind a constant. -/
  beyond : Memory
  file : Int32 → Bytes

def blank : World := ⟨fun _ => 0, fun _ => 0, fun _ => 0, fun _ => []⟩

def World.mem (w : World) : Object → Memory
  | .text s => poke w.beyond 0 (s ++ [0])
  | .buf => w.buf
  | .ip4buf => w.ip4buf

def World.read (w : World) (p : Ptr) (n : Nat) : Bytes := peek (w.mem p.object) p.off n

/-- The world after `data` was stored from `p` on.  No call stores into a constant. -/
def World.stored (w : World) (p : Ptr) (data : Bytes) : World :=
  match p.object with
  | .text _ => w
  | .buf => { w with buf := poke w.buf p.off data }
  | .ip4buf => { w with ip4buf := poke w.ip4buf p.off data }

def World.appended (w : World) (fd : Int32) (data : Bytes) : World :=
  { w with file := Function.update w.file fd (w.file fd ++ data) }

def formatted (size : Nat) (text : Bytes) : Bytes :=
  if size = 0 then [] else text.take (size - 1) ++ [0]

/-- The calls, as their manuals have them.  A call may fail with any error number; a
    `write` that does not appends as many bytes as it answers, at most those it was
    given; `vsnprintf` answers the length of the whole text, and fails if it has to. -/
def posix : Handler Posix World
  | w, .write fd buf len, rc, w' =>
      -4096 < rc.toInt ∧ rc.toInt ≤ len.toNat ∧ w' = w.appended fd (w.read buf rc.toNatClampNeg)
  | w, .vsnprintf buf size text, rc, w' =>
      (rc < 0 ∧ ∃ data : Bytes, data.length ≤ size.toNat ∧ w' = w.stored buf data) ∨
        (rc.toInt = text.length ∧ w' = w.stored buf (formatted size.toNat text))
  | w, .store p c, _, w' => w' = w.stored p [c]
  | w, .cstr p, s, w' => (Shows (w.mem p.object) p.off (s ++ [0]) ∧ 0 ∉ s) ∧ w' = w
  | w, _, _, w' => w' = w

section Get

open Prog

variable {σ α : Type} {H : Handler Posix σ} {op : PosixOp} {f : op.Res → CProg α} {s s₁ s' : σ}

theorem wp_get_bind {pre : σ → PosixOp → Prop} {Q : σ → Outcome Busy α → Prop} :
    wp H pre (get op >>= f) Q s ↔ pre s op ∧ ∀ r s', H s op r s' → wp H pre (f r) Q s' := Iff.rfl

theorem reaches_get {r : op.Res} {q : CProg α} {tr : List (Event Posix)} (hop : H s op r s₁)
    (hrest : Reaches H s₁ (f r) tr s' q) : Reaches H s (get op >>= f) (⟨op, r⟩ :: tr) s' q :=
  .step hop hrest

theorem reaches_get_cases {q : CProg α} {tr : List (Event Posix)}
    (hrun : Reaches H s (get op >>= f) tr s' q) :
    (tr = [] ∧ q = get op >>= f) ∨
      ∃ r s₁ tr', tr = ⟨op, r⟩ :: tr' ∧ H s op r s₁ ∧ Reaches H s₁ (f r) tr' s' q := by
  cases hrun with
  | refl => exact Or.inl ⟨rfl, rfl⟩
  | step hop hrest => exact Or.inr ⟨_, _, _, rfl, hop, hrest⟩

theorem reaches_get_value {tr : List (Event Posix)} {v : Outcome Busy α}
    (hrun : Reaches H s (get op >>= f) tr s' (.done v)) :
    ∃ r s₁ tr', tr = ⟨op, r⟩ :: tr' ∧ H s op r s₁ ∧ Reaches H s₁ (f r) tr' s' (.done v) := by
  rcases reaches_get_cases hrun with ⟨-, hq⟩ | hcalled
  · exact nomatch hq
  · exact hcalled

end Get

end ElfLoader.Conffile
