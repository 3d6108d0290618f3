import ElfLoader.FileRead
import ElfLoader.Implement

/-!
# The unikernel below the loader (`glue/shim.c`, `sys.rs`)

The traits of the loader are implemented in `sys.rs` on top of the functions of
`glue/shim.c`, and these on top of the libraries of the unikernel, whose functions are the
calls of `Kernel`.  `errno` is part of the answer of a call that sets it.  `elfrs_pread`,
which asks again when it is interrupted, is one call (`FileOp.pread`).
-/

namespace ElfLoader.Shim

open ElfLoader Outcome Layout App FileRead
open ElfLoader.Prog hiding run

/-- The configuration the shim is compiled with. -/
structure Config where
  /-- `CONFIG_LIBPOSIX_MMAP` -/
  libposixMmap : Bool
  /-- `CONFIG_LIBUKVMEM` -/
  libukvmem : Bool
  /-- `CONFIG_HAVE_VFS` -/
  haveVfs : Bool
  /-- `CONFIG_APPELFLOADER_VFSEXEC_EXECBIT` -/
  execbit : Bool
  arch : Elf.Arch
  page : Elf.PageSize

/-- The flags of `mmap` the shim makes use of, next to `MAP_PRIVATE`. -/
structure MapFlags where
  anonymous : Bool
  fixed : Bool
deriving DecidableEq, Repr

/-- `UK_PAGING_PAGE_ATTR_PROT_*`. -/
structure PageAttr where
  read : Bool
  write : Bool
  exec : Bool
deriving DecidableEq, Repr

/-- The fields of `struct stat` the shim looks at. -/
structure Stat where
  size : Int64
  isReg : Bool
  ixusr : Bool
deriving DecidableEq, Repr

inductive KernelOp where
  | mmap (addr len prot : Nat) (flags : MapFlags) (fd : Int32) (off : Int64)
  | munmap (addr len : Nat)
  | mprotect (addr len prot : Nat)
  | ukVasGetActive
  | ukVmaSetAttr (start len : Nat) (attr : PageAttr)
  | ukMemalign (align size : Nat)
  | ukFree (ptr : Nat)
  | copyNonoverlapping (addr : Nat) (data : Bytes)
  | writeBytes (addr len : Nat)
  | invalidateIcacheRange (addr len : Nat)
  | openRdonly (path : Bytes)
  | close (fd : Int32)
  | fstat (fd : Int32)
  | file (op : FileOp)
  | tryReserve (n : Nat)
deriving DecidableEq, Repr

@[reducible] def KernelOp.Res : KernelOp → Type
  /- `none` is `MAP_FAILED`. -/
  | .mmap .. => Option Nat × Errno
  | .munmap .. => Int32 × Errno
  | .mprotect .. => Int32 × Errno
  /- `PTRISERR(vas)`. -/
  | .ukVasGetActive => Bool
  | .ukVmaSetAttr .. => Int32
  | .ukMemalign .. => Nat
  | .ukFree _ => Unit
  | .copyNonoverlapping .. => Unit
  | .writeBytes .. => Unit
  | .invalidateIcacheRange .. => Unit
  | .openRdonly _ => Int32 × Errno
  | .close _ => Unit
  | .fstat _ => Int32 × Errno × Stat
  | .file op => op.Res
  | .tryReserve _ => Bool

abbrev Kernel : Iface := ⟨KernelOp, KernelOp.Res⟩

variable {ε α : Type}

def get (op : KernelOp) : Prog Kernel ε op.Res := .ask (I := Kernel) op Outcome.ok

/-! ### `glue/shim.c`: virtual memory -/

def ELFRS_PROT_READ : Nat := 1
def ELFRS_PROT_WRITE : Nat := 2
def ELFRS_PROT_EXEC : Nat := 4

def ELFRS_MAP_ANON : Int32 := 0
def ELFRS_MAP_FILE : Int32 := 1

def elfrsToProt (prot : Nat) : Nat :=
  let p := PROT_NONE
  let p := if prot &&& ELFRS_PROT_READ ≠ 0 then p ||| PROT_READ else p
  let p := if prot &&& ELFRS_PROT_WRITE ≠ 0 then p ||| PROT_WRITE else p
  if prot &&& ELFRS_PROT_EXEC ≠ 0 then p ||| PROT_EXEC else p

/-- The address and `*err`. -/
def elfrsMap (cfg : Config) (addr len prot : Nat) (kind fd : Int32) (off : Int64)
    (replace : Bool) : Prog Kernel ε (Nat × Int32) :=
  if cfg.libposixMmap then do
    let anonymous := kind == ELFRS_MAP_ANON
    let fd := if anonymous then -1 else fd
    let off := if anonymous then 0 else off
    let (got, e) ← get (.mmap addr len (elfrsToProt prot) ⟨anonymous, addr != 0 && replace⟩ fd off)
    match got with
    | none => pure (0, if e ≠ 0 then e else errno Error.ENOMEM)
    | some got => pure (got, 0)
  else pure (0, errno Error.ENOSYS)

def elfrsUnmap (cfg : Config) (addr len : Nat) : Prog Kernel ε Int32 :=
  if cfg.libposixMmap then do
    let (rc, e) ← get (.munmap addr len)
    pure (if rc < 0 then -e else 0)
  else pure (-errno Error.ENOSYS)

/-- The whole pages of a range, in the arithmetic of `unsigned long`. -/
def alignedRange (pageSize addr len : Nat) : Nat × Nat :=
  let start := roundDown pageSize addr
  (start, (roundUp pageSize ((addr + len) % 2 ^ 64) % 2 ^ 64 + 2 ^ 64 - start) % 2 ^ 64)

def elfrsProtect (cfg : Config) (addr len prot : Nat) : Prog Kernel ε Int32 :=
  if cfg.libposixMmap then do
    let (rc, e) ← get (.mprotect addr len (elfrsToProt prot))
    pure (if rc < 0 then -e else 0)
  else if cfg.libukvmem then do
    if ← get .ukVasGetActive then pure (-errno Error.ENOTSUP)
    else
      let attr : PageAttr := {
        read := prot &&& ELFRS_PROT_READ != 0
        write := prot &&& ELFRS_PROT_WRITE != 0
        exec := prot &&& ELFRS_PROT_EXEC != 0 }
      let (start, vlen) := alignedRange cfg.page.bytes addr len
      get (.ukVmaSetAttr start vlen attr)
  else pure (-errno Error.ENOTSUP)

/-- `sizeof(void *)` -/
def POINTER_SIZE : Nat := 8

def elfrsMemalign (align size : Nat) : Prog Kernel ε Nat :=
  get (.ukMemalign (if align < POINTER_SIZE then POINTER_SIZE else align) size)

def elfrsFree (ptr : Nat) : Prog Kernel ε Unit := get (.ukFree ptr)

def elfrsIcacheSync (cfg : Config) (addr len : Nat) : Prog Kernel ε Unit :=
  match cfg.arch with
  | .aarch64 => if len = 0 then pure () else get (.invalidateIcacheRange addr len)
  | .x86_64 => pure ()

/-! ### `glue/shim.c`: files -/

def elfrsOpenRo (cfg : Config) (path : Bytes) : Prog Kernel ε Int32 :=
  if cfg.haveVfs then do
    let (fd, e) ← get (.openRdonly path)
    pure (if fd < 0 then -e else fd)
  else pure (-errno Error.ENOSYS)

def elfrsClose (cfg : Config) (fd : Int32) : Prog Kernel ε Unit :=
  if cfg.haveVfs && decide (0 ≤ fd) then get (.close fd) else pure ()

def elfrsFsize (cfg : Config) (fd : Int32) : Prog Kernel ε Int64 :=
  if cfg.haveVfs then do
    let (rc, e, st) ← get (.fstat fd)
    pure (if rc < 0 then -e.toInt64 else st.size)
  else pure (-(errno Error.ENOSYS).toInt64)

def EACCES : Error := { code := 13 }

def elfrsFdIsExec (cfg : Config) (fd : Int32) : Prog Kernel ε Int32 :=
  if cfg.haveVfs then do
    let (rc, e, st) ← get (.fstat fd)
    pure (if rc < 0 then -e
      else if !st.isReg then -errno EACCES
      else if !st.ixusr then -errno EACCES
      else 0)
  else pure (-errno Error.ENOSYS)

/-! ### `sys.rs`: the address space -/

/-- `Error(if err > 0 { err } else { -err })`. -/
def absErr (e : Int32) : Outcome Errno α :=
  if 0 < e then err e else errNeg e

namespace UkVm

/-- `addr` and `replace` of `elfrs_map`. -/
def placeArgs : Where → Nat × Bool
  | .anywhere => (0, false)
  | .hint a => (a, false)
  | .exact a => (a, true)

/-- `kind`, `fd` and `off` of `elfrs_map`. -/
def sourceArgs : MapSrc → Int32 × Int32 × Int64
  | .anon => (ELFRS_MAP_ANON, -1, 0)
  | .file fd off => (ELFRS_MAP_FILE, .ofInt fd, .ofNat off)

def map (cfg : Config) (at' : Where) (len prot : Nat) (src : MapSrc) : Prog Kernel Errno Nat := do
  let (addr, replace) := placeArgs at'
  let (kind, fd, off) := sourceArgs src
  let (got, e) ← elfrsMap cfg addr len prot kind fd off replace
  if got = 0 then absErr e else pure got

def unmap (cfg : Config) (addr len : Nat) : Prog Kernel Errno Unit := do
  let rc ← elfrsUnmap cfg addr len
  fromC rc

def protect (cfg : Config) (addr len prot : Nat) : Prog Kernel Errno Unit := do
  let rc ← elfrsProtect cfg addr len prot
  fromC rc

def write (addr : Nat) (data : Bytes) : Prog Kernel Errno Unit :=
  get (.copyNonoverlapping addr data)

def zero (addr len : Nat) : Prog Kernel Errno Unit := get (.writeBytes addr len)

def allocAligned (align len : Nat) : Prog Kernel Errno Nat := do
  let p ← elfrsMemalign align len
  if p = 0 then .done (.err (errno Error.ENOMEM)) else pure p

def freeAligned (addr _len : Nat) : Prog Kernel ε Unit := elfrsFree addr

end UkVm

/-! ### `sys.rs`: files -/

def cString (s : Bytes) : Prog Kernel Errno Unit := do
  guardErr (¬ s.contains 0 = true) (errno Error.EINVAL)
  if ← get (.tryReserve (s.length + 1)) then pure () else .done (.err (errno Error.ENOMEM))

/-- The descriptor, which the `File` owns, and its size. -/
def fileOpen (cfg : Config) (path : Bytes) : Prog Kernel Errno (Int32 × Option Nat) := do
  cString path
  let fd ← elfrsOpenRo cfg path
  if fd < 0 then errNeg fd
  else do
    let size ← elfrsFsize cfg fd
    pure (fd, if 0 ≤ size then some size.toNatClampNeg else none)

def checkExecBit (cfg : Config) (fd : Int32) : Prog Kernel Errno Unit :=
  if cfg.execbit then do
    let rc ← elfrsFdIsExec cfg fd
    fromC rc
  else pure ()

/-- Which of the two openers: that of `app.rs` enforces the executable bit. -/
inductive VfsOpener where
  | app
  | binfmt
deriving DecidableEq, Repr

/-- What an open file is to the loader. -/
def openedOf (cfg : Config) (fd : Int32) (size : Option Nat) : Opened where
  src := ⟨fd.toNatClampNeg, size⟩
  fd := if cfg.libposixMmap then some fd.toInt else none

/-- The file is dropped when its executable bit is missing. -/
def VfsOpener.open (cfg : Config) (opener : VfsOpener) (path : Bytes) :
    Prog Kernel Errno Opened := do
  let (fd, size) ← fileOpen cfg path
  match opener with
  | .binfmt => pure (openedOf cfg fd size)
  | .app => do
      match ← (checkExecBit cfg fd).attempt with
      | .ok _ => pure (openedOf cfg fd size)
      | .error e => do
          elfrsClose cfg fd
          .done (.err e)

/-! ### The loader's calls -/

/-- The answer of a call of the loader.  Its errors are positive; a routine that returned
    another number would have none to give. -/
def answer (p : Prog Kernel Errno α) : Prog Kernel Empty (Except Error α) := do
  match ← p.attempt with
  | .ok a => pure (.ok a)
  | .error e =>
      if h : 0 < e then
        pure (.error ⟨e.toNatClampNeg, (Int32.toNatClampNeg_pos_iff e).mpr h⟩)
      else .done .panic

/-- A buffer of `n` bytes that is filled from a file. -/
def readBuf (fd : Int32) (off n : Nat) : Prog Kernel Errno (Buf n) := do
  let bytes ← ((File.mk fd).readExactAt off (List.replicate n 0)).via
    fun op => get (.file op)
  if h : bytes.length = n then pure ⟨bytes, h⟩ else .done .panic

/-- `AppStack`, the stack the application gets. -/
structure AppStack where
  lo : Nat
  hi : Nat

def AppStack.write (stack : AppStack) (addr : Nat) (data : Bytes) : Prog Kernel Errno Unit :=
  if addr < stack.lo ∨ min (addr + data.length) (2 ^ 64 - 1) > stack.hi then
    .done (.err (errno Error.E2BIG))
  else get (.copyNonoverlapping addr data)

/-- The loader's calls as `sys.rs` carries them out. -/
def sys (cfg : Config) (opener : VfsOpener) (stack : AppStack) : Impl Host Kernel
  | .vm (.map at' len prot src) => answer (UkVm.map cfg at' len prot src)
  | .vm (.unmap addr len) => answer (UkVm.unmap cfg addr len)
  | .vm (.protect addr len prot) => answer (UkVm.protect cfg addr len prot)
  | .vm (.write addr data) => answer (UkVm.write addr data)
  | .vm (.zero addr len) => answer (UkVm.zero addr len)
  | .vm (.icacheSync addr len) => elfrsIcacheSync cfg addr len
  | .vm (.allocAligned align len) => answer (UkVm.allocAligned align len)
  | .vm (.freeAligned addr len) => UkVm.freeAligned addr len
  | .openPath path => answer (opener.open cfg path)
  | .readExactAt src off n => answer (readBuf (.ofNat src.handle) off n)
  | .tryReserve n => get (.tryReserve n)
  | .stackWrite addr data => answer (stack.write addr data)

end ElfLoader.Shim
