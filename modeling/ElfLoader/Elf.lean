import ElfLoader.Host
import ElfLoader.Rounding
import Mathlib.Data.List.Sort

/-!
# The ELF64 reader (`elf.rs`)

Only what a program loader needs is read: the executable header and the program
headers.  Every operator that the checked build may stop at is an `Outcome`, and
every read goes through `Host`, so the same `parse` serves a byte string, a file
and a source that fails half way.
-/

namespace ElfLoader.Elf

open ElfLoader Outcome

def EI_NIDENT : Nat := 16
def EHDR_SIZE : Nat := 64
def PHDR_SIZE : Nat := 56

def ELFMAG : Bytes := [0x7f, 0x45, 0x4c, 0x46]

def EI_CLASS : Nat := 4
def EI_DATA : Nat := 5
def EI_VERSION : Nat := 6
def EI_OSABI : Nat := 7

def ELFCLASS64 : UInt8 := 2
def ELFDATA2LSB : UInt8 := 1
def EV_CURRENT : UInt8 := 1

def ELFOSABI_NONE : UInt8 := 0
def ELFOSABI_GNU : UInt8 := 3
def ELFOSABI_ARM_AEABI : UInt8 := 64

def ET_EXEC : Nat := 2
def ET_DYN : Nat := 3

def EM_X86_64 : Nat := 62
def EM_AARCH64 : Nat := 183

def PN_XNUM : Nat := 0xffff

def PT_LOAD : Nat := 1
def PT_INTERP : Nat := 3
def PT_PHDR : Nat := 6
def PT_TLS : Nat := 7
def PT_GNU_STACK : Nat := 0x6474e551
def PT_GNU_RELRO : Nat := 0x6474e552

def PF_X : Nat := 1
def PF_W : Nat := 2
def PF_R : Nat := 4

/-- `cfg!(target_arch)` of the build. -/
inductive Arch where
  | aarch64
  | x86_64
deriving DecidableEq, Repr

/-- The machine this loader can start. -/
def EM_NATIVE : Arch → Nat
  | .aarch64 => EM_AARCH64
  | .x86_64 => EM_X86_64

/-- A page size: a power of two that fits the word. -/
structure PageSize where
  shift : Nat
  shift_lt : shift < 64

def PageSize.bytes (pg : PageSize) : Nat := 2 ^ pg.shift

def INTERP_MAX : Nat := 4096

def PHNUM_MAX : Nat := 1024

structure Ehdr where
  ident : Bytes
  eType : Nat
  eMachine : Nat
  eVersion : Nat
  eEntry : Nat
  ePhoff : Nat
  eShoff : Nat
  eFlags : Nat
  eEhsize : Nat
  ePhentsize : Nat
  ePhnum : Nat
  eShentsize : Nat
  eShnum : Nat
  eShstrndx : Nat
deriving DecidableEq, Repr

structure Phdr where
  pType : Nat
  pFlags : Nat
  pOffset : Nat
  pVaddr : Nat
  pPaddr : Nat
  pFilesz : Nat
  pMemsz : Nat
  pAlign : Nat
deriving DecidableEq, Repr, Inhabited

def Phdr.isRead (ph : Phdr) : Bool := ph.pFlags &&& PF_R != 0
def Phdr.isWrite (ph : Phdr) : Bool := ph.pFlags &&& PF_W != 0
def Phdr.isExec (ph : Phdr) : Bool := ph.pFlags &&& PF_X != 0

/-! ### Decoding -/

variable {ε : Type}

def u16le (b : Bytes) (off : Nat) : Outcome ε Nat := do
  let b0 ← index b off
  let b1 ← index b (off + 1)
  ok (ofLe [b0, b1])

def u32le (b : Bytes) (off : Nat) : Outcome ε Nat := do
  let b0 ← index b off
  let b1 ← index b (off + 1)
  let b2 ← index b (off + 2)
  let b3 ← index b (off + 3)
  ok (ofLe [b0, b1, b2, b3])

def u64le (b : Bytes) (off : Nat) : Outcome ε Nat := do
  let v ← slice b off (off + 8)
  ok (ofLe v)

def Ehdr.parse (raw : Bytes) : Outcome Error Ehdr := do
  guardErr (¬ raw.length < EHDR_SIZE) Error.ENOEXEC
  let ident ← slice raw 0 EI_NIDENT
  let eType ← u16le raw 16
  let eMachine ← u16le raw 18
  let eVersion ← u32le raw 20
  let eEntry ← u64le raw 24
  let ePhoff ← u64le raw 32
  let eShoff ← u64le raw 40
  let eFlags ← u32le raw 48
  let eEhsize ← u16le raw 52
  let ePhentsize ← u16le raw 54
  let ePhnum ← u16le raw 56
  let eShentsize ← u16le raw 58
  let eShnum ← u16le raw 60
  let eShstrndx ← u16le raw 62
  ok {
    ident, eType, eMachine, eVersion, eEntry, ePhoff, eShoff, eFlags, eEhsize,
    ePhentsize, ePhnum, eShentsize, eShnum, eShstrndx }

def Phdr.parse (raw : Bytes) : Outcome Error Phdr := do
  guardErr (¬ raw.length < PHDR_SIZE) Error.ENOEXEC
  let pType ← u32le raw 0
  let pFlags ← u32le raw 4
  let pOffset ← u64le raw 8
  let pVaddr ← u64le raw 16
  let pPaddr ← u64le raw 24
  let pFilesz ← u64le raw 32
  let pMemsz ← u64le raw 40
  let pAlign ← u64le raw 48
  ok { pType, pFlags, pOffset, pVaddr, pPaddr, pFilesz, pMemsz, pAlign }

inductive Reject where
  | notElf
  | unsupported (why : String)
  | malformed (why : String)
deriving DecidableEq, Repr

def Reject.toError : Reject → Error
  | .notElf => Error.ENOEXEC
  | .malformed _ => Error.ENOEXEC
  | .unsupported _ => Error.ENOTSUP

/-! ### Rounding as the code does it -/

def alignDown (v a : Nat) : Outcome ε Nat := do
  let low ← U64.sub a 1
  ok (v &&& U64.not low)

def alignUp (v a : Nat) : Outcome ε (Option Nat) := do
  let low ← U64.sub a 1
  ok ((U64.checkedAdd v low).map (· &&& U64.not low))

/-! ### Validation -/

/-- The test against the end of the file, when its size is known. -/
def checkFits (fin : Nat) (fileSize : Option Nat) (why : String) : Outcome Reject Unit :=
  match fileSize with
  | some size => guardErr (¬ fin > size) (.malformed why)
  | none => ok ()

def validateLoad (ph : Phdr) (pageSize : Nat) (fileSize : Option Nat) :
    Outcome Reject Unit := do
  guardErr (¬ ph.pFilesz > ph.pMemsz) (.malformed "PT_LOAD filesz exceeds memsz")
  guardErr (¬ (ph.pAlign ≠ 0 ∧ ¬ U64.isPowerOfTwo ph.pAlign))
    (.malformed "PT_LOAD alignment is not a power of two")
  guardErr (¬ (ph.pAlign > pageSize ∧ ¬ U64.isPowerOfTwo ph.pAlign))
    (.malformed "PT_LOAD alignment is not a power of two")
  let _ ← okOr (.malformed "PT_LOAD vaddr+memsz overflows")
    (U64.checkedAdd ph.pVaddr ph.pMemsz)
  let fileEnd ← okOr (.malformed "PT_LOAD offset+filesz overflows")
    (U64.checkedAdd ph.pOffset ph.pFilesz)
  checkFits fileEnd fileSize "PT_LOAD extends past end of file"
  let low ← U64.sub pageSize 1
  guardErr (¬ (ph.pFilesz ≠ 0 ∧ (ph.pVaddr &&& low) ≠ (ph.pOffset &&& low)))
    (.malformed "PT_LOAD vaddr and offset are not page-congruent")

structure Classified where
  loads : List Nat
  interp : Option Phdr
  phdrSeg : Option Phdr
  tls : Option Phdr
  relro : Option Phdr
  execStack : Bool
deriving DecidableEq, Repr

def Classified.empty : Classified := ⟨[], none, none, none, none, false⟩

def validateInterp (ph : Phdr) (seen : Option Phdr) (fileSize : Option Nat) :
    Outcome Reject Unit := do
  guardErr (¬ seen.isSome) (.unsupported "multiple PT_INTERP")
  guardErr (¬ (ph.pFilesz = 0 ∨ ph.pFilesz > INTERP_MAX))
    (.malformed "implausible PT_INTERP length")
  match fileSize with
  | some _ =>
      let fin ← okOr (.malformed "PT_INTERP overflows")
        (U64.checkedAdd ph.pOffset ph.pFilesz)
      checkFits fin fileSize "PT_INTERP past end of file"
  | none => ok ()

/-- One turn of the classification loop. -/
def classifyOne (pageSize : Nat) (fileSize : Option Nat) (c : Classified) (i : Nat)
    (ph : Phdr) : Outcome Reject Classified :=
  if ph.pType = PT_LOAD then do
    validateLoad ph pageSize fileSize
    ok { c with loads := c.loads ++ [i] }
  else if ph.pType = PT_INTERP then do
    validateInterp ph c.interp fileSize
    ok { c with interp := some ph }
  else if ph.pType = PT_PHDR then ok { c with phdrSeg := some ph }
  else if ph.pType = PT_TLS then ok { c with tls := some ph }
  else if ph.pType = PT_GNU_RELRO then ok { c with relro := some ph }
  else if ph.pType = PT_GNU_STACK then ok { c with execStack := ph.isExec }
  else ok c

def classify (pageSize : Nat) (fileSize : Option Nat) :
    List Phdr → Nat → Classified → Outcome Reject Classified
  | [], _, c => ok c
  | ph :: rest, i, c => do
      let c ← classifyOne pageSize fileSize c i ph
      classify pageSize fileSize rest (i + 1) c

/-- Read the sort key of every index (`phdrs[i].p_vaddr`). -/
def loadKeys (phdrs : List Phdr) : List Nat → Outcome Reject (List (Nat × Nat))
  | [] => ok []
  | i :: rest => do
      let ph ← index phdrs i
      let keys ← loadKeys phdrs rest
      ok ((ph.pVaddr, i) :: keys)

/-- `loads.sort_by_key(|&i| phdrs[i].p_vaddr)`, a stable sort. -/
def sortLoads (phdrs : List Phdr) (loads : List Nat) : Outcome Reject (List Nat) := do
  let keys ← loadKeys phdrs loads
  ok ((keys.insertionSort fun a b => a.1 ≤ b.1).map Prod.snd)

/-- The neighbour test over `loads.windows(2)`. -/
def checkOverlap (phdrs : List Phdr) (pageSize : Nat) : List Nat → Outcome Reject Unit
  | i :: j :: rest => do
      let a ← index phdrs i
      let b ← index phdrs j
      let fin ← U64.add a.pVaddr a.pMemsz
      let aEnd ← okOr (.malformed "segment end overflows") (← alignUp fin pageSize)
      let bLo ← alignDown b.pVaddr pageSize
      let aLo ← alignDown aEnd pageSize
      guardErr (¬ (b.pVaddr < aEnd ∧ bLo < aLo)) (.malformed "overlapping PT_LOAD segments")
      checkOverlap phdrs pageSize (j :: rest)
  | _ => ok ()

/-! ### The image -/

structure Image where
  ehdr : Ehdr
  phdrs : List Phdr
  loads : List Nat
  interp : Option Phdr
  phdrSeg : Option Phdr
  tls : Option Phdr
  relro : Option Phdr
  execStack : Bool
deriving DecidableEq, Repr

def Image.needsInterp (image : Image) : Bool := image.interp.isSome

/-- Identification: anything failing here is "not for me". -/
def checkIdent (ehdr : Ehdr) : Outcome Reject Unit := do
  let magic ← slice ehdr.ident 0 4
  let cls ← index ehdr.ident EI_CLASS
  let data ← index ehdr.ident EI_DATA
  let version ← index ehdr.ident EI_VERSION
  guardErr (¬ (magic ≠ ELFMAG ∨ cls ≠ ELFCLASS64 ∨ data ≠ ELFDATA2LSB ∨ version ≠ EV_CURRENT))
    .notElf

/-- The rest of the executable header, up to the size of the header table. -/
def checkEhdr (arch : Arch) (ehdr : Ehdr) : Outcome Reject Unit := do
  let osabi ← index ehdr.ident EI_OSABI
  guardErr (osabi = ELFOSABI_NONE ∨ osabi = ELFOSABI_GNU ∨ osabi = ELFOSABI_ARM_AEABI)
    (.unsupported "unsupported ELF OS ABI")
  guardErr (¬ ehdr.eMachine ≠ EM_NATIVE arch) (.unsupported "ELF machine type mismatch")
  guardErr (¬ (ehdr.eType ≠ ET_DYN ∧ ehdr.eType ≠ ET_EXEC))
    (.unsupported "ELF is neither ET_DYN nor ET_EXEC")
  guardErr (¬ ehdr.eVersion ≠ 1) (.malformed "unsupported ELF version")
  guardErr (¬ ehdr.ePhnum = PN_XNUM) (.unsupported "PN_XNUM program header count")
  guardErr (¬ ehdr.ePhnum = 0) (.malformed "no program headers")
  guardErr (¬ ehdr.ePhnum > PHNUM_MAX) (.malformed "implausible program header count")
  guardErr (¬ ehdr.ePhentsize < PHDR_SIZE) (.malformed "program header entry too small")

def checkPhtab (ehdr : Ehdr) (fileSize : Option Nat) : Outcome Reject Unit := do
  let phtabLen ← okOr (.malformed "program header table overflows")
    (U64.checkedMul ehdr.ePhnum ehdr.ePhentsize)
  let phtabEnd ← okOr (.malformed "program header table overflows")
    (U64.checkedAdd ehdr.ePhoff phtabLen)
  checkFits phtabEnd fileSize "program header table past end of file"

/-- The loop over the header table: `n` entries from entry `i` on. -/
def readPhdrs (src : Source) (ehdr : Ehdr) : (n i : Nat) → Prog Host Reject (List Phdr)
  | 0, _ => pure []
  | n + 1, i => do
      let skip ← (U64.mul i ehdr.ePhentsize : Outcome Reject Nat)
      let off ← (U64.add ehdr.ePhoff skip : Outcome Reject Nat)
      let ent ← (readExactAt src off PHDR_SIZE).mapErr
        fun _ => .malformed "truncated program header table"
      let ph ← (Phdr.parse ent.val).mapErr fun _ => Reject.malformed "bad program header"
      let rest ← readPhdrs src ehdr n (i + 1)
      pure (ph :: rest)

/-- Classification, sort and overlap test, once the headers have been read. -/
def assemble (ehdr : Ehdr) (phdrs : List Phdr) (pageSize : Nat) (fileSize : Option Nat) :
    Outcome Reject Image := do
  let c ← classify pageSize fileSize phdrs 0 .empty
  guardErr (¬ c.loads.isEmpty) (.malformed "no PT_LOAD segments")
  let loads ← sortLoads phdrs c.loads
  checkOverlap phdrs pageSize loads
  ok {
    ehdr, phdrs, loads
    interp := c.interp, phdrSeg := c.phdrSeg, tls := c.tls, relro := c.relro
    execStack := c.execStack }

def Image.parse (arch : Arch) (src : Source) (pageSize : Nat) : Prog Host Reject Image := do
  let raw ← (readExactAt src 0 EHDR_SIZE).mapErr fun _ => Reject.notElf
  let ehdr ← (Ehdr.parse raw.val).mapErr fun _ => Reject.notElf
  checkIdent ehdr
  checkEhdr arch ehdr
  checkPhtab ehdr src.size
  tryReserve ehdr.ePhnum (.malformed "out of memory reading program headers")
  let phdrs ← readPhdrs src ehdr ehdr.ePhnum 0
  assemble ehdr phdrs pageSize src.size

def Image.interpPath (image : Image) (src : Source) : Prog Host Error Bytes := do
  let ph ← (okOr Error.EINVAL image.interp : Outcome Error Phdr)
  tryReserve ph.pFilesz Error.ENOMEM
  let buf ← readExactAt src ph.pOffset ph.pFilesz
  match buf.val.findIdx? (· == 0) with
  | some 0 => Prog.done (.err Error.ENOEXEC)
  | some n => pure (buf.val.take n)
  | none => Prog.done (.err Error.ENOEXEC)

/-- Lowest and highest page-aligned virtual address, as linked. -/
def Image.vaSpan (image : Image) (pageSize : Nat) : Outcome Error (Nat × Nat) := do
  let i ← index image.loads 0
  let first ← index image.phdrs i
  let j ← index image.loads (image.loads.length - 1)
  let last ← index image.phdrs j
  let lo ← alignDown first.pVaddr pageSize
  let fin ← U64.add last.pVaddr last.pMemsz
  let hi ← okOr Error.ENOEXEC (← alignUp fin pageSize)
  ok (lo, hi)

/-- One turn of the loop in `load_align`. -/
def strongerAlign (a pa : Nat) : Nat := if pa > a ∧ U64.isPowerOfTwo pa then pa else a

/-- `Image::load_align`: strongest alignment asked for, at least the page size. -/
def Image.loadAlign (image : Image) (pageSize : Nat) : Outcome ε Nat :=
  image.loads.foldlM (fun a i => do
    let ph ← index image.phdrs i
    ok (strongerAlign a ph.pAlign)) pageSize

end ElfLoader.Elf
