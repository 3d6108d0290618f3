import ElfLoader.Layout

/-!
# Executing a plan against an address space (`loader.rs`)

Log lines are left out; the values they print are still computed, since
computing them could stop the machine.
-/

namespace ElfLoader.Loader

open ElfLoader Outcome Elf Layout

/-- What the build fixes: `cfg!(target_arch)`, `Vm::page_size` and
    `Vm::can_map_files`. -/
structure Build where
  arch : Arch
  page : PageSize
  canMapFiles : Bool

def Build.pageSize (b : Build) : Nat := b.page.bytes

structure Loaded where
  plan : LoadPlan
  /-- The backing store is an `alloc_aligned` block rather than mappings. -/
  allocated : Bool
deriving DecidableEq, Repr

variable {ε : Type}

/-- Release what the image owns; a failing `unmap` is only logged. -/
def Loaded.unload (l : Loaded) : Prog Host ε Unit :=
  if l.allocated then Vm.freeAligned l.plan.reserveAddr l.plan.reserveLen
  else do
    let _ ← Vm.unmap l.plan.reserveAddr l.plan.reserveLen
    pure ()

def COPY_CHUNK : Nat := 64 * 1024

/-! ### The mmap path -/

/-- Map the file-backed part of a segment, writable if its tail has to be
    cleared. -/
def mapFilePart (fd : Int) (seg : SegmentPlan) : Prog Host Error Unit :=
  match seg.file with
  | some fm => do
      let prot := if seg.needsWriteWindow then seg.prot ||| PROT_WRITE else seg.prot
      let _ ← Vm.map (.exact fm.addr) fm.len prot (.file fd fm.off)
      pure ()
  | none => pure ()

def clearTail (seg : SegmentPlan) : Prog Host Error Unit :=
  match seg.zero with
  | some z => Vm.zero z.addr z.len
  | none => pure ()

/-- Anonymous pages arrive zeroed, so `.bss` needs no clearing of its own. -/
def mapAnonPart (seg : SegmentPlan) : Prog Host Error Unit :=
  match seg.anon with
  | some a => do
      let _ ← Vm.map (.exact a.addr) a.len seg.prot .anon
      pure ()
  | none => pure ()

def closeWriteWindow (seg : SegmentPlan) : Prog Host Error Unit :=
  if seg.needsWriteWindow then do
    let (s, e) ← (seg.range : Outcome Error (Nat × Nat))
    let len ← (U64.sub e s : Outcome Error Nat)
    let r ← Vm.protect s len seg.prot
    Outcome.ofExcept r
  else pure ()

def fillMappedSegment (image : Image) (fd : Int) (seg : SegmentPlan) :
    Prog Host Error Unit := do
  let _ ← (index image.phdrs seg.idx : Outcome Error Phdr)
  let _ ← (seg.range : Outcome Error (Nat × Nat))
  mapFilePart fd seg
  clearTail seg
  mapAnonPart seg
  closeWriteWindow seg

/-- The cache maintenance `fill_mapped` owes for the bytes it cleared itself. -/
def syncMappedSegment (image : Image) (seg : SegmentPlan) : Prog Host Error Unit := do
  let ph ← (index image.phdrs seg.idx : Outcome Error Phdr)
  if ph.isExec then
    match seg.zero with
    | some z => Vm.icacheSync z.addr z.len
    | none => pure ()
  else pure ()

def fillMapped (image : Image) (fd : Int) (plan : LoadPlan) : Prog Host Error Unit := do
  plan.segments.forM (fillMappedSegment image fd)
  plan.segments.forM (syncMappedSegment image)

/-- Take the reservation: anywhere for a PIE, at the link address otherwise. -/
def reserveMapped (image : Image) (pageSize vaLo need : Nat) :
    Prog Host Error Placement :=
  if image.ehdr.eType = ET_DYN then do
    let raw ← Vm.map .anywhere need PROT_NONE .anon
    pure (.at raw)
  else do
    let (_, hi) ← (image.vaSpan pageSize : Outcome Error (Nat × Nat))
    let span ← (U64.sub hi vaLo : Outcome Error Nat)
    let got ← Vm.map (.hint vaLo) span PROT_NONE .anon
    if got ≠ vaLo then do
      let _ ← Vm.unmap got span
      .done (.err Error.ENOMEM)
    else pure .fixed

/-- Fill a reservation, or give it back: the common end of both paths. -/
def fillOrUnload (loaded : Loaded) (fill : Prog Host Error Unit) :
    Prog Host Error Loaded := do
  match ← fill.attempt with
  | .ok _ => pure loaded
  | .error e => do
      loaded.unload
      .done (.err e)

/-- `plan`, with the answer of its `try_reserve`. -/
def makePlan (image : Image) (pageSize : Nat) (placement : Placement) :
    Prog Host Error LoadPlan := do
  let reserved : Bool ← .ask (I := Host) (.tryReserve image.loads.length) Outcome.ok
  plan reserved image pageSize placement

def loadMapped (image : Image) (fd : Int) (pageSize : Nat) : Prog Host Error Loaded := do
  let (vaLo, _) ← (image.vaSpan pageSize : Outcome Error (Nat × Nat))
  let need ← reservationLen image pageSize
  let placement ← reserveMapped image pageSize vaLo need
  let plan ← makePlan image pageSize placement
  fillOrUnload { plan, allocated := false } (fillMapped image fd plan)

/-! ### The copy path -/

/-- The chunked copy of the file bytes of a segment, `done` bytes in. -/
def copyLoop (src : Source) (ph : Phdr) (vaddr done : Nat) : Prog Host Error Unit :=
  if _h : done < ph.pFilesz then do
    let left ← (U64.sub ph.pFilesz done : Outcome Error Nat)
    let n := min COPY_CHUNK left
    let _ ← (U64.sub COPY_CHUNK n : Outcome Error Nat) -- the bound check of `buf[..n]`
    let off ← (U64.add ph.pOffset done : Outcome Error Nat)
    let data ← readExactAt src off n
    let addr ← (U64.add vaddr done : Outcome Error Nat)
    Vm.write addr data.val
    let _ ← (U64.add done n : Outcome Error Nat)
    copyLoop src ph vaddr (done + min COPY_CHUNK (ph.pFilesz - done))
  else pure ()
termination_by ph.pFilesz - done
decreasing_by
  simp only [COPY_CHUNK]
  omega

/-- Clear everything from the end of the file bytes to the end of the last page. -/
def clearRest (zstart memEnd : Nat) : Prog Host Error Unit :=
  if memEnd > zstart then do
    let len ← (U64.sub memEnd zstart : Outcome Error Nat)
    Vm.zero zstart len
  else pure ()

def copySegment (image : Image) (src : Source) (pageSize : Nat) (plan : LoadPlan)
    (seg : SegmentPlan) : Prog Host Error Unit := do
  let ph ← (index image.phdrs seg.idx : Outcome Error Phdr)
  let vaddr ← (U64.add ph.pVaddr plan.bias : Outcome Error Nat)
  copyLoop src ph vaddr 0
  let mend ← (U64.add vaddr ph.pMemsz : Outcome Error Nat)
  let memEnd ← okOr Error.ENOMEM (← (alignUp mend pageSize : Outcome Error (Option Nat)))
  let zstart ← (U64.add vaddr ph.pFilesz : Outcome Error Nat)
  clearRest zstart memEnd

/-- One turn of the last loop of `fill_copied`; a failing `protect` is only
    logged. -/
def protectSegment (seg : SegmentPlan) : Prog Host Error Unit := do
  let (s, e) ← (seg.range : Outcome Error (Nat × Nat))
  let len ← (U64.sub e s : Outcome Error Nat)
  let _ ← Vm.protect s len seg.prot
  pure ()

def fillCopied (image : Image) (src : Source) (pageSize : Nat) (plan : LoadPlan) :
    Prog Host Error Unit := do
  tryReserve COPY_CHUNK Error.ENOMEM
  plan.segments.forM (copySegment image src pageSize plan)
  let ranges ← (plan.execRanges image : Outcome Error (List (Nat × Nat)))
  ranges.forM fun r => Vm.icacheSync r.1 r.2
  plan.segments.forM protectSegment

def loadCopied (image : Image) (src : Source) (pageSize : Nat) : Prog Host Error Loaded := do
  guardErr (¬ image.ehdr.eType ≠ ET_DYN) Error.ENOTSUP
  let need ← reservationLen image pageSize
  let align ← (segAlign image pageSize : Outcome Error Nat)
  let raw ← Vm.allocAligned align need
  let plan ← makePlan image pageSize (.at raw)
  fillOrUnload { plan, allocated := true } (fillCopied image src pageSize plan)

/-- `load`: map the file when there is a descriptor and the build can, copy
    otherwise. -/
def load (b : Build) (image : Image) (src : Source) (fd : Option Int) :
    Prog Host Error Loaded :=
  match b.canMapFiles, fd with
  | true, some fd => loadMapped image fd b.pageSize
  | _, _ => loadCopied image src b.pageSize

/-- Whether the entry point lies in an executable segment. -/
def entryIsExecutable (image : Image) (plan : LoadPlan) : Outcome ε Bool := do
  let hit ← plan.segments.anyM fun seg => do
    let (a, b) ← seg.range
    ok (seg.prot &&& PROT_EXEC != 0 && decide (plan.entry ≥ a) && decide (plan.entry < b))
  ok (hit && !image.loads.isEmpty)

def checkStackRequest (image : Image) : Outcome Error Unit :=
  guardErr (¬ image.execStack = true) Error.ENOTSUP

/-- `PROT_READ | PROT_WRITE`, what a heap block comes with. -/
def RW : Nat := PROT_READ ||| PROT_WRITE

end ElfLoader.Loader
