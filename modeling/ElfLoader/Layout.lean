import ElfLoader.Elf

/-!
# From an image to a plan of mappings (`layout.rs`)

`plan` is a pure computation: headers, page size and the chosen base go in, the
list of map, zero and protect operations comes out.  The one thing it takes from
outside is whether the segment vector could be reserved (`reserved`).
-/

namespace ElfLoader.Layout

open ElfLoader Outcome Elf

def PROT_NONE : Nat := 0
def PROT_READ : Nat := 1
def PROT_WRITE : Nat := 2
def PROT_EXEC : Nat := 4

def MAX_SEG_ALIGN : Nat := 2 * 1024 * 1024

def protOf (ph : Phdr) : Nat :=
  let p := PROT_NONE
  let p := if ph.isRead then p ||| PROT_READ else p
  let p := if ph.isWrite then p ||| PROT_WRITE else p
  if ph.isExec then p ||| PROT_EXEC else p

structure FileMap where
  addr : Nat
  len : Nat
  off : Nat
deriving DecidableEq, Repr

/-- An anonymous piece of a segment, or a range of bytes to clear. -/
structure AnonMap where
  addr : Nat
  len : Nat
deriving DecidableEq, Repr

structure SegmentPlan where
  /-- Index into `Image.phdrs`. -/
  idx : Nat
  file : Option FileMap
  /-- Bytes to clear between the end of file data and the end of its last page. -/
  zero : Option AnonMap
  anon : Option AnonMap
  /-- Protection to apply once the contents are in place. -/
  prot : Nat
  /-- Map writable first, so that `zero` can be applied, and narrow afterwards. -/
  needsWriteWindow : Bool
deriving DecidableEq, Repr

variable {ε : Type}

/-- Whole address range a segment occupies once mapped. -/
def SegmentPlan.range (seg : SegmentPlan) : Outcome ε (Nat × Nat) := do
  let start := match seg.file, seg.anon with
    | some f, _ => f.addr
    | none, some a => a.addr
    | none, none => 0
  let fin ← match seg.anon, seg.file with
    | some a, _ => U64.add a.addr a.len
    | none, some f => U64.add f.addr f.len
    | none, none => ok start
  ok (start, fin)

/-- Where the image goes, and what to do once it is there. -/
structure LoadPlan where
  /-- Added to every `p_vaddr`; zero for `ET_EXEC`. -/
  bias : Nat
  reserveAddr : Nat
  reserveLen : Nat
  /-- Lowest and highest address covered by segments. -/
  base : Nat
  fin : Nat
  align : Nat
  segments : List SegmentPlan
  entry : Nat
deriving DecidableEq, Repr

inductive Placement where
  | fixed
  | at (raw : Nat)
deriving DecidableEq, Repr

def segAlign (image : Image) (pageSize : Nat) : Outcome ε Nat := do
  let a ← image.loadAlign pageSize
  ok (max (min a MAX_SEG_ALIGN) pageSize)

/-- Size of the reservation a PIE needs so that an aligned base fits into it. -/
def reservationLen (image : Image) (pageSize : Nat) : Outcome Error Nat := do
  let (lo, hi) ← image.vaSpan pageSize
  let align ← segAlign image pageSize
  let span ← okOr Error.ENOEXEC (U64.checkedSub hi lo)
  let slack ← U64.sub align pageSize
  okOr Error.ENOEXEC (U64.checkedAdd span slack)

/-- Bias, reservation address and reservation length for a placement. -/
def place (pageSize align vaLo span : Nat) : Placement → Outcome Error (Nat × Nat × Nat)
  | .fixed => ok (0, vaLo, span)
  | .at raw => do
      let base ← okOr Error.ENOMEM (← alignUp raw align)
      let bias ← okOr Error.ENOMEM (U64.checkedSub base vaLo)
      let slack ← U64.sub align pageSize
      let len ← U64.add span slack
      ok (bias, raw, len)

/-- The file-backed part of a segment, the tail to clear, and where both end. -/
def planFile (ph : Phdr) (pageSize vaddr mstart fdelta : Nat) :
    Outcome Error (Option FileMap × Option AnonMap × Nat) :=
  if ph.pFilesz > 0 then do
    let fend ← U64.add vaddr ph.pFilesz
    let fmapEnd ← okOr Error.ENOMEM (← alignUp fend pageSize)
    let len ← U64.sub fmapEnd mstart
    let off ← U64.sub ph.pOffset fdelta
    let f : FileMap := { addr := mstart, len, off }
    if fmapEnd > fend then do
      let zlen ← U64.sub fmapEnd fend
      ok (some f, some { addr := fend, len := zlen }, fmapEnd)
    else ok (some f, none, fmapEnd)
  else ok (none, none, mstart)

/-- One turn of the segment loop of `plan`. -/
def planSegment (image : Image) (pageSize bias i : Nat) : Outcome Error SegmentPlan := do
  let ph ← index image.phdrs i
  let prot := protOf ph
  let vaddr ← okOr Error.ENOMEM (U64.checkedAdd ph.pVaddr bias)
  let mstart ← alignDown vaddr pageSize
  let fdelta ← U64.sub vaddr mstart
  let memEnd ← okOr Error.ENOMEM (← alignUp (← U64.add vaddr ph.pMemsz) pageSize)
  let (file, zero, fileEnd) ← planFile ph pageSize vaddr mstart fdelta
  let anon ← if memEnd > fileEnd then do
      let len ← U64.sub memEnd fileEnd
      ok (some { addr := fileEnd, len : AnonMap })
    else ok none
  ok {
    idx := i, file, zero, anon, prot
    needsWriteWindow := zero.isSome && prot &&& PROT_WRITE == 0 }

def plan (reserved : Bool) (image : Image) (pageSize : Nat) (placement : Placement) :
    Outcome Error LoadPlan := do
  let (vaLo, vaHi) ← image.vaSpan pageSize
  let align ← segAlign image pageSize
  let span ← U64.sub vaHi vaLo
  let (bias, reserveAddr, reserveLen) ← place pageSize align vaLo span placement
  let base ← U64.add vaLo bias
  let fin ← U64.add vaHi bias
  guardErr (reserved = true) Error.ENOMEM
  let segments ← image.loads.mapM (planSegment image pageSize bias)
  let entry ← okOr Error.ENOMEM (U64.checkedAdd image.ehdr.eEntry bias)
  ok { bias, reserveAddr, reserveLen, base, fin, align, segments, entry }

def LoadPlan.covers (plan : LoadPlan) (addr : Nat) : Bool :=
  decide (addr ≥ plan.base) && decide (addr < plan.fin)

/-- The search for the header table inside a `PT_LOAD`. -/
def LoadPlan.phdrSearch (plan : LoadPlan) (image : Image) :
    List Nat → Outcome ε (Option Nat)
  | [] => ok none
  | i :: rest => do
      let l ← index image.phdrs i
      let phoff := image.ehdr.ePhoff
      if phoff ≥ l.pOffset then
        match U64.checkedAdd l.pOffset l.pFilesz with
        | none => ok none
        | some fin =>
            if phoff < fin then do
              let delta ← U64.sub phoff l.pOffset
              ok ((U64.checkedAdd delta l.pVaddr).bind fun a => U64.checkedAdd a plan.bias)
            else plan.phdrSearch image rest
      else plan.phdrSearch image rest

/-- Address at which the program header table is visible, for `AT_PHDR`. -/
def LoadPlan.phdrAddr (plan : LoadPlan) (image : Image) : Outcome ε (Option Nat) :=
  match image.phdrSeg with
  | some ph =>
      match U64.checkedAdd ph.pVaddr plan.bias with
      | none => ok none
      | some addr =>
          if plan.covers addr then ok (some addr) else plan.phdrSearch image image.loads
  | none => plan.phdrSearch image image.loads

/-- Ranges that hold executable code, for instruction-cache maintenance. -/
def LoadPlan.execRanges (plan : LoadPlan) (image : Image) :
    Outcome ε (List (Nat × Nat)) := do
  let exec ← plan.segments.filterM fun seg => do
    let ph ← index image.phdrs seg.idx
    ok ph.isExec
  exec.mapM fun seg => do
    let (a, b) ← seg.range
    let len ← U64.sub b a
    ok (a, len)

end ElfLoader.Layout
