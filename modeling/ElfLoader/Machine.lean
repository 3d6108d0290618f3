import ElfLoader.AddressSpace
import ElfLoader.ElfFormat

/-!
# A machine to run on

`Machine` answers every call of the loader, in the manner of the `FakeVm` of the
tests: mappings go to the first free range at or above a base, files are served
from memory, and every call that can succeed does.  Its runs are runs of `step`.
`buildElf` writes files for it, as `ElfBuilder` does for the tests.
-/

namespace ElfLoader.AddressSpace

open ElfLoader Outcome Prog Elf Layout Loader

structure Machine where
  world : World
  /-- Lowest address for a mapping without a place of its own. -/
  base : Nat
  /-- Lowest address for a heap block. -/
  heap : Nat
  /-- Number of pages searched for a range. -/
  slots : Nat

section Search

variable (pg : PageSize) (s : Space) (a len : Nat)

/-- All pages of the range, which starts at a page boundary, have protection `v`. -/
def allPages (v : Option Nat) : Bool :=
  (List.range' (a / pg.bytes) (len / pg.bytes + 1)).all fun p =>
    !decide (Touches pg.bytes a len p) || s.prot p == v

/-- The range is free, and the last byte of the address space is not in it. -/
def fits : Bool :=
  decide (pg.bytes ∣ a) && decide (a + len < 2 ^ 64) && allPages pg s a len none

/-- The range is in the heap and in no live block. -/
def fitsHeap : Bool :=
  decide (pg.bytes ∣ a) && decide (a + len < 2 ^ 64) && allPages pg s a len (some RW) &&
    s.blocks.all fun blk => decide (a + len ≤ blk.1) || decide (blk.1 + blk.2 ≤ a)

/-- The first of `slots` pages from `a` on at which a range fits. -/
def firstFit (fit : Nat → Bool) (slots : Nat) : Option Nat :=
  ((List.range slots).map fun k => a + k * pg.bytes).find? fit

variable {pg s a len}

theorem allPages_iff {v : Option Nat} (ha : pg.bytes ∣ a) (h : allPages pg s a len v = true) :
    ∀ p, Touches pg.bytes a len p → s.prot p = v := by
  intro p ht
  have hmem : p ∈ List.range' (a / pg.bytes) (len / pg.bytes + 1) := by
    obtain ⟨hlo, hhi, -⟩ := ht
    obtain ⟨k, rfl⟩ := ha
    rw [Nat.mul_div_cancel_left k pg.pos] at hlo ⊢
    have hsub : p - k ≤ len / pg.bytes := by
      rw [Nat.le_div_iff_mul_le pg.pos, Nat.sub_mul, Nat.mul_comm k]
      omega
    rw [List.mem_range']
    exact ⟨p - k, by omega, by omega⟩
  have hp := List.all_eq_true.mp h p hmem
  simpa [ht] using hp

end Search

def Machine.place (m : Machine) (pg : PageSize) (s : Space) (len : Nat) : Where → Option Nat
  | .anywhere => firstFit pg m.base (fun a => fits pg s a len) m.slots
  | .hint a =>
      if fits pg s a len then some a
      else firstFit pg m.base (fun a => fits pg s a len) m.slots
  | .exact a => some a

def Machine.answer (m : Machine) (pg : PageSize) (s : Space) : (op : HostOp) → op.Res
  | .vm (.map place len _ _) =>
      ((m.place pg s len place).elim (.error Error.ENOMEM) .ok : Except Error Nat)
  | .vm (.unmap _ _) =>
      (if m.world.unmaps then .ok () else .error Error.EINVAL : Except Error Unit)
  | .vm (.protect a len prot) =>
      (if m.world.accepts a len prot then .ok () else .error Error.ENOSYS : Except Error Unit)
  | .vm (.write _ _) => (.ok () : Except Error Unit)
  | .vm (.zero _ _) => (.ok () : Except Error Unit)
  | .vm (.icacheSync _ _) => ()
  | .vm (.allocAligned _ len) =>
      ((firstFit pg m.heap (fun a => fitsHeap pg s a len) m.slots).elim (.error Error.ENOMEM) .ok :
        Except Error Nat)
  | .vm (.freeAligned _ _) => ()
  | .openPath path => ((m.world.lookup path).elim (.error Error.ENOENT) .ok : Except Error Opened)
  | .readExactAt src off n =>
      (if h : off + n ≤ (m.world.bytes src.handle).length then
        .ok ⟨bytesAt (m.world.bytes src.handle) off n, length_bytesAt h⟩
      else .error Error.ENOEXEC : Except Error (Buf n))
  | .tryReserve _ => true
  | .stackWrite _ _ => (.ok () : Except Error Unit)

def Machine.exec (m : Machine) (pg : PageSize) (s : Space) (op : HostOp) : op.Res × Space :=
  (m.answer pg s op, s.after pg m.world op (m.answer pg s op))

section Step

variable {m : Machine} {pg : PageSize} {s : Space}

theorem fits_firstFit {f : Nat → Bool} {a raw slots : Nat}
    (h : firstFit pg a f slots = some raw) : f raw = true :=
  List.find?_some h

theorem fits_place {len raw : Nat} {place : Where} (hne : ∀ a, place ≠ .exact a)
    (h : m.place pg s len place = some raw) : fits pg s raw len = true := by
  cases place with
  | anywhere => exact fits_firstFit (f := fun a => fits pg s a len) h
  | hint a =>
    simp only [Machine.place] at h
    split at h
    · rename_i hfit
      cases h
      exact hfit
    · exact fits_firstFit (f := fun a => fits pg s a len) h
  | exact a => exact absurd rfl (hne a)

theorem free_of_fits {a len : Nat} (h : fits pg s a len = true) :
    pg.bytes ∣ a ∧ a + len < 2 ^ 64 ∧ s.Free pg a len := by
  simp only [fits, Bool.and_eq_true, decide_eq_true_eq] at h
  exact ⟨h.1.1, h.1.2, allPages_iff h.1.1 h.2⟩

theorem heap_of_fits {a len : Nat} (h : fitsHeap pg s a len = true) :
    pg.bytes ∣ a ∧ a + len < 2 ^ 64 ∧
      (∀ p, Touches pg.bytes a len p → s.prot p = some RW) ∧
      ∀ blk ∈ s.blocks, a + len ≤ blk.1 ∨ blk.1 + blk.2 ≤ a := by
  simp only [fitsHeap, Bool.and_eq_true, decide_eq_true_eq, List.all_eq_true,
    Bool.or_eq_true] at h
  exact ⟨h.1.1.1, h.1.1.2, allPages_iff h.1.1.1 h.1.2, h.2⟩

/-- Every answer of the machine is one an address space may give. -/
theorem Machine.answers (op : HostOp) : s.Answers pg m.world op (m.answer pg s op) := by
  cases op with
  | vm op =>
    cases op with
    | map place len prot src =>
      simp only [Machine.answer]
      cases hplace : m.place pg s len place with
      | none => cases place <;> trivial
      | some raw =>
        cases place with
        | anywhere =>
          obtain ⟨hdvd, hlt, hfree⟩ := free_of_fits (fits_place (by simp) hplace)
          exact ⟨hdvd, le_of_lt hlt, hfree⟩
        | hint a =>
          obtain ⟨hdvd, hlt, hfree⟩ := free_of_fits (fits_place (by simp) hplace)
          exact ⟨hdvd, le_of_lt hlt, hfree⟩
        | exact a =>
          cases hplace
          rfl
    | unmap a len =>
      simp only [Machine.answer]
      split
      · trivial
      · rename_i h
        exact Bool.eq_false_iff.mpr h
    | protect a len prot =>
      simp only [Machine.answer]
      split
      · rename_i h
        exact h
      · rename_i h
        exact Bool.eq_false_iff.mpr h
    | allocAligned align len =>
      simp only [Machine.answer]
      cases hfit : firstFit pg m.heap (fun a => fitsHeap pg s a len) m.slots with
      | none => trivial
      | some raw =>
        obtain ⟨hdvd, hlt, hheap, hblocks⟩ :=
          heap_of_fits (fits_firstFit (f := fun a => fitsHeap pg s a len) hfit)
        exact ⟨hdvd, le_of_lt hlt, hheap, hblocks⟩
    | _ => trivial
  | openPath path =>
    simp only [Machine.answer]
    cases hlook : m.world.lookup path with
    | none => trivial
    | some opened => exact hlook
  | readExactAt src off n =>
    simp only [Machine.answer]
    split
    · rfl
    · trivial
  | _ => trivial

/-- **A run of the machine is a run of the address space.** -/
theorem Machine.reaches {ε α : Type} (m : Machine) (pg : PageSize) (p : Prog Host ε α) (s : Space) :
    Reaches (step pg m.world) s p (p.run (I := Host) (m.exec pg) s).1
      (p.run (I := Host) (m.exec pg) s).2.1 (.done (p.run (I := Host) (m.exec pg) s).2.2) :=
  run_reaches (H := step pg m.world) (fun _ op => ⟨m.answers op, rfl⟩) p s

end Step

/-! ### Files for the machine -/

def encodePhdr (ph : Phdr) : Bytes :=
  toLe 4 ph.pType ++ toLe 4 ph.pFlags ++ toLe 8 ph.pOffset ++ toLe 8 ph.pVaddr ++
    toLe 8 ph.pPaddr ++ toLe 8 ph.pFilesz ++ toLe 8 ph.pMemsz ++ toLe 8 ph.pAlign

/-- A file with these program headers right behind the executable header. -/
def buildElf (arch : Arch) (eType eEntry : Nat) (phdrs : List Phdr) (body : Bytes) : Bytes :=
  ELFMAG ++ [ELFCLASS64, ELFDATA2LSB, EV_CURRENT, ELFOSABI_NONE] ++ List.replicate 8 0 ++
    toLe 2 eType ++ toLe 2 (EM_NATIVE arch) ++ toLe 4 1 ++ toLe 8 eEntry ++ toLe 8 EHDR_SIZE ++
    toLe 8 0 ++ toLe 4 0 ++ toLe 2 EHDR_SIZE ++ toLe 2 PHDR_SIZE ++ toLe 2 phdrs.length ++
    toLe 2 0 ++ toLe 2 0 ++ toLe 2 0 ++ phdrs.flatMap encodePhdr ++ body

def page4K : PageSize := ⟨12, by decide⟩

/-- Text that starts in the middle of a page and a `.bss` segment of two pages. -/
def smallPhdrs : List Phdr :=
  [⟨PT_LOAD, PF_R ||| PF_X, 0x100, 0x1100, 0x1100, 3, 3, 0x1000⟩,
    ⟨PT_LOAD, PF_R ||| PF_W, 0, 0x3000, 0x3000, 0, 0x1800, 0x1000⟩]

/-- A small position-independent program with this entry point. -/
def smallElf (eEntry : Nat) : Bytes :=
  buildElf .x86_64 ET_DYN eEntry smallPhdrs (List.replicate 80 0 ++ [0x90, 0x90, 0xc3])

def smallImage (eEntry : Nat) : Image := imageOf (ehdrAt (smallElf eEntry)) smallPhdrs [0, 1]

theorem parse_smallElf :
    parseSlice .x86_64 (smallElf 0x1100) page4K = some (ok (smallImage 0x1100)) := by
  decide +kernel

/-- `/ld`. -/
def LD : Bytes := [0x2f, 0x6c, 0x64]

/-- The small program with the interpreter `/ld`. -/
def dynPhdrs : List Phdr := ⟨PT_INTERP, PF_R, 0xe8, 0, 0, 4, 4, 1⟩ :: smallPhdrs

def dynElf : Bytes :=
  buildElf .x86_64 ET_DYN 0x1100 dynPhdrs (LD ++ List.replicate 21 0 ++ [0x90, 0x90, 0xc3])

def dynImage : Image := imageOf (ehdrAt dynElf) dynPhdrs [1, 2]

theorem parse_dynElf : parseSlice .x86_64 dynElf page4K = some (ok dynImage) := by
  decide +kernel

/-- A world with one file, at every path and under every descriptor, in which
    protections can be changed. -/
def oneFile (f : Bytes) : World where
  lookup _ := some ⟨⟨0, some f.length⟩, some 3⟩
  bytes _ := f
  fdBytes _ := f
  accepts _ _ _ := true
  unmaps := true

def dynOpened : Opened := ⟨⟨0, some dynElf.length⟩, some 3⟩

/-- A world in which the program has no interpreter. -/
def noInterp : World :=
  { oneFile dynElf with lookup := fun path => if path = LD then none else some dynOpened }

/-- An address space with nothing mapped but a heap of 16 pages at `0x100000`. -/
def emptySpace : Space where
  prot p := if 0x100 ≤ p ∧ p < 0x110 then some RW else none
  mem _ := 0xaa
  blocks := []

/-- A machine with one file that searches so many pages for a free range. -/
def machine (f : Bytes) (slots : Nat) : Machine := ⟨oneFile f, 0x10000, 0x100000, slots⟩

end ElfLoader.AddressSpace
