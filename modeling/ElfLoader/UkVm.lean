import ElfLoader.AddressSpace
import ElfLoader.LoadCalls
import ElfLoader.Shim

/-!
# `UkVm` is the `Vm` the loader was written for

`kernelStep` says what the functions of the unikernel do to an address space, in the words
of their documentation.  On top of them, in every configuration of the shim, the calls of
the loader do what `step` says they do, so that a load through `sys.rs` and `glue/shim.c`
is a load on the address space of `AddressSpace.lean`.
-/

namespace ElfLoader.Shim

open ElfLoader Outcome Layout Loader Reservation AddressSpace App FileRead
open ElfLoader.Prog hiding run

/-- What stays the same while the loader runs. -/
structure KernelWorld where
  /-- The content of the file behind a descriptor; its size is an `off_t`. -/
  file : Int32 → { f : Bytes // f.length < 2 ^ 63 }
  mprotects : (addr len prot : Nat) → Bool
  munmaps : Bool
  /-- Whether there is an active address space for `uk_vma_set_attr`. -/
  vas : Bool
  setsAttr : (start len : Nat) → PageAttr → Bool

def PageAttr.prot (attr : PageAttr) : Nat :=
  let p := PROT_NONE
  let p := if attr.read then p ||| PROT_READ else p
  let p := if attr.write then p ||| PROT_WRITE else p
  if attr.exec then p ||| PROT_EXEC else p

/-- What the first bytes of a mapping are. -/
def KernelWorld.fill (k : KernelWorld) (flags : MapFlags) (fd : Int32) (off : Int64) (x : Nat) :
    UInt8 :=
  if flags.anonymous then 0 else (k.file fd).val.getD (off.toNatClampNeg + x) 0

/-- A range taken from the free pages. -/
def FreshRange (pg : Elf.PageSize) (s : Space) (raw len : Nat) : Prop :=
  raw ≠ 0 ∧ pg.bytes ∣ raw ∧ raw + len ≤ 2 ^ 64 ∧ s.Free pg raw len

/-- A block of the heap, whose pages can be read and written; its address is no other's. -/
def FreshBlock (pg : Elf.PageSize) (s : Space) (p size : Nat) : Prop :=
  p + size ≤ 2 ^ 64 ∧ (∀ q, Touches pg.bytes p size q → s.prot q = some RW) ∧
    ∀ blk ∈ s.blocks, blk.1 ≠ p ∧ (p + size ≤ blk.1 ∨ blk.1 + blk.2 ≤ p)

/-- The answers the documentation allows. -/
def KernelAnswers (pg : Elf.PageSize) (k : KernelWorld) (s : Space) : (op : KernelOp) → op.Res → Prop
  | .mmap addr len _ flags _ off, (some raw, _) =>
      (if flags.fixed then raw = addr else FreshRange pg s raw len) ∧
        (flags.anonymous = false → 0 ≤ off)
  | .mmap .., (none, e) => 0 ≤ e
  | .munmap .., (rc, e) => (rc = 0 ∧ k.munmaps = true) ∨ (rc < 0 ∧ 0 < e ∧ k.munmaps = false)
  | .mprotect addr len prot, (rc, e) =>
      (rc = 0 ∧ k.mprotects addr len prot = true) ∨
        (rc < 0 ∧ 0 < e ∧ k.mprotects addr len prot = false)
  | .ukVasGetActive, isErr => isErr = !k.vas
  | .ukVmaSetAttr start len attr, rc =>
      (rc = 0 ∧ k.setsAttr start len attr = true) ∨
        (rc < 0 ∧ 0 < -rc ∧ k.setsAttr start len attr = false)
  | .ukMemalign align size, p => p = 0 ∨ (align ∣ p ∧ FreshBlock pg s p size)
  | .file (.pread fd len off), r =>
      pread (k.file fd).val (.pread fd len off) r ∧ (0 ≤ r.1 → 0 ≤ off)
  | _, _ => True

def kernelAfter (pg : Elf.PageSize) (k : KernelWorld) (s : Space) : (op : KernelOp) → op.Res → Space
  | .mmap _ len prot flags fd off, (some raw, _) => s.mapIn pg raw len prot (k.fill flags fd off)
  | .munmap addr len, (rc, _) => if rc < 0 then s else s.unmapped pg addr len
  | .mprotect addr len prot, (rc, _) => if rc < 0 then s else s.withProt pg addr len prot
  | .ukVmaSetAttr start len attr, rc => if rc < 0 then s else s.withProt pg start len attr.prot
  | .ukMemalign _ size, p => if p = 0 then s else { s with blocks := (p, size) :: s.blocks }
  | .ukFree p, _ => { s with blocks := s.blocks.eraseP fun blk => blk.1 == p }
  | .copyNonoverlapping addr data, _ => s.written addr data
  | .writeBytes addr len, _ => s.zeroed addr len
  | _, _ => s

def kernelStep (pg : Elf.PageSize) (k : KernelWorld) : Handler Kernel Space := fun s op r s' =>
  KernelAnswers pg k s op r ∧ s' = kernelAfter pg k s op r

/-- A read that fails at an offset a file may have. -/
def spurious : (op : FileOp) → op.Res → Bool
  | .pread _ _ off, (n, _) => decide (n < 0) && decide (0 ≤ off)

/-- The reads of the kernel alone, with a note of whether one has failed. -/
def fileStep (pg : Elf.PageSize) (k : KernelWorld) (s : Space) : Handler FileCalls Bool :=
  fun trouble op r trouble' =>
    KernelAnswers pg k s (.file op) r ∧ trouble' = (trouble || spurious op r)

/-- What a load owes to the functions of the kernel.  Ranges are inside the address space,
    and made of whole pages where pages are mapped or protected; an alignment is one
    `uk_posix_memalign` takes; a read has a buffer.  As `sys.rs` promises in its comments, raw
    writes go to memory that can be written, and only a live block is freed.  No file is
    opened or closed. -/
def KernelSafe (pg : Elf.PageSize) (s : Space) : KernelOp → Prop
  | .mmap addr len prot flags _ _ =>
      PageRange pg addr len ∧ prot < 8 ∧ (flags.fixed = true → addr ≠ 0)
  | .munmap addr len => PageRange pg addr len
  | .mprotect addr len prot => PageRange pg addr len ∧ prot < 8
  | .ukVasGetActive => True
  | .ukVmaSetAttr start len _ => PageRange pg start len
  | .ukMemalign align size => (∃ n, align = 2 ^ n) ∧ POINTER_SIZE ≤ align ∧ size < 2 ^ 64
  | .ukFree p => ∃ len, (p, len) ∈ s.blocks
  | .copyNonoverlapping addr data =>
      addr + data.length ≤ 2 ^ 64 ∧ ∀ x, addr ≤ x → x < addr + data.length → s.Writable pg x
  | .writeBytes addr len =>
      addr + len ≤ 2 ^ 64 ∧ ∀ x, addr ≤ x → x < addr + len → s.Writable pg x
  | .invalidateIcacheRange addr len => 0 < len ∧ addr + len ≤ 2 ^ 64
  | .file (.pread _ len _) => 0 < len ∧ len ≤ COPY_CHUNK
  | .tryReserve _ => True
  | .openRdonly _ => False
  | .close _ => False
  | .fstat _ => False

/-- The world of the loader above this one. -/
def worldOf (cfg : Config) (k : KernelWorld) : World where
  lookup _ := none
  bytes handle := (k.file (.ofNat handle)).val
  fdBytes fd := (k.file (.ofInt fd)).val
  accepts addr len prot :=
    if cfg.libposixMmap then k.mprotects addr len prot
    else cfg.libukvmem && k.vas && k.setsAttr addr len
      ⟨prot &&& ELFRS_PROT_READ != 0, prot &&& ELFRS_PROT_WRITE != 0,
        prot &&& ELFRS_PROT_EXEC != 0⟩
  unmaps := cfg.libposixMmap && k.munmaps

/-- `step`, where no range is granted at address 0. -/
def stepNonzero (pg : Elf.PageSize) (w : World) : Handler Host Space := fun s op r s' =>
  step pg w s op r s' ∧ Nonzero op r

/-- The calls of a load: their arguments, that writes are allowed and that what is freed
    is live. -/
structure LoadPre (pg : Elf.PageSize) (src : Source) (fd : Option Int) (s : Space) (op : HostOp) :
    Prop where
  args : LoadCall pg src fd op
  writes : WritesAllowed pg s op
  live : ∀ a len, op = .vm (.freeAligned a len) → (a, len) ∈ s.blocks

/-- The same address space, whose blocks are told apart by their addresses. -/
def Same (s t : Space) : Prop := t = s ∧ (s.blocks.map Prod.fst).Nodup

/-! ### The routines of `sys.rs` -/

section Calls

variable {pg : Elf.PageSize} {k : KernelWorld} {s : Space} {α : Type} {cfg : Config}

abbrev Carries (pg : Elf.PageSize) (k : KernelWorld) (p : Prog Kernel Empty α)
    (Z : Space → α → Prop) (s : Space) : Prop :=
  wp (kernelStep pg k) (KernelSafe pg) p (post Z (fun _ _ => True) False) s

/-- A routine that fails with a positive number has an answer for the loader. -/
theorem wp_answer {σ : Type} {H : Handler Kernel σ} {pre : σ → KernelOp → Prop} {t : σ}
    {p : Prog Kernel Errno α} {Z : σ → Except Error α → Prop}
    (hp : wp H pre p
      (post (fun t a => Z t (.ok a)) (fun t e => 0 < e ∧ ∀ e', Z t (.error e')) False) t) :
    wp H pre (answer p) (post Z (fun _ _ => True) False) t := by
  apply wp_bind.mpr
  apply wp_attempt.mpr
  apply wp_mono hp
  intro t r hr
  cases r with
  | ok a => exact hr
  | panic => exact hr
  | err e =>
    rcases hr with ⟨hpos, hZ⟩
    change wp _ _ (if h : 0 < e then _ else _) _ t
    rw [dif_pos hpos]
    exact hZ _

/-- The protection bits go through the shim as they are. -/
theorem elfrsToProt_eq : ∀ prot < 8, elfrsToProt prot = prot := by decide

theorem PageAttr.prot_eq : ∀ prot < 8,
    PageAttr.prot ⟨prot &&& ELFRS_PROT_READ != 0, prot &&& ELFRS_PROT_WRITE != 0,
      prot &&& ELFRS_PROT_EXEC != 0⟩ = prot := by decide

/-- What `elfrs_map` returns: nothing and an error number, or a mapping at the address asked
    for, if it is to be replaced, and on free pages otherwise. -/
def Mapping (pg : Elf.PageSize) (k : KernelWorld) (s : Space) (addr len prot : Nat) (kind fd : Int32)
    (off : Int64) (replace : Bool) (t : Space) (r : Nat × Int32) : Prop :=
  (r.1 = 0 ∧ 0 < r.2 ∧ t = s) ∨
    (r.1 ≠ 0 ∧ (if replace then r.1 = addr else FreshRange pg s r.1 len) ∧
      (kind ≠ ELFRS_MAP_ANON → 0 ≤ off) ∧
      t = s.mapIn pg r.1 len prot (k.fill ⟨kind == ELFRS_MAP_ANON, false⟩ fd off))

theorem wp_elfrsMap {ε : Type} {addr len prot : Nat} {kind fd : Int32} {off : Int64} {replace : Bool}
    (hrange : PageRange pg addr len) (hprot : prot < 8) (haddr : replace = true → addr ≠ 0) :
    wp (kernelStep pg k) (KernelSafe pg)
      (elfrsMap cfg addr len prot kind fd off replace : Prog Kernel ε (Nat × Int32))
      (post (Mapping pg k s addr len prot kind fd off replace) (fun _ _ => False) False) s := by
  unfold elfrsMap
  split
  · apply wp_bind.mpr
    constructor
    · rw [elfrsToProt_eq prot hprot]
      refine ⟨hrange, hprot, ?_⟩
      intro hfixed
      exact haddr (Bool.and_eq_true_iff.mp hfixed).2
    rintro ⟨got, e⟩ t ⟨hans, rfl⟩
    rw [elfrsToProt_eq prot hprot] at *
    cases got with
    | none =>
      have hpos : 0 < (if e ≠ 0 then e else errno Error.ENOMEM) := by
        split
        · rename_i hne
          exact Int32.lt_of_le_of_ne hans (Ne.symm hne)
        · decide
      exact Or.inl ⟨rfl, hpos, rfl⟩
    | some raw =>
      rcases hans with ⟨hplace, hoff⟩
      have hfixed : (addr != 0 && replace) = replace := by
        cases replace with
        | false => exact Bool.and_false _
        | true => simpa using haddr rfl
      have hfill : k.fill ⟨kind == ELFRS_MAP_ANON, addr != 0 && replace⟩
          (if kind == ELFRS_MAP_ANON then -1 else fd) (if kind == ELFRS_MAP_ANON then 0 else off) =
          k.fill ⟨kind == ELFRS_MAP_ANON, false⟩ fd off := by
        funext x
        unfold KernelWorld.fill
        cases kind == ELFRS_MAP_ANON with
        | true => rfl
        | false => rfl
      simp only [hfixed] at hplace
      refine Or.inr ⟨?_, hplace, ?_, ?_⟩
      · cases replace with
        | false => exact hplace.1
        | true =>
          rw [if_pos rfl] at hplace
          rw [hplace]
          exact haddr rfl
      · intro hkind
        have hfile : (kind == ELFRS_MAP_ANON) = false := by simpa using hkind
        simpa [hfile] using hoff hfile
      · rw [← hfill]
        rfl
  · exact Or.inl ⟨rfl, by decide, rfl⟩

theorem absErr_of_pos {e : Int32} (h : 0 < e) : (absErr e : Outcome Errno α) = err e := if_pos h

theorem toInt_offset (off : Nat) (hlt : off < 2 ^ 64) :
    (Int64.ofNat off).toInt = if off < 2 ^ 63 then (off : Int) else off - 2 ^ 64 := by
  rw [Int64.toInt_ofNat', Int.bmod_def, Int64.size]
  split
  · omega
  · omega

/-- An offset that is not negative is the offset it was made from. -/
theorem toNat_offset {off : Nat} (hlt : off < 2 ^ 64) (hnonneg : 0 ≤ Int64.ofNat off) :
    (Int64.ofNat off).toInt = off := by
  have hint : (0 : Int) ≤ (Int64.ofNat off).toInt := Int64.le_iff_toInt_le.mp hnonneg
  rw [toInt_offset off hlt] at *
  split
  · rfl
  · rename_i hbig
    rw [if_neg hbig] at hint
    omega

theorem toNatClampNeg_offset {off : Nat} (hlt : off < 2 ^ 64) (hnonneg : 0 ≤ Int64.ofNat off) :
    (Int64.ofNat off).toNatClampNeg = off := by
  rw [← Int64.toNat_toInt, toNat_offset hlt hnonneg, Int.toNat_natCast]

theorem toNat_offset_neg {off : Nat} (hneg : ¬ 0 ≤ Int64.ofNat off) : 2 ^ 63 ≤ off := by
  by_contra hsmall
  apply hneg
  apply Int64.le_iff_toInt_le.mpr
  rw [Int64.toInt_ofNat_of_lt (Nat.lt_of_not_le hsmall)]
  exact Int.natCast_nonneg off

/-- The bytes of a mapping are those the loader asked for. -/
theorem fill_eq {src : MapSrc} (cfg : Config) {kind fd : Int32} {off : Int64}
    (hsrc : UkVm.sourceArgs src = (kind, fd, off))
    (hlt : ∀ fd off, src = .file fd off → off < 2 ^ 64)
    (hoff : kind ≠ ELFRS_MAP_ANON → 0 ≤ off) :
    k.fill ⟨kind == ELFRS_MAP_ANON, false⟩ fd off = (worldOf cfg k).fill src := by
  funext x
  cases src with
  | anon =>
    cases hsrc
    rfl
  | file fd' off' =>
    cases hsrc
    have hle := toNatClampNeg_offset (hlt fd' off' rfl) (hoff (by decide))
    change (k.file (.ofInt fd')).val.getD ((Int64.ofNat off').toNatClampNeg + x) 0 = _
    rw [hle]
    rfl

/-- The calls of the loader, from a state of the kernel. -/
abbrev CarriesOut (cfg : Config) (k : KernelWorld) (s : Space) (op : HostOp)
    (p : Prog Kernel Empty op.Res) : Prop :=
  Carries cfg.page k p (fun t r => ∃ s', stepNonzero cfg.page (worldOf cfg k) s op r s' ∧ Same s' t) s

section Routines

variable (hs : (s.blocks.map Prod.fst).Nodup)
include hs

theorem carries_map {at' : Where} {len prot : Nat} {src : MapSrc}
    (hrange : PageRange cfg.page (Where.addr at') len) (hat : at' ≠ .exact 0) (hprot : prot < 8)
    (hlt : ∀ fd off, src = .file fd off → off < 2 ^ 64) :
    CarriesOut cfg k s (.vm (.map at' len prot src)) (answer (UkVm.map cfg at' len prot src)) := by
  apply wp_answer
  unfold UkVm.map
  rcases hplace : UkVm.placeArgs at' with ⟨addr, replace⟩
  rcases hsrc : UkVm.sourceArgs src with ⟨kind, fd, off⟩
  have haddr : replace = true → addr ≠ 0 := by
    rintro rfl rfl
    cases at' with
    | anywhere => cases hplace
    | hint a => cases hplace
    | exact a =>
      cases hplace
      exact hat rfl
  have hplaced : addr = Where.addr at' := by
    cases at' <;> cases hplace <;> rfl
  apply wp_bind_err (wp_elfrsMap (hplaced ▸ hrange) hprot haddr)
  · intro t e hfalse
    exact hfalse.elim
  rintro t ⟨got, e⟩ hgot
  dsimp only
  rcases hgot with ⟨hzero, hpos, rfl⟩ | ⟨hne, hwhere, hoff, rfl⟩
  · dsimp only at hzero hpos
    rw [if_pos hzero, absErr_of_pos hpos]
    exact ⟨hpos, fun e' => ⟨t, ⟨⟨by cases at' <;> trivial, rfl⟩, by cases at' <;> trivial⟩, rfl, hs⟩⟩
  · dsimp only at hne hwhere
    rw [if_neg hne]
    refine ⟨_, ⟨⟨?_, rfl⟩, ?_⟩, ?_, hs⟩
    · cases at' with
      | anywhere =>
        cases hplace
        exact hwhere.2
      | hint a =>
        cases hplace
        exact hwhere.2
      | exact a =>
        cases hplace
        exact hwhere
    · cases at' with
      | anywhere => exact hne
      | hint a => exact hne
      | exact a => trivial
    · exact congrArg (s.mapIn cfg.page got len prot) (fill_eq cfg hsrc hlt hoff)

omit hs in
theorem neg_neg_of_pos {e : Int32} (h : 0 < e) : -e < 0 := by
  have hpos : 0 < e.toInt := Int32.lt_iff_toInt_lt.mp h
  have hmax := e.toInt_lt
  apply Int32.lt_iff_toInt_lt.mpr
  rw [Int32.toInt_neg, Int.bmod_eq_of_le_mul_two]
  · exact Int.neg_neg_of_pos hpos
  · omega
  · omega

omit hs in
theorem fromC_neg {e : Errno} (h : 0 < e) : fromC (-e) = err e := by
  rw [fromC, if_pos (neg_neg_of_pos h), Int32.neg_neg]

theorem carries_unmap {addr len : Nat} (hrange : PageRange cfg.page addr len) :
    CarriesOut cfg k s (.vm (.unmap addr len)) (answer (UkVm.unmap cfg addr len)) := by
  apply wp_answer
  unfold UkVm.unmap elfrsUnmap
  split
  · rename_i hmmap
    rw [bind_assoc]
    apply wp_bind.mpr
    constructor
    · exact hrange
    rintro ⟨rc, e⟩ t ⟨hans, rfl⟩
    rcases hans with ⟨rfl, hok⟩ | ⟨hneg, hpos, hno⟩
    · exact ⟨_, ⟨⟨trivial, rfl⟩, trivial⟩, rfl, hs⟩
    · change post _ _ _ _ (fromC (if rc < 0 then -e else 0))
      rw [if_pos hneg, fromC_neg hpos]
      refine ⟨hpos, fun e' => ⟨s, ⟨⟨?_, rfl⟩, trivial⟩, if_pos hneg, hs⟩⟩
      change (cfg.libposixMmap && k.munmaps) = false
      rw [hno, Bool.and_false]
  · rename_i hmmap
    refine ⟨by decide, fun e' => ⟨s, ⟨⟨?_, rfl⟩, trivial⟩, rfl, hs⟩⟩
    change (cfg.libposixMmap && k.munmaps) = false
    simp [hmmap]

omit hs in
theorem roundUp_of_dvd {a v : Nat} (ha : 0 < a) (h : a ∣ v) : roundUp a v = v :=
  Nat.le_antisymm (roundUp_le ha h (Nat.le_refl v)) (le_roundUp ha v)

omit hs in
/-- A range of whole pages is aligned already. -/
theorem alignedRange_eq {addr len : Nat} (hrange : PageRange pg addr len) :
    alignedRange pg.bytes addr len = (addr, len) := by
  rcases hrange with ⟨haddr, hlen, hend, hlt⟩
  have hword : pg.bytes ∣ 2 ^ 64 := Nat.pow_dvd_pow 2 (Nat.le_of_lt pg.shift_lt)
  have hdvd : pg.bytes ∣ (addr + len) % 2 ^ 64 :=
    (Nat.dvd_mod_iff hword).mpr (Nat.dvd_add haddr hlen)
  unfold alignedRange
  simp only [roundDown_of_dvd haddr, roundUp_of_dvd pg.pos hdvd, Nat.mod_mod, Prod.mk.injEq,
    true_and]
  rcases Nat.lt_or_eq_of_le hend with hin | hfull
  · rw [Nat.mod_eq_of_lt hin]
    omega
  · rw [hfull, Nat.mod_self]
    omega

theorem carries_protect {addr len prot : Nat} (hrange : PageRange cfg.page addr len)
    (hprot : prot < 8) :
    CarriesOut cfg k s (.vm (.protect addr len prot)) (answer (UkVm.protect cfg addr len prot)) := by
  -- the abstract call, when the change is enforced and when it is not
  have hok (haccept : (worldOf cfg k).accepts addr len prot = true) :
      ∃ s', stepNonzero cfg.page (worldOf cfg k) s (.vm (.protect addr len prot))
        (.ok () : Except Error Unit) s' ∧ Same s' (s.withProt cfg.page addr len prot) :=
    ⟨_, ⟨⟨haccept, rfl⟩, trivial⟩, rfl, hs⟩
  have herr (haccept : (worldOf cfg k).accepts addr len prot = false) (e' : Error) :
      ∃ s', stepNonzero cfg.page (worldOf cfg k) s (.vm (.protect addr len prot))
        (.error e' : Except Error Unit) s' ∧ Same s' s :=
    ⟨s, ⟨⟨haccept, rfl⟩, trivial⟩, rfl, hs⟩
  apply wp_answer
  unfold UkVm.protect elfrsProtect
  split
  · rename_i hmmap
    have haccepts : (worldOf cfg k).accepts addr len prot = k.mprotects addr len prot := if_pos hmmap
    rw [bind_assoc]
    apply wp_bind.mpr
    constructor
    · rw [elfrsToProt_eq prot hprot]
      exact ⟨hrange, hprot⟩
    rintro ⟨rc, e⟩ t ⟨hans, rfl⟩
    rw [elfrsToProt_eq prot hprot] at *
    rcases hans with ⟨rfl, hyes⟩ | ⟨hneg, hpos, hno⟩
    · exact hok (haccepts.trans hyes)
    · change post _ _ _ _ (fromC (if rc < 0 then -e else 0))
      rw [if_pos hneg, fromC_neg hpos, kernelAfter, if_pos hneg]
      exact ⟨hpos, herr (haccepts.trans hno)⟩
  · rename_i hmmap
    have haccepts : (worldOf cfg k).accepts addr len prot = (cfg.libukvmem && k.vas &&
        k.setsAttr addr len ⟨prot &&& ELFRS_PROT_READ != 0, prot &&& ELFRS_PROT_WRITE != 0,
          prot &&& ELFRS_PROT_EXEC != 0⟩) := if_neg hmmap
    split
    · rename_i hvmem
      rw [bind_assoc]
      apply wp_bind.mpr
      constructor
      · trivial
      rintro isErr t ⟨hans, ht⟩
      change isErr = !k.vas at hans
      change t = s at ht
      rw [ht]
      change wp _ _ ((if isErr = true then _ else _) >>= _) _ s
      split
      · rename_i herror
        have hvas : k.vas = false := by simpa [herror] using hans
        refine ⟨by decide, herr (haccepts.trans ?_)⟩
        rw [hvas, Bool.and_false, Bool.false_and]
      · rename_i hactive
        have hvas : k.vas = true := by simpa [hactive] using hans
        rw [alignedRange_eq hrange]
        apply wp_bind.mpr
        constructor
        · exact hrange
        rintro rc t ⟨hans, rfl⟩
        rw [hvmem, hvas, Bool.true_and, Bool.true_and] at haccepts
        have hafter (hrc : ¬ rc < 0) : kernelAfter cfg.page k s (.ukVmaSetAttr addr len
            ⟨prot &&& ELFRS_PROT_READ != 0, prot &&& ELFRS_PROT_WRITE != 0,
              prot &&& ELFRS_PROT_EXEC != 0⟩) rc = s.withProt cfg.page addr len prot := by
          rw [kernelAfter, if_neg hrc, PageAttr.prot_eq prot hprot]
        rcases hans with ⟨rfl, hyes⟩ | ⟨hneg, hpos, hno⟩
        · rw [hafter Int32.lt_irrefl]
          exact hok (haccepts.trans hyes)
        · change post _ _ _ _ (fromC rc)
          rw [fromC, if_pos hneg, kernelAfter, if_pos hneg]
          exact ⟨hpos, herr (haccepts.trans hno)⟩
    · rename_i hvmem
      refine ⟨by decide, herr (haccepts.trans ?_)⟩
      simp [hvmem]

theorem carries_write {addr : Nat} {data : Bytes} (hend : addr + data.length ≤ 2 ^ 64)
    (hwrites : ∀ x, addr ≤ x → x < addr + data.length → s.Writable cfg.page x) :
    CarriesOut cfg k s (.vm (.write addr data)) (answer (UkVm.write addr data)) := by
  apply wp_answer
  constructor
  · exact ⟨hend, hwrites⟩
  rintro r t ⟨-, rfl⟩
  exact ⟨_, ⟨⟨trivial, rfl⟩, trivial⟩, rfl, hs⟩

theorem carries_zero {addr len : Nat} (hend : addr + len ≤ 2 ^ 64)
    (hwrites : ∀ x, addr ≤ x → x < addr + len → s.Writable cfg.page x) :
    CarriesOut cfg k s (.vm (.zero addr len)) (answer (UkVm.zero addr len)) := by
  apply wp_answer
  constructor
  · exact ⟨hend, hwrites⟩
  rintro r t ⟨-, rfl⟩
  exact ⟨_, ⟨⟨trivial, rfl⟩, trivial⟩, rfl, hs⟩

theorem carries_icacheSync {addr len : Nat} (hend : addr + len ≤ 2 ^ 64) :
    CarriesOut cfg k s (.vm (.icacheSync addr len)) (elfrsIcacheSync cfg addr len) := by
  have hstill : ∃ s', stepNonzero cfg.page (worldOf cfg k) s (.vm (.icacheSync addr len)) () s' ∧
      Same s' s := ⟨s, ⟨⟨trivial, rfl⟩, trivial⟩, rfl, hs⟩
  unfold elfrsIcacheSync
  split
  · split
    · exact hstill
    · rename_i hlen
      constructor
      · exact ⟨Nat.pos_of_ne_zero hlen, hend⟩
      rintro r t ⟨-, rfl⟩
      exact hstill
  · exact hstill

omit hs in
/-- What the shim makes of an alignment is still a multiple of the page. -/
theorem dvd_pointerAlign {align : Nat} (hdvd : pg.bytes ∣ align) (hne : align ≠ 0) :
    pg.bytes ∣ if align < POINTER_SIZE then POINTER_SIZE else align := by
  split
  · rename_i hsmall
    have hle : pg.bytes ≤ align := Nat.le_of_dvd (Nat.pos_of_ne_zero hne) hdvd
    have hshift : pg.shift ≤ 3 := by
      by_contra hbig
      have hpow : 2 ^ 3 ≤ pg.bytes := Nat.pow_le_pow_right (by decide) (by omega)
      simp only [POINTER_SIZE] at hsmall
      omega
    exact Nat.pow_dvd_pow 2 hshift
  · exact hdvd

theorem carries_allocAligned {align len : Nat} (halign : IsAlign cfg.page align)
    (hlen : len < 2 ^ 64) :
    CarriesOut cfg k s (.vm (.allocAligned align len)) (answer (UkVm.allocAligned align len)) := by
  apply wp_answer
  unfold UkVm.allocAligned elfrsMemalign
  apply wp_bind.mpr
  constructor
  · refine ⟨?_, ?_, hlen⟩
    · split
      · exact ⟨3, rfl⟩
      · rcases halign with ⟨n, -, -, rfl⟩
        exact ⟨n, rfl⟩
    · split
      · exact Nat.le_refl _
      · exact Nat.not_lt.mp ‹_›
  rintro p t ⟨hans, rfl⟩
  change wp _ _ (if p = 0 then _ else _) _ _
  split
  · rename_i hzero
    rw [kernelAfter, if_pos hzero]
    exact ⟨by decide, fun e' => ⟨s, ⟨⟨trivial, rfl⟩, trivial⟩, rfl, hs⟩⟩
  · rename_i hsome
    rw [kernelAfter, if_neg hsome]
    rcases hans with hzero | ⟨hdvd, hend, hrw, hapart⟩
    · exact absurd hzero hsome
    have hpage : cfg.page.bytes ∣ p :=
      Nat.dvd_trans (dvd_pointerAlign halign.page_dvd (Nat.ne_of_gt halign.pos)) hdvd
    refine ⟨_, ⟨⟨⟨hpage, hend, hrw, fun blk hblk => (hapart blk hblk).2⟩, rfl⟩, trivial⟩, rfl, ?_⟩
    refine List.nodup_cons.mpr ⟨?_, hs⟩
    intro hmem
    rcases List.mem_map.mp hmem with ⟨blk, hblk, heq⟩
    exact (hapart blk hblk).1 heq

omit hs in
/-- Where addresses tell blocks apart, a block is erased by its address. -/
theorem eraseP_eq_erase {blocks : List (Nat × Nat)} (hnodup : (blocks.map Prod.fst).Nodup)
    {a len : Nat} (hmem : (a, len) ∈ blocks) :
    blocks.eraseP (fun blk => blk.1 == a) = blocks.erase (a, len) := by
  induction blocks with
  | nil => cases hmem
  | cons blk rest ih =>
    rw [List.map_cons, List.nodup_cons] at hnodup
    rcases List.mem_cons.mp hmem with rfl | hrest
    · rw [List.erase_cons_head]
      exact List.eraseP_cons_of_pos (by simp)
    · have hne : blk.1 ≠ a := by
        rintro rfl
        exact hnodup.1 (List.mem_map.mpr ⟨_, hrest, rfl⟩)
      have hne' : blk ≠ (a, len) := fun heq => hne (congrArg Prod.fst heq)
      rw [List.eraseP_cons_of_neg (by simpa using hne),
        List.erase_cons_tail (by simpa using hne'), ih hnodup.2 hrest]

theorem carries_freeAligned {addr len : Nat} (hlive : (addr, len) ∈ s.blocks) :
    CarriesOut cfg k s (.vm (.freeAligned addr len)) (UkVm.freeAligned addr len) := by
  constructor
  · exact ⟨len, hlive⟩
  rintro r t ⟨-, rfl⟩
  refine ⟨_, ⟨⟨trivial, rfl⟩, trivial⟩, ?_, ?_⟩
  · simp only [kernelAfter, Space.after, eraseP_eq_erase hs hlive]
  · exact hs.sublist (List.Sublist.map _ List.erase_sublist)

theorem carries_tryReserve {n : Nat} :
    CarriesOut cfg k s (.tryReserve n) (get (.tryReserve n)) := by
  constructor
  · trivial
  rintro r t ⟨-, rfl⟩
  exact ⟨t, ⟨⟨trivial, rfl⟩, trivial⟩, rfl, hs⟩

omit hs in
theorem negErr_pos {n : Int64} (hneg : n < 0) (hlow : -2 ^ 31 < n.toInt) :
    ∃ e, (negErr n : Outcome Errno Bytes) = err e ∧ 0 < e := by
  have hint : n.toInt < 0 := Int64.lt_iff_toInt_lt.mp hneg
  refine ⟨(-n).toInt32, if_neg ?_, ?_⟩
  · rintro rfl
    exact absurd hlow (by decide)
  · have hminus : (-n).toInt = -n.toInt := by
      rw [Int64.toInt_neg]
      apply Int.bmod_eq_of_le_mul_two
      · omega
      · omega
    apply Int32.lt_iff_toInt_lt.mpr
    rw [Int64.toInt_toInt32, hminus, Int.bmod_eq_of_le_mul_two]
    · change 0 < -n.toInt
      omega
    · omega
    · omega

omit hs in
/-- The loop of `read_exact_at` on a file of the kernel, wherever it starts: it stores what
    is there; it has an error number if it cannot, and then a read has failed or the file
    ends too early. -/
theorem wp_fileLoop {fd : Int32} {off len done : Nat} {buf : Bytes}
    {h : List (Event FileCalls)} {trouble : Bool} {P : FileOp → Prop}
    (hP : ∀ n off, 0 < n → n ≤ len → P (.pread fd n off)) (hoff : off < 2 ^ 64)
    (hf : Filled (k.file fd).val off len h done buf) :
    wp (fileStep pg k s) (fun _ op => P op) (readLoop fd off len done buf)
      (post (fun trouble' out => trouble' = trouble ∧ out.length = len ∧
          out = bytesAt (k.file fd).val off len ∧ (off + len ≤ (k.file fd).val.length ∨ len = 0))
        (fun trouble' e => 0 < e ∧ (trouble' = true ∨ (k.file fd).val.length < off + len)) False)
      trouble := by
  have hsize := (k.file fd).property
  -- on what is left to read
  induction hleft : len - done using Nat.strongRecOn generalizing done buf h with
  | ind left ih =>
    rw [readLoop]
    split
    · rename_i hlt
      have hinside : off + done < 2 ^ 64 := by
        rcases hf.inside with rfl | hin
        · exact hoff
        · omega
      rw [if_pos hinside]
      constructor
      · exact hP _ _ (Nat.sub_pos_of_lt hlt) (Nat.sub_le len done)
      rintro ⟨n, data⟩ _ ⟨⟨hanswer, hnonneg⟩, rfl⟩
      dsimp only at hnonneg ⊢
      rcases hanswer with ⟨hlow, hneg⟩ | ⟨rfl, hend⟩ | ⟨hpos, hle, hin, hdata⟩
      · rcases negErr_pos hneg hlow with ⟨e, he, hpos⟩
        rw [if_neg (Int64.ne_of_lt hneg), if_pos hneg, he]
        refine ⟨hpos, ?_⟩
        by_cases hreal : 0 ≤ Int64.ofNat (off + done)
        · left
          rw [spurious, decide_eq_true hneg, decide_eq_true hreal]
          exact Bool.or_true trouble
        · right
          -- no file is that long
          have hfar := toNat_offset_neg hreal
          omega
      · have hreal := toNat_offset hinside (hnonneg Int64.le_rfl)
        rw [if_pos rfl]
        refine ⟨by decide, Or.inr ?_⟩
        rw [hreal] at hend
        omega
      · have hreal := toNat_offset hinside (hnonneg (Int64.le_of_lt hpos))
        have hclamp : (n.toNatClampNeg : Int) = n.toInt := by
          have hnpos : 0 < n.toInt := Int64.lt_iff_toInt_lt.mp hpos
          rw [← Int64.toNat_toInt, Int.toNat_of_nonneg (Int.le_of_lt hnpos)]
        rw [hreal, ← hclamp] at hin
        rw [← hclamp] at hle
        rw [toNatClampNeg_offset hinside (hnonneg (Int64.le_of_lt hpos))] at hdata
        have hread : 0 < n.toNatClampNeg := (Int64.toNatClampNeg_pos_iff n).mpr hpos
        have hnext := hf.stored fd (.ofNat (off + done)) hpos (by omega) (by omega) hdata
        have hcalm : spurious (.pread fd (len - done) (.ofNat (off + done))) (n, data) = false := by
          simp [spurious, Int64.lt_asymm hpos]
        rw [hcalm, Bool.or_false, if_neg (Int64.ne_of_lt hpos).symm, if_neg (Int64.lt_asymm hpos),
          if_pos (by omega)]
        exact ih _ (by omega) hnext rfl
    · have heq : done = len := Nat.le_antisymm hf.le (Nat.not_lt.mp ‹_›)
      refine ⟨rfl, hf.length, ?_, ?_⟩
      · rw [← heq, ← hf.bytes, heq, List.take_of_length_le (Nat.le_of_eq hf.length)]
      · rw [← heq]
        exact hf.inside.symm

omit hs in
/-- A buffer filled from a file, wherever the calls of the kernel are accounted for. -/
theorem wp_readBuf {σ : Type} {H : Handler Kernel σ} {pre : σ → KernelOp → Prop}
    {R : Bool → σ → Prop} {fd : Int32} {off n : Nat} {t : σ} {P : FileOp → Prop} (trouble : Bool)
    (hP : ∀ len off, 0 < len → len ≤ n → P (.pread fd len off)) (hoff : off < 2 ^ 64)
    (hfile : Implements (fileStep pg k s) (fun _ op => P op) (fun op => get (.file op)) R H pre)
    (hR : R trouble t) :
    wp H pre (readBuf fd off n)
      (post (fun t' buf => R trouble t' ∧ buf.val = bytesAt (k.file fd).val off n ∧
          (off + n ≤ (k.file fd).val.length ∨ n = 0))
        (fun t' e => 0 < e ∧ ∃ trouble', R trouble' t' ∧
          (trouble' = true ∨ (k.file fd).val.length < off + n)) False) t := by
  have hread := hfile.wp hR
    (wp_fileLoop (by rwa [List.length_replicate]) hoff
      (filled_nil (k.file fd).val off (List.replicate n 0)))
  apply wp_seq hread
  intro t r hr
  rcases hr with ⟨trouble', hR', hr⟩
  rw [List.length_replicate] at hr
  cases r with
  | panic => exact hr
  | err e => exact ⟨hr.1, trouble', hR', hr.2⟩
  | ok out =>
    rcases hr with ⟨rfl, hlen, hout, hin⟩
    change wp _ _ (if h : out.length = n then _ else _) _ _
    rw [dif_pos hlen]
    exact ⟨hR', hout, hin⟩

theorem carries_readExactAt {src : Source} {off n : Nat} (hoff : off < 2 ^ 64)
    (hn : n ≤ COPY_CHUNK) :
    CarriesOut cfg k s (.readExactAt src off n) (answer (readBuf (.ofNat src.handle) off n)) := by
  have hfile : Implements (fileStep cfg.page k s) (fun _ op => KernelSafe cfg.page s (.file op))
      (fun op => get (.file op)) (fun _ t => t = s) (kernelStep cfg.page k)
      (KernelSafe cfg.page) := by
    constructor
    rintro _ t op rfl hsafe
    constructor
    · exact hsafe
    rintro r t' ⟨hans, rfl⟩
    exact ⟨_, ⟨hans, rfl⟩, rfl⟩
  apply wp_answer
  have hsafe (len : Nat) (off : Int64) (hpos : 0 < len) (hle : len ≤ n) :
      KernelSafe cfg.page s (.file (.pread (.ofNat src.handle) len off)) := ⟨hpos, hle.trans hn⟩
  apply wp_post_mono (wp_readBuf false hsafe hoff hfile rfl)
  · rintro t buf ⟨rfl, hbuf, -⟩
    exact ⟨t, ⟨⟨hbuf, rfl⟩, trivial⟩, rfl, hs⟩
  · rintro t e ⟨hpos, _, rfl, -⟩
    exact ⟨hpos, fun e' => ⟨t, ⟨⟨trivial, rfl⟩, trivial⟩, rfl, hs⟩⟩

end Routines

end Calls

/-- **`sys.rs` on `glue/shim.c` implements the traits of the loader**, in every
    configuration. -/
theorem sys_implements (cfg : Config) (opener : VfsOpener) (stack : AppStack) (k : KernelWorld)
    (src : Source) (fd : Option Int) :
    Implements (stepNonzero cfg.page (worldOf cfg k)) (LoadPre cfg.page src fd)
      (sys cfg opener stack) Same (kernelStep cfg.page k) (KernelSafe cfg.page) where
  call := by
    rintro s t op ⟨rfl, hs⟩ hpre
    rcases hpre with ⟨hargs, hwrites, hlive⟩
    cases op with
    | vm op =>
      cases op with
      | map at' len prot src =>
        rcases hargs with ⟨hrange, hat, hprot, hsrc⟩
        exact carries_map hs hrange hat hprot fun fd off h => (hsrc fd off h).2
      | unmap addr len => exact carries_unmap hs hargs
      | protect addr len prot => exact carries_protect hs hargs.1 hargs.2
      | write addr data => exact carries_write hs hargs hwrites
      | zero addr len => exact carries_zero hs hargs hwrites
      | icacheSync addr len => exact carries_icacheSync hs hargs
      | allocAligned align len => exact carries_allocAligned hs hargs.1 hargs.2
      | freeAligned addr len => exact carries_freeAligned hs (hlive addr len rfl)
    | openPath path => exact hargs.elim
    | readExactAt src off n => exact carries_readExactAt hs hargs.2.1 hargs.2.2
    | tryReserve n => exact carries_tryReserve hs
    | stackWrite addr data => exact hargs.elim

end ElfLoader.Shim
