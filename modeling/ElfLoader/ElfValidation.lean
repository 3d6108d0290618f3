import ElfLoader.Elf

/-!
# What the validation steps of the parser establish

Each step of `Image.parse` gets one lemma that says when it succeeds and with
what; callers use these and never look inside the steps.  `Image.Valid` collects
what holds of every image the parser lets through, whatever the source answered
to its reads.
-/

namespace ElfLoader.Elf

open ElfLoader Outcome

/-! ### Rounding -/

namespace PageSize

variable (pg : PageSize)

theorem pos : 0 < pg.bytes := Nat.two_pow_pos _

end PageSize

variable {ε : Type}

theorem alignDown_two_pow {k v : Nat} (hk : k < 64) (hv : v < 2 ^ 64) :
    (alignDown v (2 ^ k) : Outcome ε Nat) = ok (roundDown (2 ^ k) v) := by
  have hpos : 1 ≤ 2 ^ k := Nat.two_pow_pos k
  simp only [alignDown, U64.sub_of_le hpos, ok_bind, U64.not]
  rw [and_mask_eq_roundDown (le_of_lt hk) hv]

theorem alignDown_eq (pg : PageSize) {v : Nat} (hv : v < 2 ^ 64) :
    (alignDown v pg.bytes : Outcome ε Nat) = ok (roundDown pg.bytes v) :=
  alignDown_two_pow pg.shift_lt hv

/-- `align_up` succeeds exactly when the rounded value fits the word. -/
theorem alignUp_two_pow {k : Nat} (v : Nat) (hk : k < 64) :
    (alignUp v (2 ^ k) : Outcome ε (Option Nat)) =
      ok (if roundUp (2 ^ k) v < 2 ^ 64 then some (roundUp (2 ^ k) v) else none) := by
  have hpos : 1 ≤ 2 ^ k := Nat.two_pow_pos k
  have hdvd : 2 ^ k ∣ 2 ^ 64 := Nat.pow_dvd_pow 2 (le_of_lt hk)
  simp only [alignUp, U64.sub_of_le hpos, ok_bind, U64.not]
  by_cases hlt : v + (2 ^ k - 1) < 2 ^ 64
  · have hup : roundUp (2 ^ k) v < 2 ^ 64 := lt_of_le_of_lt (roundDown_le _ _) hlt
    rw [U64.checkedAdd_of_lt hlt, Option.map_some, and_mask_eq_roundDown (le_of_lt hk) hlt,
      if_pos hup]
    rfl
  · have hup : ¬ roundUp (2 ^ k) v < 2 ^ 64 :=
      not_lt.mpr (le_roundDown hpos hdvd (not_lt.mp hlt))
    rw [U64.checkedAdd_of_le (not_lt.mp hlt), Option.map_none, if_neg hup]

theorem alignUp_eq (pg : PageSize) (v : Nat) :
    (alignUp v pg.bytes : Outcome ε (Option Nat)) =
      ok (if roundUp pg.bytes v < 2 ^ 64 then some (roundUp pg.bytes v) else none) :=
  alignUp_two_pow v pg.shift_lt

/-! ### Decoding -/

/-- The little-endian number in the `n` bytes of `f` at `off`. -/
def leAt (f : Bytes) (off n : Nat) : Nat := ofLe (bytesAt f off n)

theorem leAt_lt (f : Bytes) (off n : Nat) : leAt f off n < 256 ^ n := by
  refine lt_of_lt_of_le (ofLe_lt _) (Nat.pow_le_pow_right (by omega) ?_)
  simp [bytesAt]

theorem leAt_bytesAt {f : Bytes} {off n i m : Nat} (h : i + m ≤ n) :
    leAt (bytesAt f off n) i m = leAt f (off + i) m := by
  rw [leAt, bytesAt_bytesAt h, leAt]

/-- Two consecutive elements are a slice. -/
theorem bytesAt_succ (b : Bytes) (off : Nat) {n : Nat} (h : off < b.length) :
    bytesAt b off (n + 1) = b[off] :: bytesAt b (off + 1) n := by
  rw [bytesAt, List.drop_eq_getElem_cons h, List.take_succ_cons, bytesAt]

theorem bytesAt_zero {b : Bytes} {off : Nat} : bytesAt b off 0 = [] := by simp [bytesAt]

theorem u16le_eq {b : Bytes} {off : Nat} (h : off + 2 ≤ b.length) :
    (u16le b off : Outcome ε Nat) = ok (leAt b off 2) := by
  simp only [u16le, leAt, bytesAt_succ b off (by omega),
    bytesAt_succ b (off + 1) (by omega), bytesAt_zero]
  rw [index_of_lt (by omega), index_of_lt (by omega)]
  rfl

theorem u32le_eq {b : Bytes} {off : Nat} (h : off + 4 ≤ b.length) :
    (u32le b off : Outcome ε Nat) = ok (leAt b off 4) := by
  simp only [u32le, leAt, bytesAt_succ b off (by omega),
    bytesAt_succ b (off + 1) (by omega),
    bytesAt_succ b (off + 2) (by omega),
    bytesAt_succ b (off + 3) (by omega), bytesAt_zero]
  rw [index_of_lt (by omega), index_of_lt (by omega), index_of_lt (by omega),
    index_of_lt (by omega)]
  rfl

theorem u64le_eq {b : Bytes} {off : Nat} (h : off + 8 ≤ b.length) :
    (u64le b off : Outcome ε Nat) = ok (leAt b off 8) := by
  rw [u64le, slice_of_le (by omega) h, ok_bind, leAt, bytesAt, Nat.add_sub_cancel_left]

/-- The executable header at the start of `f`, field by field. -/
def ehdrAt (f : Bytes) : Ehdr where
  ident := bytesAt f 0 EI_NIDENT
  eType := leAt f 16 2
  eMachine := leAt f 18 2
  eVersion := leAt f 20 4
  eEntry := leAt f 24 8
  ePhoff := leAt f 32 8
  eShoff := leAt f 40 8
  eFlags := leAt f 48 4
  eEhsize := leAt f 52 2
  ePhentsize := leAt f 54 2
  ePhnum := leAt f 56 2
  eShentsize := leAt f 58 2
  eShnum := leAt f 60 2
  eShstrndx := leAt f 62 2

/-- The program header at offset `off` of `f`, field by field. -/
def phdrAt (f : Bytes) (off : Nat) : Phdr where
  pType := leAt f (off + 0) 4
  pFlags := leAt f (off + 4) 4
  pOffset := leAt f (off + 8) 8
  pVaddr := leAt f (off + 16) 8
  pPaddr := leAt f (off + 24) 8
  pFilesz := leAt f (off + 32) 8
  pMemsz := leAt f (off + 40) 8
  pAlign := leAt f (off + 48) 8

theorem Ehdr.parse_eq {raw : Bytes} (h : raw.length = EHDR_SIZE) :
    Ehdr.parse raw = ok (ehdrAt raw) := by
  have hlen : raw.length = 64 := h
  simp only [Ehdr.parse, guardErr_of (show ¬ raw.length < EHDR_SIZE by omega), ok_bind,
    slice_of_le (show 0 ≤ EI_NIDENT by decide) (show EI_NIDENT ≤ raw.length by
      simp only [EI_NIDENT]; omega)]
  rw [u16le_eq (by omega), u16le_eq (by omega), u32le_eq (by omega), u64le_eq (by omega),
    u64le_eq (by omega), u64le_eq (by omega), u32le_eq (by omega), u16le_eq (by omega),
    u16le_eq (by omega), u16le_eq (by omega), u16le_eq (by omega), u16le_eq (by omega),
    u16le_eq (by omega)]
  rfl

theorem Phdr.parse_eq {raw : Bytes} (h : raw.length = PHDR_SIZE) :
    Phdr.parse raw = ok (phdrAt raw 0) := by
  have hlen : raw.length = 56 := h
  simp only [Phdr.parse, guardErr_of (show ¬ raw.length < PHDR_SIZE by omega), ok_bind]
  rw [u32le_eq (by omega), u32le_eq (by omega), u64le_eq (by omega), u64le_eq (by omega),
    u64le_eq (by omega), u64le_eq (by omega), u64le_eq (by omega), u64le_eq (by omega)]
  simp [phdrAt]

/-- Decoding an entry read into a buffer is decoding it in place. -/
theorem phdrAt_bytesAt {f : Bytes} {off : Nat} :
    phdrAt (bytesAt f off PHDR_SIZE) 0 = phdrAt f off := by
  simp only [phdrAt, Nat.zero_add]
  rw [leAt_bytesAt (by decide), leAt_bytesAt (by decide), leAt_bytesAt (by decide),
    leAt_bytesAt (by decide), leAt_bytesAt (by decide), leAt_bytesAt (by decide),
    leAt_bytesAt (by decide), leAt_bytesAt (by decide)]

/-- Two fields that follow one another and have the same values have the same
    bytes. -/
theorem bytesAt_add_of_leAt {f g : Bytes} {off off' n m : Nat} (hf : off + (n + m) ≤ f.length)
    (hg : off' + (n + m) ≤ g.length) (hn : bytesAt f off n = bytesAt g off' n)
    (hm : leAt f (off + n) m = leAt g (off' + n) m) :
    bytesAt f off (n + m) = bytesAt g off' (n + m) := by
  have hf' := toLe_ofLe (bytesAt f (off + n) m)
  have hg' := toLe_ofLe (bytesAt g (off' + n) m)
  rw [length_bytesAt (by omega)] at hf' hg'
  rw [← bytesAt_append, ← bytesAt_append, hn, ← hf', ← hg']
  exact congrArg (fun v => bytesAt g off' n ++ toLe m v) hm

/-- Every byte of an entry is in one of its fields. -/
theorem phdrAt_inj {f g : Bytes} {off off' : Nat} (hf : off + PHDR_SIZE ≤ f.length)
    (hg : off' + PHDR_SIZE ≤ g.length) (h : phdrAt f off = phdrAt g off') :
    bytesAt f off PHDR_SIZE = bytesAt g off' PHDR_SIZE := by
  simp only [PHDR_SIZE] at hf hg
  simp only [phdrAt, Phdr.mk.injEq] at h
  obtain ⟨h₀, h₁, h₂, h₃, h₄, h₅, h₆, h₇⟩ := h
  have e₀ := bytesAt_add_of_leAt (n := 0) (by omega) (by omega) (by simp [bytesAt]) h₀
  have e₁ := bytesAt_add_of_leAt (by omega) (by omega) e₀ h₁
  have e₂ := bytesAt_add_of_leAt (by omega) (by omega) e₁ h₂
  have e₃ := bytesAt_add_of_leAt (by omega) (by omega) e₂ h₃
  have e₄ := bytesAt_add_of_leAt (by omega) (by omega) e₃ h₄
  have e₅ := bytesAt_add_of_leAt (by omega) (by omega) e₄ h₅
  have e₆ := bytesAt_add_of_leAt (by omega) (by omega) e₅ h₆
  exact bytesAt_add_of_leAt (by omega) (by omega) e₆ h₇

theorem ehdrAt_bytesAt {f : Bytes} : ehdrAt (bytesAt f 0 EHDR_SIZE) = ehdrAt f := by
  simp only [ehdrAt]
  rw [bytesAt_bytesAt (by decide), leAt_bytesAt (by decide), leAt_bytesAt (by decide),
    leAt_bytesAt (by decide), leAt_bytesAt (by decide), leAt_bytesAt (by decide),
    leAt_bytesAt (by decide), leAt_bytesAt (by decide), leAt_bytesAt (by decide),
    leAt_bytesAt (by decide), leAt_bytesAt (by decide), leAt_bytesAt (by decide),
    leAt_bytesAt (by decide), leAt_bytesAt (by decide)]

/-- The fields of a decoded program header fit their words. -/
structure Phdr.Bounded (ph : Phdr) : Prop where
  offset : ph.pOffset < 2 ^ 64
  vaddr : ph.pVaddr < 2 ^ 64
  filesz : ph.pFilesz < 2 ^ 64
  memsz : ph.pMemsz < 2 ^ 64
  align : ph.pAlign < 2 ^ 64

theorem phdrAt_bounded (f : Bytes) (off : Nat) : (phdrAt f off).Bounded where
  offset := leAt_lt f _ 8
  vaddr := leAt_lt f _ 8
  filesz := leAt_lt f _ 8
  memsz := leAt_lt f _ 8
  align := leAt_lt f _ 8

/-! ### Loadable segments -/

theorem checkFits_eq_ok {fin : Nat} {size : Option Nat} {why : String} {u : Unit} :
    checkFits fin size why = ok u ↔ ∀ n ∈ size, fin ≤ n := by
  cases size with
  | none => simp [checkFits]
  | some n => simp [checkFits]

theorem checkFits_ne_panic {fin : Nat} {size : Option Nat} {why : String} :
    checkFits fin size why ≠ panic := by
  cases size with
  | none => exact ok_ne_panic
  | some n => exact guardErr_ne_panic

/-- What `validate_load` asks of a `PT_LOAD` header. -/
structure LoadOk (page : Nat) (size : Option Nat) (ph : Phdr) : Prop where
  filesz_le : ph.pFilesz ≤ ph.pMemsz
  align : ph.pAlign = 0 ∨ ∃ k, ph.pAlign = 2 ^ k
  mem_lt : ph.pVaddr + ph.pMemsz < 2 ^ 64
  file_lt : ph.pOffset + ph.pFilesz < 2 ^ 64
  file_le : ∀ n ∈ size, ph.pOffset + ph.pFilesz ≤ n
  congr : 0 < ph.pFilesz → ph.pVaddr % page = ph.pOffset % page

theorem validateLoad_eq_ok (pg : PageSize) {ph : Phdr} {size : Option Nat} {u : Unit} :
    validateLoad ph pg.bytes size = ok u ↔ LoadOk pg.bytes size ph := by
  have hpos : 1 ≤ pg.bytes := pg.pos
  have hmask (v : Nat) : v &&& (pg.bytes - 1) = v % pg.bytes :=
    Nat.and_two_pow_sub_one_eq_mod v pg.shift
  simp only [validateLoad, bind_eq_ok, guardErr_eq_ok, okOr_eq_ok, U64.checkedAdd_eq_some,
    U64.sub_eq_ok, checkFits_eq_ok]
  constructor
  · rintro ⟨-, hfs, -, hal, -, -, -, ⟨hmem, -⟩, fe, ⟨hfile, rfl⟩, -, hsize, low, ⟨-, rfl⟩, hc⟩
    simp only [hmask] at hc
    refine ⟨by omega, ?_, hmem, hfile, hsize, fun hz => by_contra fun hne => hc ⟨by omega, hne⟩⟩
    by_cases hz : ph.pAlign = 0
    · exact Or.inl hz
    · exact Or.inr (U64.isPowerOfTwo_iff.mp (by_contra fun hp => hal ⟨hz, hp⟩))
  · intro h
    have hpow : ¬ (ph.pAlign ≠ 0 ∧ ¬ U64.isPowerOfTwo ph.pAlign = true) := by
      rintro ⟨hz, hp⟩
      exact hp (U64.isPowerOfTwo_iff.mpr (h.align.resolve_left hz))
    refine ⟨(), not_lt.mpr h.filesz_le, (), hpow, (), fun hb => hpow ⟨by omega, hb.2⟩, _,
      ⟨h.mem_lt, rfl⟩, _, ⟨h.file_lt, rfl⟩, (), h.file_le, _, ⟨hpos, rfl⟩, ?_⟩
    rintro ⟨hz, hne⟩
    rw [hmask, hmask] at hne
    exact hne (h.congr (by omega))

theorem validateLoad_ne_panic (pg : PageSize) (ph : Phdr) (size : Option Nat) :
    validateLoad ph pg.bytes size ≠ panic := by
  have hpos : 1 ≤ pg.bytes := pg.pos
  refine bind_ne_panic guardErr_ne_panic fun _ _ => ?_
  refine bind_ne_panic guardErr_ne_panic fun _ _ => ?_
  refine bind_ne_panic guardErr_ne_panic fun _ _ => ?_
  refine bind_ne_panic okOr_ne_panic fun _ _ => ?_
  refine bind_ne_panic okOr_ne_panic fun _ _ => ?_
  refine bind_ne_panic checkFits_ne_panic fun _ _ => ?_
  rw [U64.sub_of_le hpos, ok_bind]
  exact guardErr_ne_panic

/-- What the classification loop asks of a `PT_INTERP` header. -/
structure InterpOk (size : Option Nat) (ph : Phdr) : Prop where
  filesz_pos : 0 < ph.pFilesz
  filesz_le : ph.pFilesz ≤ INTERP_MAX
  file_le : ∀ n ∈ size, ph.pOffset + ph.pFilesz < 2 ^ 64 ∧ ph.pOffset + ph.pFilesz ≤ n

theorem validateInterp_eq_ok {ph : Phdr} {seen : Option Phdr} {size : Option Nat} {u : Unit} :
    validateInterp ph seen size = ok u ↔ seen = none ∧ InterpOk size ph := by
  simp only [validateInterp, bind_eq_ok, guardErr_eq_ok]
  constructor
  · rintro ⟨-, hseen, -, hlen, hfits⟩
    refine ⟨by simpa using hseen, by omega, by omega, ?_⟩
    intro n hn
    rw [Option.mem_def] at hn
    subst hn
    simp only [bind_eq_ok, okOr_eq_ok, U64.checkedAdd_eq_some, checkFits_eq_ok] at hfits
    obtain ⟨_, ⟨hlt, rfl⟩, hle⟩ := hfits
    exact ⟨hlt, hle n rfl⟩
  · rintro ⟨rfl, h⟩
    refine ⟨(), by simp, (), by have := h.filesz_pos; have := h.filesz_le; omega, ?_⟩
    cases size with
    | none => rfl
    | some n =>
      simp only [bind_eq_ok, okOr_eq_ok, U64.checkedAdd_eq_some, checkFits_eq_ok]
      refine ⟨_, ⟨(h.file_le n rfl).1, rfl⟩, ?_⟩
      intro m hm
      exact (h.file_le m hm).2

theorem validateInterp_ne_panic (ph : Phdr) (seen : Option Phdr) (size : Option Nat) :
    validateInterp ph seen size ≠ panic := by
  refine bind_ne_panic guardErr_ne_panic fun _ _ => ?_
  refine bind_ne_panic guardErr_ne_panic fun _ _ => ?_
  cases size with
  | none => exact ok_ne_panic
  | some n => exact bind_ne_panic okOr_ne_panic fun _ _ => checkFits_ne_panic

end ElfLoader.Elf
