import ElfLoader.App
import ElfLoader.ElfFormat
import ElfLoader.Memory

/-!
# Reading an image (`sys.rs`, `elf.rs`)

The three implementations of `ImageSource::read_exact_at`: an open file, which has to
be asked again after a short read, a region of memory and a slice.  A buffer is the
list of its bytes; `read_exact_at` answers it as it leaves it.
-/

namespace ElfLoader.FileRead

open ElfLoader Outcome App
open ElfLoader.Prog hiding run

inductive FileOp where
  | pread (fd : Int32) (len : Nat) (off : Int64)
deriving DecidableEq, Repr

/-- The answer of `elfrs_pread`, and what it has stored at the pointer it was given. -/
@[reducible] def FileOp.Res : FileOp → Type
  | .pread .. => Int64 × Bytes

abbrev FileCalls : Iface := ⟨FileOp, FileOp.Res⟩

/-- The buffer after `data` was stored from position `i` on. -/
def stored (buf : Bytes) (i : Nat) (data : Bytes) : Bytes :=
  buf.take i ++ data ++ buf.drop (i + data.length)

/-- `Error(-n as i32)`. -/
def negErr {α : Type} (n : Int64) : Outcome Errno α :=
  if n = Int64.minValue then panic else err (-n).toInt32

theorem toNatClampNeg_pos {n : Int64} (hzero : n ≠ 0) (hneg : ¬ n < 0) : 0 < n.toNatClampNeg := by
  have hle : 0 ≤ n := Int64.not_lt.mp hneg
  exact (Int64.toNatClampNeg_pos_iff n).mpr (Int64.lt_of_le_of_ne hle hzero.symm)

/-- The loop of `File::read_exact_at`, for a buffer of `len` bytes.  What was read moves
    the position, so that it comes to an end. -/
def readLoop (fd : Int32) (off len done : Nat) (buf : Bytes) : Prog FileCalls Errno Bytes :=
  if done < len then
    if off + done < 2 ^ 64 then
      .call (I := FileCalls) (.pread fd (len - done) (.ofNat (off + done))) fun (n, data) =>
        if n = 0 then .done (.err (errno Error.ENOEXEC))
        else if n < 0 then .done (negErr n)
        else if done + n.toNatClampNeg < 2 ^ 64 then
          readLoop fd off len (done + n.toNatClampNeg) (stored buf done data)
        else .done .panic
    else .done .panic
  else .done (.ok buf)
termination_by len - done
decreasing_by
  have hpos := toNatClampNeg_pos ‹¬ n = 0› ‹¬ n < 0›
  omega

structure File where
  fd : Int32

def File.readExactAt (self : File) (off : Nat) (buf : Bytes) : Prog FileCalls Errno Bytes :=
  readLoop self.fd off buf.length 0 buf

/-- `buf.copy_from_slice(src)`. -/
def copyFromSlice (buf src : Bytes) : Outcome Errno Bytes :=
  if src.length = buf.length then ok src else panic

/-- `read_exact_at` of `&[u8]`. -/
def sliceReadExactAt (self : Bytes) (off : Nat) (buf : Bytes) : Outcome Errno Bytes := do
  let fin ← okOr (errno Error.ENOEXEC) (U64.checkedAdd off buf.length)
  guardErr (¬ fin > self.length) (errno Error.ENOEXEC)
  let src ← slice self off fin
  copyFromSlice buf src

/-- The initrd, as `MemImage::new` is told about it. -/
structure MemImage where
  base : Nat
  len : Nat

def MemImage.readExactAt (mem : Memory) (self : MemImage) (off : Nat) (buf : Bytes) :
    Outcome Errno Bytes := do
  let fin ← okOr (errno Error.ENOEXEC) (U64.checkedAdd off buf.length)
  guardErr (¬ fin > self.len) (errno Error.ENOEXEC)
  ok (peek mem (self.base + off) buf.length)

/-! ### What the kernel answers -/

/-- `elfrs_pread` on a file with the bytes `f`: an error number, negated; 0 at the end of
    the file or behind it; or how many bytes it has stored from there. -/
def pread (f : Bytes) : (op : FileOp) → op.Res → Prop
  | .pread _ len off, (n, data) =>
      (-2 ^ 31 < n.toInt ∧ n < 0) ∨ (n = 0 ∧ f.length ≤ off.toInt) ∨
        (0 < n ∧ n.toInt ≤ len ∧ off.toInt + n.toInt ≤ f.length ∧
          data = bytesAt f off.toNatClampNeg n.toNatClampNeg)

def Fails : Event FileCalls → Prop
  | ⟨.pread _ _ _, (n, _)⟩ => n < 0

def FailsWith (e : Errno) : Event FileCalls → Prop
  | ⟨.pread _ _ _, (n, _)⟩ => n < 0 ∧ n.toInt = -e.toInt

/-! ### The loop -/

/-- The result of reading `len` bytes at `off` with the calls of `tr`. -/
structure Exact (f : Bytes) (off len : Nat) (tr : List (Event FileCalls))
    (v : Outcome Errno Bytes) : Prop where
  no_panic : v ≠ .panic
  ok_iff : (∃ out, v = .ok out) ↔ (off + len ≤ f.length ∨ len = 0) ∧ ∀ e ∈ tr, ¬ Fails e
  bytes : ∀ out, v = .ok out → out = bytesAt f off len
  error : ∀ e, v = .err e → (∃ call ∈ tr, FailsWith e call) ∨
    (e = errno Error.ENOEXEC ∧ (∀ call ∈ tr, ¬ Fails call) ∧ f.length < off + len)

/-- Where the loop stands after the calls of `h`: so much of the buffer is filled. -/
structure Filled (f : Bytes) (off len : Nat) (h : List (Event FileCalls)) (done : Nat)
    (buf : Bytes) : Prop where
  length : buf.length = len
  le : done ≤ len
  bytes : buf.take done = bytesAt f off done
  inside : done = 0 ∨ off + done ≤ f.length
  calls : h.length ≤ done
  unfailed : ∀ e ∈ h, ¬ Fails e

/-- The calls ask for what is left of the request, and there are no more of them than
    bytes. -/
def Asks (off len : Nat) (h : List (Event FileCalls)) : FileOp → Prop
  | .pread _ len' off' => h.length < len ∧ 0 < len' ∧ off'.toInt + len' = off + len

section Loop

variable {f : Bytes} {off len done : Nat} {h : List (Event FileCalls)} {buf : Bytes}

theorem unfailed_concat {e : Event FileCalls} (hh : ∀ e ∈ h, ¬ Fails e) (he : ¬ Fails e) :
    ∀ e' ∈ h ++ [e], ¬ Fails e' := by
  intro e' hmem
  rcases List.mem_append.mp hmem with hmem | hmem
  · exact hh e' hmem
  · rcases List.mem_singleton.mp hmem with rfl
    exact he

theorem Filled.exact_ok (hf : Filled f off len h done buf) (hdone : ¬ done < len) :
    Exact f off len h (.ok buf) := by
  have heq : done = len := Nat.le_antisymm hf.le (Nat.not_lt.mp hdone)
  subst heq
  constructor
  · exact fun hpanic => nomatch hpanic
  · exact iff_of_true ⟨buf, rfl⟩ ⟨hf.inside.symm, hf.unfailed⟩
  · rintro out ⟨⟩
    rw [← hf.bytes, List.take_of_length_le (Nat.le_of_eq hf.length)]
  · exact fun e herr => nomatch herr

variable {fd : Int32} {off' : Int64} {n : Int64} {data : Bytes}

theorem Filled.exact_eof (hf : Filled f off len h done buf) (hlt : done < len)
    (hend : f.length ≤ off + done) :
    Exact f off len (h ++ [⟨.pread fd (len - done) off', (0, data)⟩])
      (.err (errno Error.ENOEXEC)) := by
  have hunfailed : ∀ e ∈ h ++ [(⟨.pread fd (len - done) off', (0, data)⟩ : Event FileCalls)],
      ¬ Fails e := unfailed_concat hf.unfailed Int64.lt_irrefl
  constructor
  · exact fun hpanic => nomatch hpanic
  · apply iff_of_false
    · rintro ⟨out, hout⟩
      exact nomatch hout
    · rintro ⟨hin | hzero, -⟩
      · omega
      · omega
  · exact fun out hout => nomatch hout
  · rintro e ⟨⟩
    exact Or.inr ⟨rfl, hunfailed, by omega⟩

theorem exact_failed (hn : n < 0) (hlow : -2 ^ 31 < n.toInt) :
    Exact f off len (h ++ [⟨.pread fd (len - done) off', (n, data)⟩]) (negErr n) := by
  have hlast : (⟨.pread fd (len - done) off', (n, data)⟩ : Event FileCalls) ∈
      h ++ [⟨.pread fd (len - done) off', (n, data)⟩] := by simp
  have herr : negErr n = (.err (-n).toInt32 : Outcome Errno Bytes) := by
    apply if_neg
    rintro rfl
    exact absurd hlow (by decide)
  have hcode : n.toInt = -((-n).toInt32).toInt := by
    have hneg : n.toInt < 0 := Int64.lt_iff_toInt_lt.mp hn
    have hminus : (-n).toInt = -n.toInt := by
      rw [Int64.toInt_neg]
      apply Int.bmod_eq_of_le_mul_two
      · omega
      · omega
    rw [Int64.toInt_toInt32, hminus, Int.bmod_eq_of_le_mul_two]
    · omega
    · omega
    · omega
  rw [herr]
  constructor
  · exact fun hpanic => nomatch hpanic
  · apply iff_of_false
    · rintro ⟨out, hout⟩
      exact nomatch hout
    · rintro ⟨-, hunfailed⟩
      exact hunfailed _ hlast hn
  · exact fun out hout => nomatch hout
  · rintro e ⟨⟩
    exact Or.inl ⟨_, hlast, hn, hcode⟩

/-- What a short read leaves is a longer part of the same bytes. -/
theorem Filled.stored (hf : Filled f off len h done buf) (fd : Int32) (off' : Int64) (hn : 0 < n)
    (hle : n.toNatClampNeg ≤ len - done) (hin : off + done + n.toNatClampNeg ≤ f.length)
    (hdata : data = bytesAt f (off + done) n.toNatClampNeg) :
    Filled f off len (h ++ [⟨.pread fd (len - done) off', (n, data)⟩]) (done + n.toNatClampNeg)
      (stored buf done data) := by
  have hpos : 0 < n.toNatClampNeg := (Int64.toNatClampNeg_pos_iff n).mpr hn
  have hfits : done + n.toNatClampNeg ≤ len := by omega
  have hlength : data.length = n.toNatClampNeg := by
    rw [hdata]
    exact length_bytesAt hin
  have hbuf := hf.length
  constructor
  · simp only [FileRead.stored, List.length_append, List.length_take, List.length_drop]
    omega
  · exact hfits
  · have hfront : (buf.take done ++ data).length = done + n.toNatClampNeg := by
      simp only [List.length_append, List.length_take]
      omega
    rw [FileRead.stored, List.take_append_of_le_length (Nat.le_of_eq hfront.symm),
      List.take_of_length_le (Nat.le_of_eq hfront), hf.bytes, hdata]
    exact bytesAt_append f off done _
  · exact Or.inr (by omega)
  · rw [List.length_append, List.length_singleton]
    have hcalls := hf.calls
    omega
  · exact unfailed_concat hf.unfailed (Int64.lt_asymm hn)

/-- The loop, from any position it can come to. -/
theorem wp_readLoop (hbound : off + len < 2 ^ 63) (hf : Filled f off len h done buf) :
    wp (remembering (pread f)) (Asks off len) (readLoop fd off len done buf) (Exact f off len) h := by
  -- on what is left to read
  induction hleft : len - done using Nat.strongRecOn generalizing done buf h with
  | ind left ih =>
    rw [readLoop]
    split
    · rename_i hlt
      have hoff : (Int64.ofNat (off + done)).toInt = off + done := by
        rw [Int64.toInt_ofNat_of_lt (by omega)]
        exact Int.natCast_add off done
      rw [if_pos (by omega)]
      constructor
      · have hcalls := hf.calls
        refine ⟨by omega, by omega, ?_⟩
        rw [hoff]
        omega
      rintro ⟨n, data⟩ h' ⟨hanswer, rfl⟩
      dsimp only
      rcases hanswer with ⟨hlow, hneg⟩ | ⟨rfl, hend⟩ | ⟨hpos, hle, hin, hdata⟩
      · rw [if_neg (Int64.ne_of_lt hneg), if_pos hneg]
        exact exact_failed hneg hlow
      · rw [if_pos rfl]
        rw [hoff] at hend
        exact hf.exact_eof hlt (by omega)
      · have hclamp : (n.toNatClampNeg : Int) = n.toInt := by
          have hnonneg : 0 < n.toInt := Int64.lt_iff_toInt_lt.mp hpos
          rw [← Int64.toNat_toInt, Int.toNat_of_nonneg (by omega)]
        rw [hoff, ← hclamp] at hin
        rw [← hclamp] at hle
        rw [Int64.toNatClampNeg_ofNat_of_lt (by omega)] at hdata
        have hread : 0 < n.toNatClampNeg := (Int64.toNatClampNeg_pos_iff n).mpr hpos
        have hnext := hf.stored fd (.ofNat (off + done)) hpos (by omega) (by omega) hdata
        rw [if_neg (Int64.ne_of_lt hpos).symm, if_neg (Int64.lt_asymm hpos), if_pos (by omega)]
        exact ih _ (by omega) hnext rfl
    · exact hf.exact_ok ‹_›

end Loop

/-! ### The sources in memory -/

/-- What a source with the bytes `f` has to say to a request. -/
def request (f : Bytes) (off len : Nat) : Outcome Errno Bytes :=
  if off + len ≤ f.length then ok (bytesAt f off len) else err (errno Error.ENOEXEC)

section Sources

variable {off : Nat} {buf : Bytes} (hbound : off + buf.length < 2 ^ 64)
include hbound

theorem sliceReadExactAt_eq (f : Bytes) :
    sliceReadExactAt f off buf = request f off buf.length := by
  unfold sliceReadExactAt request
  rw [U64.checkedAdd_of_lt hbound]
  split
  · rename_i hin
    have hpart : off + buf.length - off = buf.length := by omega
    have hcopy : copyFromSlice buf (bytesAt f off buf.length) = .ok (bytesAt f off buf.length) :=
      if_pos (length_bytesAt hin)
    simp only [okOr_some, ok_bind, guardErr_of (Nat.not_lt.mpr hin),
      slice_of_le (Nat.le_add_right off _) hin, hpart]
    exact hcopy
  · rename_i hout
    simp only [okOr_some, ok_bind, guardErr_of_not (not_not.mpr (Nat.lt_of_not_le hout))]
    rfl

theorem MemImage.readExactAt_eq {mem : Memory} {image : MemImage} {f : Bytes}
    (hlen : f.length = image.len) (hmem : Shows mem image.base f) :
    image.readExactAt mem off buf = request f off buf.length := by
  unfold MemImage.readExactAt request
  rw [U64.checkedAdd_of_lt hbound, ← hlen]
  split
  · rename_i hin
    have hpart : peek mem (image.base + off) buf.length = bytesAt f off buf.length := by
      have hsplit : f = f.take off ++ (bytesAt f off buf.length ++ f.drop (off + buf.length)) := by
        rw [bytesAt, ← List.drop_drop, List.take_append_drop, List.take_append_drop]
      rw [hsplit, shows_append, shows_append, List.length_take, Nat.min_eq_left (by omega)] at hmem
      have hshows := hmem.2.1
      rwa [Shows, length_bytesAt hin] at hshows
    simp only [okOr_some, ok_bind, guardErr_of (Nat.not_lt.mpr hin), hpart]
  · rename_i hout
    simp only [okOr_some, ok_bind, guardErr_of_not (not_not.mpr (Nat.lt_of_not_le hout))]
    rfl

end Sources

/-! ### Short reads do not matter -/

/-- Without an error, the file says what a source in memory says. -/
theorem Exact.eq_request {f : Bytes} {off len : Nat} {tr : List (Event FileCalls)}
    {v : Outcome Errno Bytes} (h : Exact f off len tr v) (hlen : len ≠ 0)
    (hunfailed : ∀ e ∈ tr, ¬ Fails e) : v = request f off len := by
  unfold request
  split
  · rename_i hin
    rcases h.ok_iff.mpr ⟨Or.inl hin, hunfailed⟩ with ⟨out, rfl⟩
    rw [h.bytes out rfl]
  · rename_i hout
    cases v with
    | panic => exact absurd rfl h.no_panic
    | ok out =>
      rcases (h.ok_iff.mp ⟨out, rfl⟩).1 with hin | hzero
      · exact absurd hin hout
      · exact absurd hzero hlen
    | err e =>
      rcases h.error e rfl with ⟨call, hmem, hfails⟩ | ⟨rfl, -⟩
      · exact absurd hfails.1 (hunfailed call hmem)
      · rfl

theorem filled_nil (f : Bytes) (off : Nat) (buf : Bytes) : Filled f off buf.length [] 0 buf where
  length := rfl
  le := Nat.zero_le _
  bytes := by simp [bytesAt]
  inside := Or.inl rfl
  calls := Nat.le_refl 0
  unfailed := fun _ he => absurd he List.not_mem_nil

/-- **Reading a file is exact, however it is split.**  A run makes no more calls than
    there are bytes to read.  When it returns, it has filled the buffer from the file
    exactly if these bytes are there and no call failed, and has the error of the call
    that did or `ENOEXEC` otherwise.  If none did, the sources in memory say the same. -/
theorem file_readExactAt_exact (self : File) (f : Bytes) {off : Nat} {buf : Bytes}
    (hbound : off + buf.length < 2 ^ 63) {tr : List (Event FileCalls)}
    {q : Prog FileCalls Errno Bytes}
    (hrun : Reaches (fun _ op r _ => pread f op r) () (self.readExactAt off buf) tr () q) :
    tr.length ≤ buf.length ∧ ∀ v, q = .done v → Exact f off buf.length tr v ∧
      (buf ≠ [] → (∀ e ∈ tr, ¬ Fails e) → v = sliceReadExactAt f off buf ∧
        ∀ (mem : Memory) (image : MemImage), f.length = image.len → Shows mem image.base f →
          v = image.readExactAt mem off buf) := by
  have hwp : wp (remembering (pread f)) (Asks off buf.length) (self.readExactAt off buf)
      (Exact f off buf.length) [] := wp_readLoop hbound (filled_nil f off buf)
  have hremembered := hrun.remembering []
  rw [List.nil_append] at hremembered
  constructor
  · rcases List.eq_nil_or_concat' tr with rfl | ⟨front, ⟨op, r⟩, rfl⟩
    · exact Nat.zero_le _
    · have hasks := hremembered.forall_split hwp front ⟨op, r⟩ [] rfl
      cases op with
      | pread fd len off' =>
        rw [List.length_append, List.length_singleton]
        exact hasks.1
  · rintro v rfl
    have hexact : Exact f off buf.length tr v := wp_reaches hwp hremembered
    refine ⟨hexact, ?_⟩
    intro hne hunfailed
    have hsame := hexact.eq_request (fun hzero => hne (List.length_eq_zero_iff.mp hzero)) hunfailed
    have hfits : off + buf.length < 2 ^ 64 := by omega
    constructor
    · rw [hsame, sliceReadExactAt_eq hfits]
    · intro mem image hlen hshows
      rw [hsame, MemImage.readExactAt_eq hfits hlen hshows]

/-- Two bytes of four, one at a time. -/
theorem two_short_reads :
    let tr : List (Event FileCalls) :=
      [⟨.pread 3 2 (.ofNat 1), (1, [2])⟩, ⟨.pread 3 1 (.ofNat 2), (1, [3])⟩]
    Reaches (fun _ op r _ => pread [1, 2, 3, 4] op r) () ((File.mk 3).readExactAt 1 [0, 0]) tr ()
        (.done (.ok [2, 3])) ∧
      Exact [1, 2, 3, 4] 1 2 tr (.ok [2, 3]) := by
  intro tr
  have hrun : Reaches (fun _ op r _ => pread [1, 2, 3, 4] op r) () ((File.mk 3).readExactAt 1 [0, 0])
      tr () (.done (.ok [2, 3])) := by
    rw [File.readExactAt, readLoop]
    apply reaches_answered
    · exact Or.inr (Or.inr ⟨by decide, by decide, by decide, rfl⟩)
    change Reaches _ _ (readLoop 3 1 2 1 [2, 0]) _ _ _
    rw [readLoop]
    apply reaches_answered
    · exact Or.inr (Or.inr ⟨by decide, by decide, by decide, rfl⟩)
    change Reaches _ _ (readLoop 3 1 2 2 [2, 3]) _ _ _
    rw [readLoop]
    exact .refl _ _
  exact ⟨hrun, ((file_readExactAt_exact ⟨3⟩ _ (by decide) hrun).2 _ rfl).1⟩

end ElfLoader.FileRead
