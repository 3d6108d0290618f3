import ElfLoader.Etc

/-!
# What is printed into a configuration file

`cf_write` appends what it is given, however the writes are cut up.  What
`cf_vnprintf` gives it is right as long as the length `vsnprintf` answers is the length
of what is in the buffer, which is when the text fits.
-/

namespace ElfLoader.Conffile

open ElfLoader Outcome Prog

namespace World

variable {w : World} {fd : Int32} {p : Ptr} {data more : Bytes}

@[simp] theorem mem_appended (o : Object) : (w.appended fd data).mem o = w.mem o := by
  cases o <;> rfl

@[simp] theorem read_appended (n : Nat) : (w.appended fd data).read p n = w.read p n := by
  rw [read, read, mem_appended]

theorem appended_nil : w.appended fd [] = w := by
  rcases w with ⟨buf, ip4buf, beyond, file⟩
  simp [appended]

theorem appended_appended : (w.appended fd data).appended fd more = w.appended fd (data ++ more) := by
  simp [appended]

@[simp] theorem file_appended : (w.appended fd data).file fd = w.file fd ++ data := by
  simp [appended]

theorem read_append (n k : Nat) : w.read p n ++ w.read (p.add n) k = w.read p (n + k) :=
  peek_append _ _ _ _

@[simp] theorem file_stored : (w.stored p data).file = w.file := by
  rcases p with ⟨object, off⟩
  cases object <;> rfl

/-- A text is read back from its copy. -/
theorem read_stored_buf : (w.stored (start .buf) (data ++ more)).read (start .buf) data.length = data :=
  (shows_append.mp shows_poke).1

@[simp] theorem length_read (n : Nat) : (w.read p n).length = n := length_peek _ _ _

end World

/-! ### The write loop -/

/-- A `write` of bytes among the `n` from `p` on. -/
def Part (fd : Int32) (p : Ptr) (n : Nat) : PosixOp → Prop
  | .write fd' q len => fd' = fd ∧ q.object = p.object ∧ p.off ≤ q.off ∧ q.off + len.toNat ≤ p.off + n
  | _ => False

theorem toNat_buflen {len : UInt64} {rc : Int64} (h0 : ¬ rc < 0) (hle : rc.toInt ≤ len.toNat) :
    rc.toNatClampNeg ≤ len.toNat ∧ (len - rc.toUInt64).toNat = len.toNat - rc.toNatClampNeg := by
  have hcount : rc.toUInt64.toNat = rc.toNatClampNeg :=
    Int64.toNat_toUInt64_of_le (Int64.not_lt.mp h0)
  have hclamp : rc.toNatClampNeg ≤ len.toNat := Int.toNat_le.mpr hle
  constructor
  · exact hclamp
  · rw [UInt64.toNat_sub_of_le, hcount]
    rw [UInt64.le_iff_toNat_le, hcount]
    exact hclamp

/-- An error number stays one. -/
theorem toInt32_ne_zero {rc : Int64} (h0 : rc < 0) (hlow : -4096 < rc.toInt) : rc.toInt32 ≠ 0 := by
  intro h
  have hint : rc.toInt32.toInt = 0 := by rw [h]; rfl
  have hneg : rc.toInt < 0 := Int64.lt_iff_toInt_lt.mp h0
  rw [Int64.toInt_toInt32, Int.bmod_eq_of_le (by omega) (by omega)] at hint
  omega

theorem nonpos_toNat {len : UInt64} (h : ¬ len > 0) : len.toNat = 0 :=
  Nat.eq_zero_of_not_pos fun hpos => h (UInt64.lt_iff_toNat_lt.mpr hpos)

/-- What is left of a range is part of it. -/
theorem Part.of_rest {fd : Int32} {p : Ptr} {k n : Nat} {op : PosixOp}
    (h : Part fd (p.add k) (n - k) op) (hk : k ≤ n) : Part fd p n op := by
  cases op with
  | write fd' q len =>
    rcases h with ⟨hfd, hobject, hlow, hhigh⟩
    simp only [Ptr.add] at hobject hlow hhigh
    exact ⟨hfd, hobject, by omega, by omega⟩
  | _ => exact h.elim

/-- **The loop**: whatever the writes answer, a prefix has been appended, and all of it
    if the answer is 0. -/
theorem wp_cfWrite (fd : Int32) (turns : Nat) (p : Ptr) (n : UInt64) (w : World) :
    wp posix (fun _ op => Part fd p n.toNat op) (cfWrite fd turns p n)
      (post (fun w' rc => ∃ k ≤ n.toNat, w' = w.appended fd (w.read p k) ∧ (rc = 0 → k = n.toNat))
        (fun _ _ => True) True) w := by
  induction turns generalizing p n w with
  | zero => trivial
  | succ turns ih =>
    rw [cfWrite]
    apply wp_get_bind.mpr
    constructor
    · exact ⟨rfl, rfl, le_rfl, le_rfl⟩
    intro rc w₁ hwrite
    rcases hwrite with ⟨hlow, hle, hw₁⟩
    subst hw₁
    by_cases hneg : rc < 0
    · -- nothing was appended: an error ends the loop, a retry starts it again
      have hzero : rc.toNatClampNeg = 0 := Int.toNat_of_nonpos (le_of_lt (Int64.lt_iff_toInt_lt.mp hneg))
      have hsame : w.appended fd (w.read p rc.toNatClampNeg) = w := by
        rw [hzero]
        exact World.appended_nil
      rw [hsame, if_pos hneg]
      split
      · exact ⟨0, Nat.zero_le _, World.appended_nil.symm, fun h => absurd h (toInt32_ne_zero hneg hlow)⟩
      · split
        · exact ih p n w
        · rename_i hlen
          exact ⟨0, Nat.zero_le _, World.appended_nil.symm, fun _ => (nonpos_toNat hlen).symm⟩
    · rcases toNat_buflen hneg hle with ⟨hcount, hleft⟩
      rw [if_neg hneg]
      dsimp only
      split
      · apply wp_pre_mono (wp_post_mono (ih _ _ _) ?_ fun _ _ h => h)
        · intro _ op hpart
          rw [hleft] at hpart
          exact hpart.of_rest hcount
        · intro w' rc' hdone
          rcases hdone with ⟨k, hk, hw', hall⟩
          rw [hleft] at hk hall
          refine ⟨rc.toNatClampNeg + k, by omega, ?_, fun h => by have := hall h; omega⟩
          rw [hw', World.read_appended, World.appended_appended, World.read_append]
      · rename_i hlen
        have hall := nonpos_toNat hlen
        rw [hleft] at hall
        exact ⟨rc.toNatClampNeg, hcount, rfl, fun _ => by omega⟩

/-! ### The formatted text -/

/-- A call that reads the array `buf` at this index. -/
def ReadsBuf (i : Nat) : PosixOp → Prop
  | .write _ p len => p.object = .buf ∧ p.off ≤ i ∧ i < p.off + len.toNat
  | _ => False

/-- A call that does not read beyond `size` bytes of `buf`. -/
def InBuf (size : Nat) (op : PosixOp) : Prop := ∀ i, ReadsBuf i op → i < size

theorem Part.inBuf {fd : Int32} {n size : Nat} {op : PosixOp} (h : Part fd (start .buf) n op)
    (hn : n ≤ size) : InBuf size op := by
  intro i hread
  cases op with
  | write fd' q len =>
    rcases h with ⟨-, -, -, hhigh⟩
    rcases hread with ⟨-, -, hi⟩
    simp only [start] at hhigh
    omega
  | _ => exact hread.elim

/-- The texts `cf_vnprintf` can print: those that fit their buffer, and those whose
    length is no `int`, for which `vsnprintf` fails. -/
def Printable (maxlen : Nat) (t : Bytes) : Prop := t.length < maxlen ∨ 2 ^ 31 ≤ t.length

theorem formatted_of_lt {size : Nat} {t : Bytes} (h : t.length < size) : formatted size t = t ++ [0] := by
  rw [formatted, if_neg (by omega), List.take_of_length_le (by omega)]

theorem toNat_strlen {strlen : Int32} {n : Nat} (h : strlen.toInt = n) :
    strlen.toInt64.toUInt64.toNat = n := by
  have hint : strlen.toInt64.toInt = n := (Int32.toInt_toInt64 strlen).trans h
  have hpos : 0 ≤ strlen.toInt64 := by
    rw [Int64.le_iff_toInt_le, hint]
    exact Int.natCast_nonneg n
  rw [Int64.toNat_toUInt64_of_le hpos, Int64.toNatClampNeg, hint, Int.toNat_natCast]

/-- **A text that fits** is appended as it is, and `buf` is read where it was written. -/
theorem wp_cfVnprintf (fd : Int32) (turns : Nat) {maxlen : UInt64} {t : Bytes}
    (ht : Printable maxlen.toNat t) (w : World) :
    wp posix (fun _ op => InBuf maxlen.toNat op) (cfVnprintf turns fd maxlen t)
      (post (fun w' rc => rc = 0 → w'.file fd = w.file fd ++ t.take (maxlen.toNat - 1))
        (fun _ _ => True) True) w := by
  apply wp_get_bind.mpr
  constructor
  · exact fun i hread => hread.elim
  intro strlen w₁ hprint
  rcases hprint with ⟨hneg, data, -, -⟩ | ⟨hlen, hw₁⟩
  · rw [if_pos (Int32.le_of_lt hneg)]
    intro hzero
    exact absurd hneg (by rw [hzero]; exact Int32.lt_irrefl)
  have hfits : t.length < maxlen.toNat := by
    rcases ht with hfits | hlong
    · exact hfits
    · have hint := Int32.toInt_lt strlen
      omega
  rw [formatted_of_lt hfits] at hw₁
  rw [List.take_of_length_le (Nat.le_sub_one_of_lt hfits)]
  subst hw₁
  split
  · rename_i hle
    intro hzero
    have hempty : t.length = 0 := by
      rw [hzero] at hlen
      exact (Int.natCast_eq_zero.mp hlen.symm)
    rw [World.file_stored, List.eq_nil_of_length_eq_zero hempty, List.append_nil]
  · apply wp_pre_mono (wp_post_mono (wp_cfWrite _ _ _ _ _) ?_ fun _ _ h => h)
    · intro _ op hpart
      rw [toNat_strlen hlen] at hpart
      exact hpart.inBuf (Nat.le_of_lt hfits)
    · intro w' rc hdone hzero
      rcases hdone with ⟨k, -, hw', hall⟩
      rw [hw', hall hzero, toNat_strlen hlen, World.read_stored_buf, World.file_appended,
        World.file_stored]

/-- `cf_nprintf` appends only bytes of its text: at whatever point of whatever run. -/
def PrintsText (fd : Int32) (maxlen : UInt64) (t : Bytes) : Prop :=
  ∀ turns w tr w' q, Reaches posix w (cfNprintf turns fd maxlen t) tr w' q →
    (q = .done (.ok 0) → t ≠ [] → w'.file fd = w.file fd ++ t.take (maxlen.toNat - 1)) ∧
      ∀ e ∈ tr, InBuf maxlen.toNat e.1

theorem Printable.printsText {maxlen : UInt64} {t : Bytes} (ht : Printable maxlen.toNat t)
    (fd : Int32) : PrintsText fd maxlen t := by
  intro turns w tr w' q hrun
  have hwp := wp_cfVnprintf fd turns ht w
  constructor
  · intro hq _
    have hdone := wp_reaches hwp hrun
    rw [hq] at hdone
    exact hdone rfl
  · exact hrun.forall_event hwp

/-! The run in which everything is written at once. -/

theorem reaches_cfWrite {n : UInt64} (hn : n.toNat < 2 ^ 63) (fd : Int32) (turns : Nat) (p : Ptr)
    (w : World) :
    Reaches posix w (cfWrite fd (turns + 1) p n) [⟨.write fd p n, .ofNat n.toNat⟩]
      (w.appended fd (w.read p n.toNat)) (.done (.ok 0)) := by
  have hcount : (Int64.ofNat n.toNat).toInt = n.toNat := Int64.toInt_ofNat_of_lt hn
  have hclamp : (Int64.ofNat n.toNat).toNatClampNeg = n.toNat := by
    rw [Int64.toNatClampNeg, hcount, Int.toNat_natCast]
  have hnonneg : ¬ Int64.ofNat n.toNat < 0 := by
    rw [Int64.lt_iff_toInt_lt, hcount]
    exact Int.not_lt.mpr (Int.natCast_nonneg _)
  have hnone : ¬ n - (Int64.ofNat n.toNat).toUInt64 > 0 := by
    rw [Int64.toUInt64_ofNat', UInt64.ofNat_toNat, UInt64.sub_self]
    exact UInt64.lt_irrefl 0
  have hwrite : posix w (.write fd p n) (Int64.ofNat n.toNat)
      (w.appended fd (w.read p n.toNat)) := by
    refine ⟨by omega, by omega, ?_⟩
    rw [hclamp]
  apply reaches_get hwrite
  dsimp only
  rw [if_neg hnonneg, if_neg hnone]
  exact .refl _ _

/-- What `buf` has after `vsnprintf`, and what is behind it, is appended. -/
theorem reaches_cfNprintf {t : Bytes} (hne : t ≠ []) (hint : t.length < 2 ^ 31) (fd : Int32)
    (maxlen : UInt64) (w : World) :
    ∃ tr, Reaches posix w (cfNprintf 1 fd maxlen t) tr
      ((w.stored (start .buf) (formatted maxlen.toNat t)).appended fd
        ((w.stored (start .buf) (formatted maxlen.toNat t)).read (start .buf) t.length))
      (.done (.ok 0)) := by
  have hpos : 0 < t.length := List.length_pos_iff.mpr hne
  have hstrlen : (Int32.ofNat t.length).toInt = t.length := Int32.toInt_ofNat_of_lt hint
  have hlen := toNat_strlen hstrlen
  have hmore : ¬ Int32.ofNat t.length ≤ 0 := by
    rw [Int32.le_iff_toInt_le, hstrlen]
    exact Int.not_le.mpr (Int.natCast_pos.mpr hpos)
  have hwrite := reaches_cfWrite (n := (Int32.ofNat t.length).toInt64.toUInt64) (by omega) fd 0
    (start .buf) (w.stored (start .buf) (formatted maxlen.toNat t))
  rw [hlen] at hwrite
  have hprint : posix w (.vsnprintf (start .buf) maxlen t) (Int32.ofNat t.length)
      (w.stored (start .buf) (formatted maxlen.toNat t)) := Or.inr ⟨hstrlen, rfl⟩
  constructor
  apply reaches_get hprint
  rw [if_neg hmore]
  exact hwrite

/-- **When `cf_nprintf` prints its text.** -/
theorem printsText_iff (fd : Int32) {maxlen : UInt64} (hmax : 0 < maxlen) (t : Bytes) :
    PrintsText fd maxlen t ↔ Printable maxlen.toNat t := by
  constructor
  · intro hprints
    rcases Nat.lt_or_ge t.length (2 ^ 31) with hint | hlong
    · rcases Nat.lt_or_ge t.length maxlen.toNat with hfits | hover
      · exact Or.inl hfits
      · have hpos : 0 < maxlen.toNat := UInt64.lt_iff_toNat_lt.mp hmax
        have hne : t ≠ [] := List.length_pos_iff.mp (by omega)
        rcases reaches_cfNprintf hne hint fd maxlen blank with ⟨tr, hrun⟩
        have happended := (hprints 1 _ _ _ _ hrun).1 rfl hne
        rw [World.file_appended, World.file_stored] at happended
        have hlength := congrArg List.length happended
        simp only [List.length_append, World.length_read, List.length_take] at hlength
        omega
    · exact Or.inr hlong
  · exact fun ht => ht.printsText fd

end ElfLoader.Conffile

/-! ### The generators -/

namespace ElfLoader.Etc

open ElfLoader Outcome Prog Conffile

/-- A call that prints only what can be printed. -/
def Fits : PosixOp → Prop
  | .vsnprintf _ size text => Printable size.toNat text
  | _ => True

/-- While all texts can be printed, no call reads beyond a line's buffer. -/
def InLine {α : Type} (p : CProg α) : Prop :=
  ∀ w, wp (fun w op r w' => Fits op ∧ posix w op r w') (fun _ op => InBuf LINE.toNat op) p
    (fun _ _ => True) w

section InLine

variable {α β : Type}

theorem inLine_done (r : Outcome Busy α) : InLine (.done r) := fun _ => trivial

theorem InLine.bind {p : CProg α} {f : α → CProg β} (hp : InLine p) (hf : ∀ a, InLine (f a)) :
    InLine (p >>= f) :=
  fun w => wp_bind_kept (hp w) fun w' a _ => hf a w'

theorem inLine_get (op : PosixOp) (hop : ∀ i, ¬ ReadsBuf i op) : InLine (get op) := by
  intro w
  constructor
  · exact fun i hi => absurd hi (hop i)
  · exact fun _ _ _ => trivial

/-- The one place where `buf` is read. -/
theorem inLine_cfNprintf (turns : Nat) (fd : Int32) (text : Bytes) :
    InLine (cfNprintf turns fd LINE text) := by
  intro w
  by_cases hfits : Printable LINE.toNat text
  · apply wp_handler_mono (wp_mono (wp_cfVnprintf fd turns hfits w) fun _ _ _ => trivial)
    exact fun _ _ _ _ h => h.2
  · constructor
    · exact fun i hi => hi.elim
    · exact fun _ _ h => absurd h.1 hfits

theorem inLine_cfStrcpy (turns : Nat) (fd : Int32) (s : Bytes) : InLine (cfStrcpy turns fd s) := by
  unfold cfStrcpy
  split
  · exact inLine_done _
  · intro w
    have hwrite := wp_cfWrite fd turns (start (.text s)) (.ofNat s.length) w
    apply wp_handler_mono (wp_pre_mono (wp_mono hwrite fun _ _ _ => trivial) ?_)
    · exact fun _ _ _ _ h => h.2
    · intro _ op hpart i hread
      cases op with
      | write fd' q len => exact absurd (hpart.2.1.symm.trans hread.1) (by simp [start])
      | _ => exact hread.elim

theorem inLine_inherited (fd : Int32) : Inherited fd @InLine where
  done := inLine_done
  bind := InLine.bind
  store p c := inLine_get (.store p c) fun _ h => h
  cstr p := inLine_get (.cstr p) fun _ h => h
  print turns text := inLine_cfNprintf turns fd text
  copy turns s := inLine_cfStrcpy turns fd s

theorem inLine_cfMkdir (dpath : Bytes) (dmode : UInt32) : InLine (cfMkdir dpath dmode) := by
  apply (inLine_get (.stat dpath) fun _ h => h).bind
  intro found
  dsimp only
  split
  · exact inLine_done _
  split
  · exact inLine_done _
  split
  · exact inLine_done _
  apply (inLine_get (.mkdir dpath dmode) fun _ h => h).bind
  intro rc
  split
  · exact inLine_done _
  · exact inLine_done _

theorem inLine_cfCreate (exist : OnExist) (fpath : Bytes) (fmode : UInt32) :
    InLine (cfCreate exist fpath fmode) := by
  have hopen : InLine (cfOpen fpath fmode) := by
    apply (inLine_get (.openFile fpath _ 0) fun _ h => h).bind
    intro fd
    split
    · exact inLine_done _
    apply (inLine_get (.chmod fpath fmode) fun _ h => h).bind
    intro rc
    split
    · exact inLine_done _
    · exact inLine_done _
  apply (inLine_get (.stat fpath) fun _ h => h).bind
  intro found
  dsimp only
  split
  · cases exist with
    | error => exact inLine_done _
    | skip => exact inLine_done _
    | replace =>
      dsimp only
      split
      · exact inLine_done _
      · exact hopen
  · exact hopen

theorem inLine_withFile {c : Config} {body : Int32 → CProg Int32} (hbody : ∀ fd, InLine (body fd))
    (fpath : Bytes) (fmode : UInt32) : InLine (withFile c fpath fmode body) := by
  apply (inLine_cfCreate c.exist fpath fmode).bind
  intro fd
  split
  · exact inLine_done _
  split
  · exact inLine_done _
  apply (hbody fd).bind
  intro rc
  have hclose : InLine (cfClose fd) := (inLine_get (.close fd) fun _ h => h).bind fun _ => inLine_done _
  exact hclose.bind fun _ => inLine_done _

theorem inLine_genEtc (c : Config) (turns : Nat) (devs : Netdevs) : InLine (genEtc c turns devs) := by
  apply genEtc_of (G := fun p => InLine p) (fun _ => inLine_done _)
  · -- nothing here is written through a descriptor, so that any will do
    exact (inLine_inherited 0).orOut
  · exact inLine_cfMkdir
  · intro body fpath fmode hprints
    exact inLine_withFile (fun fd => hprints fd @InLine (inLine_inherited fd)) fpath fmode

end InLine

/-- **What `cf_nprintf` prints.**  It appends the text, cut to the buffer, and reads no
    further, exactly if the text fits or its length is no `int`; and `gen_etc`, which
    gives every line the same buffer, never reads beyond it while its lines do. -/
theorem nprintf_prints_iff (fd : Int32) {maxlen : UInt64} (hmax : 0 < maxlen) (t : Bytes)
    (c : Config) (turns : Nat) (devs : Netdevs) :
    (PrintsText fd maxlen t ↔ Printable maxlen.toNat t) ∧
      ∀ w tr w' q, Reaches posix w (genEtc c turns devs) tr w' q →
        (∀ e ∈ tr, Fits e.1) → ∀ e ∈ tr, InBuf LINE.toNat e.1 := by
  constructor
  · exact printsText_iff fd hmax t
  · intro w tr w' q hrun hfits
    have hfitting := hrun.restrict hfits
    exact hfitting.forall_event (inLine_genEtc c turns devs w)

def hostnameOnly : Config := ⟨.replace, false, false, false, true⟩

/-- The line of a name server fits. -/
theorem nameserver_prints : PrintsText 3 LINE (nameserverLine (ascii "10.0.0.1")) := by
  have hlt : 0 < LINE := by decide
  apply (nprintf_prints_iff 3 hlt _ hostnameOnly 0 []).1.mpr
  exact Or.inl (by decide +kernel)

/-! A device whose host name has 200 characters. -/

def longName : CString := ⟨List.replicate 200 0x61, by decide⟩

def longNamed : Netdev where
  einfo
    | .hostname => some longName
    | _ => none

def longNameCalls : List (Event Posix) := [
  ⟨.stat (ascii "/etc"), (0, S_IFDIR)⟩,
  ⟨.stat (ascii "/etc/hostname"), (-1, 0)⟩,
  ⟨.openFile (ascii "/etc/hostname") (O_CREAT ||| O_WRONLY ||| O_TRUNC) 0, (3 : Int32)⟩,
  ⟨.chmod (ascii "/etc/hostname") 0o444, (0 : Int32)⟩,
  ⟨.vsnprintf (start .buf) LINE (hostnameLine longName.val), (201 : Int32)⟩,
  ⟨.write 3 (start .buf) 201, (201 : Int64)⟩,
  ⟨.close 3, (0 : Int32)⟩]

set_option maxRecDepth 4000 in
/-- 201 bytes are written from a buffer of 128. -/
theorem long_hostname_overreads :
    (∃ w', Reaches posix blank (genEtc hostnameOnly 1 [some longNamed]) longNameCalls w'
      (.done (.ok 0))) ∧
      (∃ e ∈ longNameCalls, ReadsBuf 200 e.1) ∧
      ¬ PrintsText 3 LINE (hostnameLine longName.val) := by
  constructor
  · have hprinted (w : World) : posix w (.vsnprintf (start .buf) LINE (hostnameLine longName.val))
        (201 : Int32) (w.stored (start .buf) (formatted LINE.toNat (hostnameLine longName.val))) :=
      Or.inr ⟨by decide +kernel, rfl⟩
    have hwritten (w : World) : posix w (.write 3 (start .buf) 201) (201 : Int64)
        (w.appended 3 (w.read (start .buf) 201)) := ⟨by decide, by decide, rfl⟩
    exact ⟨_, .step rfl <| .step rfl <| .step rfl <| .step rfl <| .step (hprinted _) <|
      .step (hwritten _) <| .step rfl <| .refl _ _⟩
  constructor
  · refine ⟨⟨.write 3 (start .buf) 201, (201 : Int64)⟩, ?_, rfl, by decide, by decide⟩
    simp [longNameCalls]
  · intro hprints
    have hprintable := (printsText_iff 3 (by decide) _).mp hprints
    rcases hprintable with hfits | hlong
    · exact absurd hfits (by decide +kernel)
    · exact absurd hlong (by decide +kernel)

end ElfLoader.Etc
