import ElfLoader.Host

/-!
# The buffer of a log message (`log.rs`)

A message is formatted piece by piece into an array on the stack.  What does not fit
is dropped, and the end of what did is then overwritten with an ellipsis.
-/

namespace ElfLoader.Log

open ElfLoader Outcome

def MSG_MAX : Nat := 512

structure LogBuf where
  b : Buf MSG_MAX
  n : Nat
  truncated : Bool
deriving DecidableEq

def LogBuf.new : LogBuf := ⟨⟨List.replicate MSG_MAX 0, by simp⟩, 0, false⟩

variable {ε : Type} {k : Nat}

/-- `b[lo..hi].copy_from_slice(src)`. -/
def copyInto (b : Buf k) (lo hi : Nat) (src : Bytes) : Outcome ε (Buf k) :=
  if h : (lo ≤ hi ∧ hi ≤ k) ∧ src.length = hi - lo then
    ok ⟨b.val.take lo ++ src ++ b.val.drop hi, by
      simp only [List.length_append, List.length_take, List.length_drop, b.property]
      omega⟩
  else panic

/-- `b[i] = x`. -/
def setByte (b : Buf k) (i : Nat) (x : UInt8) : Outcome ε (Buf k) :=
  if i < k then ok ⟨b.val.set i x, by simp [b.property]⟩ else panic

/-- `...` and the zero at the end. -/
def ELLIPSIS : Bytes := [0x2e, 0x2e, 0x2e, 0]

def LogBuf.writeStr (self : LogBuf) (s : Bytes) : Outcome ε LogBuf := do
  let last ← U64.sub MSG_MAX 1
  let room ← U64.sub last self.n
  let take := min s.length room
  let truncated := if take < s.length then true else self.truncated
  let fin ← U64.add self.n take
  let src ← slice s 0 take
  let b ← copyInto self.b self.n fin src
  let n ← U64.add self.n take
  ok { b, n, truncated }

/-- The buffer as `finish` leaves it, and the message. -/
def LogBuf.finish (self : LogBuf) : Outcome ε (LogBuf × Bytes) := do
  if self.truncated && self.n ≥ 4 then
    let lo ← U64.sub self.n 4
    let b ← copyInto self.b lo self.n ELLIPSIS
    let msg ← slice b.val 0 self.n
    ok ({ self with b }, msg)
  else
    let b ← setByte self.b self.n 0
    let n ← U64.add self.n 1
    let msg ← slice b.val 0 n
    ok ({ self with b, n }, msg)

/-- What `emit` prints of a text that is formatted in pieces. -/
def emit (pieces : List Bytes) : Outcome ε Bytes := do
  let b ← pieces.foldlM LogBuf.writeStr LogBuf.new
  let (_, msg) ← b.finish
  ok msg

/-- The message for the text `s`. -/
def message (s : Bytes) : Bytes :=
  if s.length ≤ MSG_MAX - 1 then s ++ [0] else s.take (MSG_MAX - 5) ++ ELLIPSIS

/-- The buffer holds as much of `s` as fits before the zero, and knows if that is all. -/
structure LogBuf.Holds (log : LogBuf) (s : Bytes) : Prop where
  count : log.n = min s.length (MSG_MAX - 1)
  bytes : log.b.val.take log.n = s.take (MSG_MAX - 1)
  truncated : log.truncated = true ↔ MSG_MAX - 1 < s.length

theorem holds_new : LogBuf.new.Holds [] where
  count := rfl
  bytes := rfl
  truncated := by decide

theorem copyInto_of_le {b : Buf k} {lo hi : Nat} {src : Bytes} (hle : lo ≤ hi) (hk : hi ≤ k)
    (hlen : src.length = hi - lo) : ∃ b' : Buf k, (copyInto b lo hi src : Outcome ε (Buf k)) = ok b' ∧
      b'.val = b.val.take lo ++ src ++ b.val.drop hi :=
  ⟨_, dif_pos ⟨⟨hle, hk⟩, hlen⟩, rfl⟩

/-- The three parts of the array after a copy. -/
theorem take_copied {b : Bytes} {lo m : Nat} {src : Bytes} (hlo : lo ≤ b.length)
    (hm : lo + src.length = m) : (b.take lo ++ src ++ b.drop m).take m = b.take lo ++ src := by
  apply List.take_left'
  rw [List.length_append, List.length_take]
  omega

/-- All that the proofs need to know about the constant: there is room for the ellipsis. -/
theorem msg_max_bounds : 5 ≤ MSG_MAX ∧ MSG_MAX < 2 ^ 64 := by decide

/-- A piece is appended, as far as it fits. -/
theorem LogBuf.Holds.writeStr {self : LogBuf} {s : Bytes} (h : self.Holds s) (piece : Bytes) :
    ∃ self', (self.writeStr piece : Outcome ε LogBuf) = ok self' ∧ self'.Holds (s ++ piece) := by
  have hmax := msg_max_bounds
  have hn := h.count
  have hb := self.b.property
  obtain ⟨take, htake⟩ : ∃ take, take = min piece.length (MSG_MAX - 1 - self.n) := ⟨_, rfl⟩
  have hsrc : (piece.take take).length = self.n + take - self.n := by
    rw [List.length_take]
    omega
  have hk : self.n + take ≤ MSG_MAX := by omega
  rcases copyInto_of_le (ε := ε) (b := self.b) (Nat.le_add_right self.n take) hk hsrc with
    ⟨b', hcopy, hb'⟩
  refine ⟨⟨b', self.n + take, if take < piece.length then true else self.truncated⟩, ?_, ?_⟩
  · have hlast : (U64.sub MSG_MAX 1 : Outcome ε Nat) = ok (MSG_MAX - 1) :=
      U64.sub_of_le (by omega)
    have hroom : (U64.sub (MSG_MAX - 1) self.n : Outcome ε Nat) = ok (MSG_MAX - 1 - self.n) :=
      U64.sub_of_le (by omega)
    have hfin : (U64.add self.n take : Outcome ε Nat) = ok (self.n + take) :=
      U64.add_of_lt (by omega)
    simp only [LogBuf.writeStr, hlast, hroom, ok_bind, ← htake, hfin,
      slice_of_le (Nat.zero_le take) (show take ≤ piece.length by omega), List.drop_zero,
      Nat.sub_zero, hcopy]
  · constructor
    · rw [List.length_append]
      dsimp only
      omega
    · have hpiece : piece.take take = piece.take (MSG_MAX - 1 - s.length) := by
        apply List.take_eq_take_iff.mpr
        omega
      dsimp only
      rw [hb', take_copied (by omega) (by omega), h.bytes, hpiece]
      exact List.take_append.symm
    · rw [List.length_append]
      dsimp only
      split
      · exact iff_of_true rfl (by omega)
      · rw [h.truncated]
        omega

/-- The end of a text that did not fit. -/
theorem LogBuf.Holds.finish_truncated {self : LogBuf} {s : Bytes} (h : self.Holds s)
    (hlong : MSG_MAX - 1 < s.length) :
    ∃ self', (self.finish : Outcome ε (LogBuf × Bytes)) =
      ok (self', s.take (MSG_MAX - 5) ++ ELLIPSIS) := by
  have hmax := msg_max_bounds
  have hcount := h.count
  have hn : self.n = MSG_MAX - 1 := by omega
  have hb := self.b.property
  have hfront : self.b.val.take (MSG_MAX - 5) = s.take (MSG_MAX - 5) := by
    have hboth := congrArg (List.take (MSG_MAX - 5)) h.bytes
    rw [List.take_take, List.take_take] at hboth
    rwa [Nat.min_eq_left (by omega), Nat.min_eq_left (by omega)] at hboth
  have hif : (self.truncated && decide (self.n ≥ 4)) = true := by
    rw [h.truncated.mpr hlong, Bool.true_and, decide_eq_true_eq]
    omega
  have hlo : (U64.sub self.n 4 : Outcome ε Nat) = ok (MSG_MAX - 5) := by
    rw [U64.sub_of_le (by omega), hn]
    congr 1
  have hdots : ELLIPSIS.length = self.n - (MSG_MAX - 5) := by
    rw [show ELLIPSIS.length = 4 from rfl]
    omega
  rcases copyInto_of_le (ε := ε) (b := self.b) (show MSG_MAX - 5 ≤ self.n by omega)
    (show self.n ≤ MSG_MAX by omega) hdots with ⟨b', hcopy, hb'⟩
  have hmsg : (slice b'.val 0 self.n : Outcome ε Bytes) = ok (s.take (MSG_MAX - 5) ++ ELLIPSIS) := by
    rw [slice_of_le (Nat.zero_le _) (by rw [b'.property]; omega), List.drop_zero, Nat.sub_zero,
      hb', take_copied (by omega) (by omega), hfront]
  refine ⟨{ self with b := b' }, ?_⟩
  rw [LogBuf.finish, if_pos hif]
  simp only [hlo, ok_bind, hcopy, hmsg]

theorem LogBuf.Holds.finish_whole {self : LogBuf} {s : Bytes} (h : self.Holds s)
    (hfits : s.length ≤ MSG_MAX - 1) :
    ∃ self', (self.finish : Outcome ε (LogBuf × Bytes)) = ok (self', s ++ [0]) := by
  have hmax := msg_max_bounds
  have hcount := h.count
  have hn : self.n = s.length := by omega
  have hb := self.b.property
  have hfront : self.b.val.take self.n = s := by
    rw [h.bytes, List.take_of_length_le hfits]
  have hif : ¬ (self.truncated && decide (self.n ≥ 4)) = true := by
    have hwhole : ¬ self.truncated = true := fun htrue => Nat.not_lt.mpr hfits (h.truncated.mp htrue)
    simp [hwhole]
  have hset : (setByte self.b self.n 0 : Outcome ε (Buf MSG_MAX)) =
      ok ⟨self.b.val.set self.n 0, by simp [self.b.property]⟩ := if_pos (by omega)
  have hadd : (U64.add self.n 1 : Outcome ε Nat) = ok (self.n + 1) := U64.add_of_lt (by omega)
  have hmsg : (slice (self.b.val.set self.n 0) 0 (self.n + 1) : Outcome ε Bytes) = ok (s ++ [0]) := by
    rw [slice_of_le (Nat.zero_le _) (by rw [List.length_set]; omega), List.drop_zero, Nat.sub_zero,
      List.set_eq_take_append_cons_drop, if_pos (by omega), hfront, List.append_cons,
      List.take_left' (by simp [hn])]
  refine ⟨{ self with b := ⟨self.b.val.set self.n 0, by simp [self.b.property]⟩, n := self.n + 1 }, ?_⟩
  rw [LogBuf.finish, if_neg hif]
  simp only [hset, hadd, ok_bind, hmsg]

theorem LogBuf.Holds.finish {self : LogBuf} {s : Bytes} (h : self.Holds s) :
    ∃ self', (self.finish : Outcome ε (LogBuf × Bytes)) = ok (self', message s) := by
  unfold message
  split
  · exact h.finish_whole ‹_›
  · exact h.finish_truncated (Nat.lt_of_not_le ‹_›)

/-- The pieces, one after the other. -/
theorem LogBuf.Holds.foldlM_writeStr {self : LogBuf} {s : Bytes} (h : self.Holds s)
    (pieces : List Bytes) :
    ∃ self', (pieces.foldlM LogBuf.writeStr self : Outcome ε LogBuf) = ok self' ∧
      self'.Holds (s ++ pieces.flatten) := by
  induction pieces generalizing self s with
  | nil =>
    rw [List.flatten_nil, List.append_nil]
    exact ⟨self, rfl, h⟩
  | cons piece pieces ih =>
    rcases h.writeStr (ε := ε) piece with ⟨self₁, hwrite, h₁⟩
    rcases ih h₁ with ⟨self', hrest, h'⟩
    rw [List.flatten_cons, ← List.append_assoc]
    refine ⟨self', ?_, h'⟩
    rw [List.foldlM_cons, hwrite]
    exact hrest

/-- **A log message.**  Whatever pieces a text comes in, the message is the text and a
    zero, or as much of it as leaves room for an ellipsis and the zero. -/
theorem emit_eq_message (pieces : List Bytes) :
    (emit pieces : Outcome ε Bytes) = ok (message pieces.flatten) ∧
      (message pieces.flatten).length ≤ MSG_MAX ∧ (message pieces.flatten).getLast? = some 0 := by
  rcases holds_new.foldlM_writeStr (ε := ε) pieces with ⟨log, hwritten, hlog⟩
  rw [List.nil_append] at hlog
  rcases hlog.finish (ε := ε) with ⟨log', hfinish⟩
  constructor
  · rw [emit, hwritten, ok_bind, hfinish]
    rfl
  unfold message
  split
  · rename_i hfits
    rw [List.length_append]
    exact ⟨Nat.add_le_of_le_sub (by decide) hfits, by simp⟩
  · rw [List.length_append, List.length_take]
    constructor
    · have hmax := msg_max_bounds
      have hdots : ELLIPSIS.length = 4 := rfl
      omega
    · simp [ELLIPSIS]

/-- A full buffer and an empty piece: nothing is cut off. -/
example : (emit [List.replicate 511 0x78, []] : Outcome Unit Bytes) =
    ok (List.replicate 511 0x78 ++ [0]) := by decide +kernel

end ElfLoader.Log
