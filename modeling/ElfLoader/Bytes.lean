import Mathlib.Algebra.Order.Ring.Nat
import Mathlib.Data.List.Basic
import Mathlib.Tactic.Common

/-!
# Little-endian bytes

The value of a byte string read low byte first, and the bytes of a value written
the same way.
-/

namespace ElfLoader

abbrev Bytes := List UInt8

/-- The number whose bytes, lowest first, are `bs` (`from_le_bytes`). -/
def ofLe : Bytes → Nat
  | [] => 0
  | b :: bs => b.toNat + 256 * ofLe bs

/-- The `n` low bytes of `v`, lowest first (`to_le_bytes`). -/
def toLe : Nat → Nat → Bytes
  | 0, _ => []
  | n + 1, v => UInt8.ofNat v :: toLe n (v / 256)

theorem ofLe_lt (bs : Bytes) : ofLe bs < 256 ^ bs.length := by
  induction bs with
  | nil => simp [ofLe]
  | cons b bs ih =>
    have hb : b.toNat < 256 := b.toNat_lt
    simp only [ofLe, List.length_cons, Nat.pow_succ]
    omega

@[simp] theorem length_toLe (n v : Nat) : (toLe n v).length = n := by
  induction n generalizing v with
  | zero => rfl
  | succ n ih => simp [toLe, ih]

theorem ofLe_toLe (n v : Nat) : ofLe (toLe n v) = v % 256 ^ n := by
  induction n generalizing v with
  | zero => simp [toLe, ofLe, Nat.mod_one]
  | succ n ih =>
    have hb : (UInt8.ofNat v).toNat = v % 256 := by simp
    rw [toLe, ofLe, ih, hb, Nat.pow_succ, Nat.mul_comm (256 ^ n) 256, Nat.mod_mul]

theorem toLe_ofLe (bs : Bytes) : toLe bs.length (ofLe bs) = bs := by
  induction bs with
  | nil => rfl
  | cons b bs ih =>
    have hb : b.toNat < 256 := b.toNat_lt
    have hdiv : (b.toNat + 256 * ofLe bs) / 256 = ofLe bs := by omega
    have hlow : UInt8.ofNat (b.toNat + 256 * ofLe bs) = b := by
      apply UInt8.toNat_inj.mp
      rw [UInt8.toNat_ofNat']
      omega
    rw [List.length_cons, ofLe, toLe, hdiv, ih, hlow]

/-- `n` bytes of `f` from offset `off`; shorter at the end of `f`. -/
def bytesAt (f : Bytes) (off n : Nat) : Bytes := (f.drop off).take n

theorem length_bytesAt {f : Bytes} {off n : Nat} (h : off + n ≤ f.length) :
    (bytesAt f off n).length = n := by
  simp only [bytesAt, List.length_take, List.length_drop]
  omega

theorem getElem?_bytesAt {f : Bytes} {off n k : Nat} (hk : k < n) :
    (bytesAt f off n)[k]? = f[off + k]? := by
  simp [bytesAt, hk]

theorem bytesAt_append (f : Bytes) (off n m : Nat) :
    bytesAt f off n ++ bytesAt f (off + n) m = bytesAt f off (n + m) := by
  rw [bytesAt, bytesAt, bytesAt, List.take_add, List.drop_drop]

/-- Taking a part of a part. -/
theorem bytesAt_bytesAt {f : Bytes} {off n i m : Nat} (h : i + m ≤ n) :
    bytesAt (bytesAt f off n) i m = bytesAt f (off + i) m := by
  simp only [bytesAt, List.drop_take, List.take_take, List.drop_drop]
  congr 1
  omega

end ElfLoader
