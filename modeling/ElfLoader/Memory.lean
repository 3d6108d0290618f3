import ElfLoader.Bytes

/-!
# A flat memory

A byte for each address, what is read from it and what a write leaves.  `Shows m a bs`
says that `m` has the bytes `bs` from address `a` on; every other reading (words,
zero-terminated strings) is derived from it.
-/

namespace ElfLoader

abbrev Memory := Nat → UInt8

def peek (m : Memory) : Nat → Nat → Bytes
  | _, 0 => []
  | a, n + 1 => m a :: peek m (a + 1) n

/-- The memory after `data` was written at `a`. -/
def poke (m : Memory) (a : Nat) (data : Bytes) : Memory := fun x =>
  if a ≤ x ∧ x < a + data.length then data.getD (x - a) 0 else m x

def readWord (m : Memory) (a : Nat) : Nat := ofLe (peek m a 8)

/-- The bytes from `a` up to the first zero, if it is among the next `fuel`. -/
def cstrAt (m : Memory) : Nat → Nat → Option Bytes
  | 0, _ => none
  | fuel + 1, a => if m a = 0 then some [] else (cstrAt m fuel (a + 1)).map (m a :: ·)

@[simp] theorem length_peek (m : Memory) (a n : Nat) : (peek m a n).length = n := by
  induction n generalizing a with
  | zero => rfl
  | succ n ih => simp [peek, ih]

theorem peek_append (m : Memory) (a n k : Nat) :
    peek m a n ++ peek m (a + n) k = peek m a (n + k) := by
  induction n generalizing a with
  | zero => simp [peek]
  | succ n ih => rw [Nat.succ_add, peek, peek, List.cons_append, ← ih, Nat.add_right_comm a 1 n, Nat.add_assoc]

def Shows (m : Memory) (a : Nat) (bs : Bytes) : Prop := peek m a bs.length = bs

variable {m m' : Memory} {a b : Nat} {bs cs : Bytes}

@[simp] theorem shows_nil : Shows m a [] := rfl

@[simp] theorem shows_cons {x : UInt8} : Shows m a (x :: bs) ↔ m a = x ∧ Shows m (a + 1) bs := by
  simp [Shows, peek]

theorem shows_append : Shows m a (bs ++ cs) ↔ Shows m a bs ∧ Shows m (a + bs.length) cs := by
  induction bs generalizing a with
  | nil => simp
  | cons x bs ih =>
    rw [List.cons_append, shows_cons, shows_cons, ih, List.length_cons, and_assoc,
      Nat.add_right_comm, Nat.add_assoc]

/-- Bytes are shown byte by byte. -/
theorem shows_iff : Shows m a bs ↔ ∀ i, i < bs.length → m (a + i) = bs.getD i 0 := by
  induction bs generalizing a with
  | nil => simp
  | cons x bs ih =>
    rw [shows_cons, ih, List.length_cons, Nat.forall_lt_succ_left]
    simp [Nat.add_assoc, Nat.add_comm 1]

/-- What is not written stays. -/
theorem Shows.congr (h : Shows m a bs) (hm : ∀ x, a ≤ x → x < a + bs.length → m' x = m x) :
    Shows m' a bs := by
  rw [shows_iff] at h ⊢
  intro i hi
  rw [hm (a + i) (by omega) (by omega), h i hi]

theorem shows_poke : Shows (poke m a bs) a bs := by
  rw [shows_iff]
  intro i hi
  have hin : a ≤ a + i ∧ a + i < a + bs.length := by omega
  rw [poke, if_pos hin, Nat.add_sub_cancel_left]

theorem poke_of_lt {x : Nat} (h : x < a) : poke m a bs x = m x := if_neg (by omega)

theorem poke_of_le {x : Nat} (h : a + bs.length ≤ x) : poke m a bs x = m x := if_neg (by omega)

/-- A write leaves what is shown above it. -/
theorem Shows.poke_below (h : Shows m b cs) (hab : a + bs.length ≤ b) :
    Shows (poke m a bs) b cs :=
  h.congr fun _ hx _ => poke_of_le (Nat.le_trans hab hx)

/-- A write leaves what is shown below it. -/
theorem Shows.poke_above (h : Shows m b cs) (hab : b + cs.length ≤ a) :
    Shows (poke m a bs) b cs :=
  h.congr fun _ _ hx => poke_of_lt (Nat.lt_of_lt_of_le hx hab)

/-- A write right behind what is shown. -/
theorem Shows.poke_behind (h : Shows m b cs) : Shows (poke m (b + cs.length) bs) b (cs ++ bs) :=
  shows_append.mpr ⟨h.poke_above le_rfl, shows_poke⟩

/-- Two writes, the second right behind the first. -/
theorem poke_poke_behind :
    poke (poke m a bs) (a + bs.length) cs = poke m a (bs ++ cs) := by
  funext x
  simp only [poke, List.length_append, List.getD_eq_getElem?_getD]
  grind

/-- Two writes, the second right in front of the first. -/
theorem poke_poke_before :
    poke (poke m (a + bs.length) cs) a bs = poke m a (bs ++ cs) := by
  funext x
  simp only [poke, List.length_append, List.getD_eq_getElem?_getD]
  grind

@[simp] theorem poke_nil : poke m a [] = m := by
  funext x
  exact if_neg (by simp only [List.length_nil]; omega)

theorem readWord_of_shows {v : Nat} (h : Shows m a (toLe 8 v)) (hv : v < 2 ^ 64) :
    readWord m a = v := by
  have hpeek : peek m a 8 = toLe 8 v := by simpa [Shows] using h
  rw [readWord, hpeek, ofLe_toLe]
  exact Nat.mod_eq_of_lt hv

/-- A string without zeros is read back from its zero-terminated copy. -/
theorem cstrAt_of_shows {fuel : Nat} (h : Shows m a (bs ++ [0])) (h0 : 0 ∉ bs)
    (hfuel : bs.length < fuel) : cstrAt m fuel a = some bs := by
  induction bs generalizing a fuel with
  | nil =>
    obtain ⟨fuel, rfl⟩ : ∃ n, fuel = n + 1 := ⟨fuel - 1, by simp at hfuel; omega⟩
    have hz : m a = 0 := by simpa using h
    rw [cstrAt, if_pos hz]
  | cons x bs ih =>
    obtain ⟨fuel, rfl⟩ : ∃ n, fuel = n + 1 := ⟨fuel - 1, by simp at hfuel; omega⟩
    rw [List.mem_cons, not_or] at h0
    obtain ⟨hx, hrest⟩ := shows_cons.mp h
    have hne : ¬ m a = 0 := by rw [hx]; exact Ne.symm h0.1
    rw [cstrAt, if_neg hne, ih hrest h0.2 (by simpa using hfuel), Option.map_some, hx]

end ElfLoader
