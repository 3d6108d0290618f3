import ElfLoader.Bytes

/-!
# Path helpers (`util.rs`)
-/

namespace ElfLoader.Util

open ElfLoader

def SLASH : UInt8 := 0x2f

/-- Index of the last element that satisfies `p` (`Iterator::rposition`). -/
def rposition {α : Type} (p : α → Bool) (xs : List α) : Option Nat :=
  (xs.reverse.findIdx? p).map (xs.length - 1 - ·)

/-- The last component of `path`, without trailing slashes. -/
def basename (path : Bytes) : Bytes :=
  let fin := match rposition (· != SLASH) path with
    | some i => i + 1
    | none => 0
  let stripped := path.take fin
  match rposition (· == SLASH) stripped with
  | some i => stripped.drop (i + 1)
  | none => stripped

def isBareName (name : Bytes) : Bool :=
  !name.isEmpty && name.head? != some SLASH && name.head? != some 0x2e && !name.contains SLASH

/-- The candidate for `name` in one directory of the search path; an empty one is
    the current directory. -/
def candidate (name dir : Bytes) : Bytes :=
  let cand := if dir.isEmpty then [0x2e] else dir
  (if cand.getLast? != some SLASH then cand ++ [SLASH] else cand) ++ name

/-! ### The last component -/

section Rposition

variable {α : Type} {p : α → Bool}

theorem rposition_eq_none {xs : List α} (h : ∀ x ∈ xs, p x = false) : rposition p xs = none := by
  have hreverse : xs.reverse.findIdx? p = none := by
    apply List.findIdx?_eq_none_iff.mpr
    intro x hx
    exact h x (List.mem_reverse.mp hx)
  rw [rposition, hreverse]
  rfl

theorem rposition_append_cons {x : α} {xs ys : List α} (hx : p x = true)
    (hys : ∀ y ∈ ys, p y = false) : rposition p (xs ++ x :: ys) = some xs.length := by
  have hreverse : (xs ++ x :: ys).reverse.findIdx? p = some ys.length := by
    have hfront : ys.reverse.findIdx? p = none := by
      apply List.findIdx?_eq_none_iff.mpr
      intro y hy
      exact hys y (List.mem_reverse.mp hy)
    simp [List.findIdx?_append, hfront, List.findIdx?_cons, hx]
  rw [rposition, hreverse]
  simp only [Option.map_some, List.length_append, List.length_cons]
  congr 1
  omega

end Rposition

/-- Nothing is stripped off a path that does not end in a slash. -/
theorem basename_concat (front : Bytes) {c : UInt8} (hc : c ≠ SLASH) :
    basename (front ++ [c]) =
      match rposition (· == SLASH) (front ++ [c]) with
      | some i => (front ++ [c]).drop (i + 1)
      | none => front ++ [c] := by
  have hlast : rposition (· != SLASH) (front ++ [c]) = some front.length :=
    rposition_append_cons (by simpa using hc) fun y hy => absurd hy List.not_mem_nil
  have hwhole : (front ++ [c]).take (front.length + 1) = front ++ [c] :=
    List.take_of_length_le (by simp)
  simp only [basename, hlast, hwhole]

theorem not_slash {name : Bytes} (hname : SLASH ∉ name) : ∀ c ∈ name, (c == SLASH) = false := by
  intro c hc
  apply beq_false_of_ne
  intro heq
  exact hname (heq ▸ hc)

theorem basename_of_not_mem {name : Bytes} (hne : name ≠ []) (hname : SLASH ∉ name) :
    basename name = name := by
  rcases List.eq_nil_or_concat' name with rfl | ⟨front, c, rfl⟩
  · exact absurd rfl hne
  · have hc : c ≠ SLASH := fun h => hname (by simp [h])
    rw [basename_concat front hc, rposition_eq_none (not_slash hname)]

/-- What stands behind the last slash, if something does. -/
theorem basename_append_slash (dir : Bytes) {name : Bytes} (hne : name ≠ [])
    (hname : SLASH ∉ name) : basename (dir ++ SLASH :: name) = name := by
  rcases List.eq_nil_or_concat' name with rfl | ⟨front, c, rfl⟩
  · exact absurd rfl hne
  · have hc : c ≠ SLASH := fun h => hname (by simp [h])
    have hsplit : dir ++ SLASH :: (front ++ [c]) = (dir ++ SLASH :: front) ++ [c] := by simp
    have hslash : rposition (· == SLASH) (dir ++ SLASH :: (front ++ [c])) = some dir.length :=
      rposition_append_cons (by decide) (not_slash hname)
    rw [hsplit, basename_concat _ hc, ← hsplit, hslash]
    simp

theorem mem_of_mem_basename {path : Bytes} {c : UInt8} (hc : c ∈ basename path) : c ∈ path := by
  unfold basename at hc
  dsimp only at hc
  split at hc
  · exact List.mem_of_mem_take (List.mem_of_mem_drop hc)
  · exact List.mem_of_mem_take hc

/-! ### Names to look up -/

theorem isBareName_spec {name : Bytes} (h : isBareName name = true) : name ≠ [] ∧ SLASH ∉ name := by
  simp only [isBareName, Bool.and_eq_true, Bool.not_eq_true', List.isEmpty_eq_false_iff] at h
  rcases h with ⟨⟨⟨hne, -⟩, -⟩, hslash⟩
  constructor
  · exact hne
  · intro hmem
    simp [hmem] at hslash

theorem basename_of_isBareName {name : Bytes} (h : isBareName name = true) :
    basename name = name := by
  rcases isBareName_spec h with ⟨hne, hslash⟩
  exact basename_of_not_mem hne hslash

/-- What a directory of the search path makes of a name. -/
inductive Joins (name : Bytes) : Bytes → Bytes → Prop
  | here : Joins name [] ([0x2e, SLASH] ++ name)
  | trailing (dir : Bytes) : Joins name (dir ++ [SLASH]) (dir ++ [SLASH] ++ name)
  | plain (dir : Bytes) {c : UInt8} (hc : c ≠ SLASH) :
      Joins name (dir ++ [c]) (dir ++ [c] ++ [SLASH] ++ name)

theorem joins_candidate (name dir : Bytes) : Joins name dir (candidate name dir) := by
  rcases List.eq_nil_or_concat' dir with rfl | ⟨front, c, rfl⟩
  · exact .here
  · by_cases hc : c = SLASH
    · subst hc
      have hcand : candidate name (front ++ [SLASH]) = front ++ [SLASH] ++ name := by
        simp [candidate]
      rw [hcand]
      exact .trailing front
    · have hcand : candidate name (front ++ [c]) = front ++ [c] ++ [SLASH] ++ name := by
        simp [candidate, hc]
      rw [hcand]
      exact .plain front hc

/-- A program is found under its name. -/
theorem basename_of_joins {name dir cand : Bytes} (hname : isBareName name = true)
    (h : Joins name dir cand) : basename cand = name := by
  rcases isBareName_spec hname with ⟨hne, hslash⟩
  cases h with
  | here => exact basename_append_slash [0x2e] hne hslash
  | trailing dir =>
    rw [List.append_assoc]
    exact basename_append_slash dir hne hslash
  | @plain dir c hc =>
    rw [List.append_assoc]
    exact basename_append_slash (dir ++ [c]) hne hslash

theorem nul_not_mem_of_joins {name dir cand : Bytes} (h : Joins name dir cand) (hdir : 0 ∉ dir)
    (hname : 0 ∉ name) : 0 ∉ cand := by
  have hslash : (0 : UInt8) ≠ SLASH := by decide
  cases h with
  | here => simp [hname, hslash]
  | trailing dir =>
    intro hmem
    rcases List.mem_append.mp hmem with hmem | hmem
    · exact hdir hmem
    · exact hname hmem
  | @plain dir c hc =>
    intro hmem
    rcases List.mem_append.mp hmem with hmem | hmem
    · rcases List.mem_append.mp hmem with hmem | hmem
      · exact hdir hmem
      · exact hslash (List.mem_singleton.mp hmem)
    · exact hname hmem

end ElfLoader.Util
