import Mathlib.Data.List.Basic

/-!
# Files of records

A table in a text file has a record on each line and blanks between its fields.  A reader
gets back the fields that were written, as long as there is no blank in them and no line ends
in them.
-/

namespace ElfLoader

section Records

variable {α : Type} {eol : α} {blank : α → Bool}

/-- The fields of a line: what is between the blanks. -/
def fields (blank : α → Bool) (line : List α) : List (List α) :=
  (line.splitOnP blank).filter fun field => !field.isEmpty

/-- A line: its first field, and the others with what is in front of each. -/
def lineOf (field : List α) (rest : List (α × List α)) : List α :=
  field ++ rest.flatMap fun next => next.1 :: next.2

/-- A field that is read as it was written. -/
def Field (eol : α) (blank : α → Bool) (field : List α) : Prop :=
  field ≠ [] ∧ ∀ x ∈ field, blank x = false ∧ x ≠ eol

instance [DecidableEq α] (field : List α) : Decidable (Field eol blank field) :=
  inferInstanceAs (Decidable (field ≠ [] ∧ ∀ x ∈ field, blank x = false ∧ x ≠ eol))

/-- What may stand in front of a field. -/
def Separator (eol : α) (blank : α → Bool) (x : α) : Prop := blank x = true ∧ x ≠ eol

/-- A line whose fields are read as they were written. -/
structure Line (eol : α) (blank : α → Bool) (field : List α) (rest : List (α × List α)) : Prop where
  first : Field eol blank field
  others : ∀ next ∈ rest, Separator eol blank next.1 ∧ Field eol blank next.2

theorem fields_of_field {field : List α} (h : Field eol blank field) :
    fields blank field = [field] := by
  rw [fields, List.splitOnP_eq_singleton fun x hx => (h.2 x hx).1]
  simp [h.1]

/-- A blank ends a field. -/
theorem fields_append_blank {b : α} (hb : blank b = true) (line rest : List α) :
    fields blank (line ++ b :: rest) = fields blank line ++ fields blank rest := by
  rw [fields, List.splitOnP_append_cons line rest hb, List.filter_append]
  rfl

theorem Line.fields_eq {field : List α} {rest : List (α × List α)}
    (h : Line eol blank field rest) :
    fields blank (lineOf field rest) = field :: rest.map Prod.snd := by
  induction rest generalizing field with
  | nil =>
    rw [lineOf, List.flatMap_nil, List.append_nil]
    exact fields_of_field h.first
  | cons next rest ih =>
    rcases List.forall_mem_cons.mp h.others with ⟨⟨hsep, hfield⟩, hothers⟩
    have hrest := ih ⟨hfield, hothers⟩
    rw [lineOf] at hrest
    rw [lineOf, List.flatMap_cons, List.cons_append, fields_append_blank hsep.1,
      fields_of_field h.first, hrest]
    rfl

/-- A line does not end before its end. -/
theorem Line.not_mem {field : List α} {rest : List (α × List α)} (h : Line eol blank field rest) :
    eol ∉ lineOf field rest := by
  rw [lineOf, List.mem_append, List.mem_flatMap]
  rintro (hfirst | ⟨next, hnext, hmem⟩)
  · exact (h.first.2 eol hfirst).2 rfl
  · rcases h.others next hnext with ⟨hsep, hfield⟩
    rcases List.mem_cons.mp hmem with heq | hin
    · exact hsep.2 heq.symm
    · exact (hfield.2 eol hin).2 rfl

variable [BEq α]

/-- The records of a text.  Lines without a field are passed over. -/
def records (eol : α) (blank : α → Bool) (text : List α) : List (List (List α)) :=
  ((text.splitOn eol).map (fields blank)).filter fun record => !record.isEmpty

@[simp] theorem records_nil : records eol blank [] = [] := by
  simp [records, fields]

/-- **A line is a record.** -/
theorem Line.records_eq [LawfulBEq α] {field : List α} {rest : List (α × List α)}
    (h : Line eol blank field rest) (text : List α) :
    records eol blank (lineOf field rest ++ eol :: text) =
      (field :: rest.map Prod.snd) :: records eol blank text := by
  rw [records, List.splitOn_append_cons_self, List.splitOn_eq_singleton h.not_mem]
  simp [records, h.fields_eq]

/-- Lines that are written one after the other are read one after the other. -/
theorem records_flatMap {ι : Type} {line : ι → List α} {record : ι → List (List α)} {xs : List ι}
    (h : ∀ x ∈ xs, ∀ text, records eol blank (line x ++ text) =
      record x :: records eol blank text) (text : List α) :
    records eol blank (xs.flatMap line ++ text) = xs.map record ++ records eol blank text := by
  induction xs with
  | nil => rfl
  | cons x xs ih =>
    have htail := ih fun y hy => h y (List.mem_cons_of_mem x hy)
    rw [List.flatMap_cons, List.append_assoc, h x List.mem_cons_self, htail]
    rfl

end Records

end ElfLoader
