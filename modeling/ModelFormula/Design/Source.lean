import ModelFormula.Plan.Bound
import ModelFormula.Table.Batch
import ModelFormula.Table.Error

/-! # Source columns

The columns of a batch that a bound formula reads, found by name and checked against the schema.
A category is decoded to the codes of its labels; a label that is not declared has no code.
-/

namespace ModelFormula

inductive Source
  | numeric (column : Column)
  | factor (codes : Array (Option Nat))

namespace Source

def size : Source → Nat
  | numeric column => column.size
  | factor codes => codes.size

/-- The code of a label is its position among the levels. -/
def codes (levels : List String) (column : Column) : Array (Option Nat) :=
  (Array.range column.size).map fun row => (column.label? row).bind (levels.idxOf? ·)

def ofColumn (type : DataType) (column : Column) : Source :=
  match type.levels? with
  | some levels => factor (codes levels column)
  | none => numeric column

@[simp] theorem size_ofColumn (type : DataType) (column : Column) :
    (ofColumn type column).size = column.size := by
  unfold ofColumn
  split <;> simp [size, codes]

def decode (batch : Batch) (field : Field) : Except EvaluationError Source :=
  match batch.column? field.name with
  | none => .error (.mismatch field none)
  | some column =>
    if field.type.accepts column.storage then .ok (ofColumn field.type column)
    else .error (.mismatch field (some column.storage))

theorem size_of_decode {batch : Batch} {field : Field} {source : Source}
    (h : decode batch field = .ok source) : source.size = batch.rows := by
  unfold decode at h
  split at h
  · cases h
  · next column hc =>
    split at h
    · cases h
      rw [size_ofColumn, Batch.size_of_column? hc]
    · cases h

/-- The sources of the fields from position `start` on, where only those at the positions in
`used` are decoded. -/
def decodeAll (batch : Batch) (used : List Nat) :
    Nat → List Field → Except EvaluationError (List (Option Source))
  | _, [] => .ok []
  | start, field :: fields =>
    match if start ∈ used then (decode batch field).map some else .ok none with
    | .error e => .error e
    | .ok source => (decodeAll batch used (start + 1) fields).map (source :: ·)

theorem size_of_decodeAll {batch : Batch} {used : List Nat} {start : Nat} {fields : List Field}
    {sources : List (Option Source)} (h : decodeAll batch used start fields = .ok sources) :
    ∀ source, some source ∈ sources → source.size = batch.rows := by
  induction fields generalizing start sources with
  | nil =>
    cases h
    simp
  | cons field fields ih =>
    unfold decodeAll at h
    split at h
    · cases h
    · next first hfirst =>
      cases hrest : decodeAll batch used (start + 1) fields with
      | error e => rw [hrest] at h; cases h
      | ok rest =>
        rw [hrest] at h
        cases h
        intro source hs
        rcases List.mem_cons.mp hs with rfl | hs
        · split at hfirst
          · cases hd : decode batch field with
            | error e => rw [hd] at hfirst; cases hfirst
            | ok decoded =>
              rw [hd] at hfirst
              cases hfirst
              exact size_of_decode hd
          · cases hfirst
        · exact ih hrest source hs

end Source

end ModelFormula
