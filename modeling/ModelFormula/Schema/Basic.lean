import ModelFormula.Schema.DataType

/-! # Schemas

A schema is an ordered list of named, typed fields. Names are distinct, and every category has at
least one level and none twice; `Schema.ofFields` refuses all other lists and names the first
fault in field order.
-/

namespace ModelFormula

structure Field where
  name : String
  type : DataType
  deriving DecidableEq, Repr

/-- The first element that repeats an earlier one, where `seen` comes before the list. -/
def firstRepeat? {α : Type} [DecidableEq α] (seen : List α) : List α → Option α
  | [] => none
  | x :: xs => if x ∈ seen then some x else firstRepeat? (x :: seen) xs

theorem firstRepeat?_eq_none_iff {α : Type} [DecidableEq α] {seen xs : List α} :
    firstRepeat? seen xs = none ↔ xs.Nodup ∧ ∀ x ∈ xs, x ∉ seen := by
  induction xs generalizing seen with
  | nil => simp [firstRepeat?]
  | cons x xs ih =>
    unfold firstRepeat?
    split
    · next h => simp [h]
    · next h =>
      rw [ih, List.nodup_cons]
      constructor
      · rintro ⟨hnd, hall⟩
        refine ⟨⟨fun hx => hall x hx List.mem_cons_self, hnd⟩, ?_⟩
        intro y hy
        rcases List.mem_cons.mp hy with rfl | hy
        · exact h
        · exact fun hs => hall y hy (List.mem_cons_of_mem _ hs)
      · rintro ⟨⟨hx, hnd⟩, hall⟩
        refine ⟨hnd, fun y hy hs => ?_⟩
        rcases List.mem_cons.mp hs with rfl | hs
        · exact hx hy
        · exact hall y (List.mem_cons_of_mem _ hy) hs

namespace DataType

def LevelsOk (type : DataType) : Prop :=
  ∀ levels, type.levels? = some levels → levels ≠ [] ∧ levels.Nodup

end DataType

namespace Field

def levelFault? (field : Field) : Option SchemaError :=
  match field.type.levels? with
  | none => none
  | some [] => some (.emptyLevels field.name)
  | some levels => (firstRepeat? [] levels).map (.duplicateLevel field.name)

theorem levelFault?_eq_none_iff {field : Field} :
    field.levelFault? = none ↔ field.type.LevelsOk := by
  unfold levelFault? DataType.LevelsOk
  cases field.type.levels? with
  | none => simp
  | some levels =>
    cases levels with
    | nil => simp
    | cons level levels => simp [firstRepeat?_eq_none_iff]

/-- The line for a field: its name and its type, with the levels of a category. -/
def render (field : Field) : String :=
  match field.type.levels? with
  | some levels => field.name ++ ": \x7b type: " ++ field.type.name ++ ", levels: ["
      ++ String.intercalate ", " levels ++ "] \x7d\n"
  | none => field.name ++ ": \x7b type: " ++ field.type.name ++ " \x7d\n"

end Field

/-- The first fault of a list of fields, where the names in `seen` are taken. -/
def fieldsFault? (seen : List String) : List Field → Option SchemaError
  | [] => none
  | field :: fields =>
    if field.name ∈ seen then some (.duplicateField field.name)
    else match field.levelFault? with
      | some fault => some fault
      | none => fieldsFault? (field.name :: seen) fields

theorem fieldsFault?_eq_none_iff {seen : List String} {fields : List Field} :
    fieldsFault? seen fields = none ↔
      ((fields.map Field.name).Nodup ∧ ∀ name ∈ fields.map Field.name, name ∉ seen) ∧
        ∀ field ∈ fields, field.type.LevelsOk := by
  induction fields generalizing seen with
  | nil => simp [fieldsFault?]
  | cons field fields ih =>
    unfold fieldsFault?
    split
    · next h => simp [h]
    · next h =>
      have hrepeat : firstRepeat? seen ((field :: fields).map Field.name) =
          firstRepeat? (field.name :: seen) (fields.map Field.name) := by
        simp [firstRepeat?, h]
      rw [← firstRepeat?_eq_none_iff, hrepeat, firstRepeat?_eq_none_iff, List.forall_mem_cons,
        ← Field.levelFault?_eq_none_iff]
      cases field.levelFault? with
      | none => simp [ih]
      | some fault => simp

/-- Fields with distinct names and sound levels, in order. -/
structure Schema where
  fields : List Field
  nodup_names : (fields.map Field.name).Nodup
  levelsOk : ∀ field ∈ fields, field.type.LevelsOk
  deriving DecidableEq

namespace Schema

@[ext] theorem ext {s t : Schema} (h : s.fields = t.fields) : s = t := by
  cases s; cases t; cases h; rfl

def ofFields (fields : List Field) : Except SchemaError Schema :=
  match h : fieldsFault? [] fields with
  | some fault => .error fault
  | none =>
    have ok := fieldsFault?_eq_none_iff.mp h
    .ok ⟨fields, ok.1.1, ok.2⟩

theorem ofFields_eq_ok_iff {fields : List Field} {s : Schema} :
    ofFields fields = .ok s ↔ s.fields = fields := by
  unfold ofFields
  split
  · next fault h =>
    simp only [reduceCtorEq, false_iff]
    rintro rfl
    have : fieldsFault? [] s.fields = none :=
      fieldsFault?_eq_none_iff.mpr ⟨⟨s.nodup_names, by simp⟩, s.levelsOk⟩
    simp [this] at h
  · next h =>
    rw [Except.ok.injEq]
    exact ⟨fun e => e ▸ rfl, fun e => Schema.ext e.symm⟩

def size (s : Schema) : Nat := s.fields.length

def names (s : Schema) : List String := s.fields.map Field.name

def indexOf? (s : Schema) (name : String) : Option Nat :=
  s.fields.findIdx? fun field => field.name == name

def field? (s : Schema) (name : String) : Option Field :=
  s.fields.find? fun field => field.name == name

def render (s : Schema) : String := String.join (s.fields.map Field.render)

instance : ToString Schema := ⟨render⟩

end Schema

end ModelFormula
