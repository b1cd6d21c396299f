import ModelFormula.Proofs.Decoding

/-! # Model frames

The frame has one column for every field of the output schema, in the same order. The names of
the fields are distinct, so every column of the frame is found by its name.
-/

namespace ModelFormula

theorem Batch.column?_of_mem {batch : Batch} {name : String} {column : Column}
    (h : (batch.columns.map Prod.fst).Nodup) (hm : (name, column) ∈ batch.columns) :
    batch.column? name = some column := by
  obtain ⟨before, after, e⟩ := List.append_of_mem hm
  refine List.lookup_eq_some_iff.mpr ⟨before, after, e, fun other hother => ?_⟩
  rw [e, List.map_append, List.map_cons, List.nodup_append] at h
  have hne : other.1 ≠ name :=
    h.2.2 _ (List.mem_map_of_mem hother) _ List.mem_cons_self
  simpa using hne.symm

theorem Batch.ext {batch batch' : Batch} (hrows : batch.rows = batch'.rows)
    (hcolumns : batch.columns = batch'.columns) : batch = batch' := by
  cases batch
  cases batch'
  cases hrows
  cases hcolumns
  rfl

namespace Evaluation

variable {f : Formula} {s : Schema} {b : BoundFormula} {e : Evaluation} {t : Term} {p : TermPlan}

theorem length_outputColumns (e : Evaluation) (h : Term.Planned s t p) :
    (e.outputColumns p).length = p.outputs.length := by
  cases h with
  | number | category => rfl
  | function =>
    unfold outputColumns
    split <;> first | rfl | contradiction
  | interaction =>
    unfold Term.interactionPlan
    split
    · rfl
    · simp [outputColumns]

def slots (e : Evaluation) (p : TermPlan) : List (Field × Column) :=
  p.outputs.zip (e.outputColumns p)

def frameSlots (e : Evaluation) : List (Field × Column) := e.bound.plans.flatMap e.slots

theorem columns_frame (e : Evaluation) :
    e.frame.columns = e.frameSlots.map fun slot => (slot.1.name, slot.2) := by
  rw [frame, frameSlots, List.map_flatMap]
  refine List.flatMap_congr fun p _ => ?_
  rw [List.zip_map_left]
  rfl

theorem fields_output (h : f.bind s = .ok e.bound) :
    e.bound.output.fields = e.frameSlots.map Prod.fst := by
  obtain ⟨-, -, -, -, houtput⟩ := Formula.bind_iff.mp h
  rw [houtput, frameSlots, List.map_flatMap]
  refine List.flatMap_congr fun p hp => ?_
  have hplanned := e.bound.planned_of_mem_readers h (e.bound.mem_readers_of_mem_plans hp)
  exact (List.map_fst_zip (Nat.le_of_eq (e.length_outputColumns hplanned).symm)).symm

theorem columns_output (h : f.bind s = .ok e.bound) :
    e.bound.plans.flatMap e.outputColumns = e.frameSlots.map Prod.snd := by
  rw [frameSlots, List.map_flatMap]
  refine List.flatMap_congr fun p hp => ?_
  have hplanned := e.bound.planned_of_mem_readers h (e.bound.mem_readers_of_mem_plans hp)
  exact (List.map_snd_zip (Nat.le_of_eq (e.length_outputColumns hplanned))).symm

theorem names_frame (h : f.bind s = .ok e.bound) :
    e.frame.columns.map Prod.fst = e.bound.output.names := by
  rw [columns_frame, Schema.names, fields_output h, List.map_map, List.map_map]
  rfl

theorem column?_frame (h : f.bind s = .ok e.bound) {slot : Field × Column}
    (hm : slot ∈ e.frameSlots) : e.frame.column? slot.1.name = some slot.2 := by
  refine Batch.column?_of_mem ?_ ?_
  · rw [names_frame h]
    exact e.bound.output.nodup_names
  · rw [columns_frame]
    exact List.mem_map_of_mem hm

end Evaluation

end ModelFormula
