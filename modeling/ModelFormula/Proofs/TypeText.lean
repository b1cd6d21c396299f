import ModelFormula.CommandLine.Declaration

/-! # Types and declarations as texts

The text of a type is read as this type, provided that the levels of a category can stand between
commas. The levels that are read can, so a type or a declared field that has been read is read
again from its own text.
-/

namespace ModelFormula

namespace Text

variable {c : Char} {cs : List Char}

theorem trimStart_cons (h : isBlank c = false) : trimStart (c :: cs) = c :: cs :=
  List.dropWhile_cons_of_neg (by simp [h])

theorem trimEnd_concat (h : isBlank c = false) : trimEnd (cs ++ [c]) = cs ++ [c] := by
  rw [trimEnd, List.reverse_concat, trimStart_cons h, List.reverse_cons, List.reverse_reverse]

theorem trimEnd_cons (h : isBlank c = false) : trimEnd (c :: cs) = c :: trimEnd cs := by
  have hlast : [c].dropWhile isBlank = [c] := trimStart_cons h
  rw [trimEnd, trimEnd, trimStart, trimStart, List.reverse_cons, List.dropWhile_append, hlast]
  split
  · next hnil => simp [List.isEmpty_iff.mp hnil]
  · simp

theorem trim_trim (cs : List Char) : trim (trim cs) = trim cs := by
  unfold trim
  cases hcs : trimStart cs with
  | nil => rfl
  | cons c ds =>
    have hc : isBlank c = false := by
      have hhead := List.head?_dropWhile_not isBlank cs
      rw [← trimStart, hcs] at hhead
      simpa using hhead
    rw [trimEnd_cons hc, trimStart_cons hc, trimEnd_cons hc, trimEnd_trimEnd]

theorem trim_subset (cs : List Char) : trim cs ⊆ cs := by
  intro c hc
  rw [trim, trimEnd, List.mem_reverse] at hc
  have hstart := (List.dropWhile_sublist _).subset hc
  exact (List.dropWhile_sublist _).subset (List.mem_reverse.mp hstart)

end Text

theorem not_mem_of_mem_splitOn {α : Type} [BEq α] [LawfulBEq α] {a : α} {l piece : List α}
    (h : piece ∈ l.splitOn a) : a ∉ piece := by
  induction l generalizing piece with
  | nil =>
    rw [List.splitOn_nil, List.mem_singleton] at h
    simp [h]
  | cons b l ih =>
    rw [List.splitOn_cons_eq_if_modifyHead] at h
    split at h
    · rcases List.mem_cons.mp h with rfl | h
      · exact List.not_mem_nil
      · exact ih h
    · next hb =>
      obtain ⟨first, others, hsplit⟩ := List.exists_cons_of_ne_nil (List.splitOn_ne_nil a l)
      rw [hsplit] at h ih
      rcases List.mem_cons.mp h with rfl | h
      · have hne : a ≠ b := fun he => hb (by simp [he])
        simp [hne, ih List.mem_cons_self]
      · exact ih (List.mem_cons_of_mem _ h)

namespace DataType

variable {type : DataType} {word cs : List Char} {levels : List String} {level : String}

structure IsLevel (level : String) : Prop where

  ne_empty : level ≠ ""

  no_comma : ',' ∉ level.toList

  trimmed : Text.trim level.toList = level.toList

/-- The levels of a category, if any, can stand between commas. -/
def HasLevelText (type : DataType) : Prop :=
  ∀ levels, type.levels? = some levels → ∀ level ∈ levels, IsLevel level

theorem levels?_ofWord? (h : ofWord? word = some type) : type.levels? = none := by
  unfold ofWord? at h
  split at h <;> cases h <;> rfl

theorem not_mem_of_ofWord? (h : ofWord? word = some type) : '[' ∉ word := by
  intro hmem
  have hlower : '[' ∈ (String.ofList (word.map Char.toLower)).toList := by
    rw [String.toList_ofList]
    exact List.mem_map_of_mem (f := Char.toLower) hmem
  unfold ofWord? at h
  split at h
  all_goals first
    | cases h; done
    | next heq =>
      rw [heq] at hlower
      exact absurd hlower (by decide)

theorem bracketed?_eq (cs : List Char) :
    bracketed? ("categorical[".toList ++ (cs ++ [']'])) = some cs := by
  have hprefix : "categorical[".toList.isPrefixOf? ("categorical[".toList ++ (cs ++ [']'])) =
      some (cs ++ [']']) := rfl
  have hreverse : (cs ++ [']']).reverse = ']' :: cs.reverse := List.reverse_append
  have hsuffix : [']'].isSuffixOf? (cs ++ [']']) = some cs := by
    change ([']'].isPrefixOf? (cs ++ [']']).reverse).map List.reverse = some cs
    rw [hreverse]
    exact congrArg some (List.reverse_reverse cs)
  rw [bracketed?, hprefix]
  exact hsuffix

theorem ofString_bracketed (cs : List Char) :
    ofString (String.ofList ("categorical[".toList ++ (cs ++ [']']))) =
      .ok (categorical (levelsOf cs)) := by
  have htrim : Text.trim ("categorical[".toList ++ (cs ++ [']'])) =
      "categorical[".toList ++ (cs ++ [']']) := by
    have hstart : Text.trimStart ("categorical[".toList ++ (cs ++ [']'])) =
        "categorical[".toList ++ (cs ++ [']']) := Text.trimStart_cons rfl
    rw [Text.trim, hstart, ← List.append_assoc, Text.trimEnd_concat (by decide)]
  have hword : ofWord? ("categorical[".toList ++ (cs ++ [']'])) = none := by
    rw [Option.eq_none_iff_forall_ne_some]
    intro type h
    exact not_mem_of_ofWord? h (by simp)
  simp only [ofString, String.toList_ofList, htrim, hword, bracketed?_eq]

/-- Levels are cut apart again where they have been joined. -/
theorem levelsOf_intercalate (h : ∀ level ∈ levels, IsLevel level) :
    levelsOf (String.intercalate "," levels).toList = levels := by
  rw [String.toList_intercalate]
  cases levels with
  | nil => rfl
  | cons level levels =>
    have hsplit : ([','].intercalate ((level :: levels).map String.toList)).splitOn ',' =
        (level :: levels).map String.toList :=
      List.splitOn_intercalate ',' (List.forall_mem_map.mpr fun l hl => (h l hl).no_comma) (by simp)
    have htrim : ((level :: levels).map String.toList).map Text.trim =
        (level :: levels).map String.toList := by
      rw [List.map_map]
      exact List.map_congr_left fun l hl => (h l hl).trimmed
    have hkeep : ((level :: levels).map String.toList).filter (fun level => !level.isEmpty) =
        (level :: levels).map String.toList := by
      rw [List.filter_eq_self, List.forall_mem_map]
      intro l hl
      simpa using (h l hl).ne_empty
    have htext : ",".toList = [','] := rfl
    rw [levelsOf, htext, hsplit, htrim, hkeep, List.map_map]
    simp

theorem ofString_render (h : type.HasLevelText) : ofString type.render = .ok type := by
  cases type with
  | categorical levels =>
    have htext : (categorical levels).render = String.ofList ("categorical[".toList ++
        ((String.intercalate "," levels).toList ++ [']'])) := by
      rw [← String.toList_inj, String.toList_ofList]
      simp [render]
    rw [htext, ofString_bracketed, levelsOf_intercalate (h levels rfl)]
  | bool | i8 | i16 | i32 | i64 | f32 | f64 | string => rfl

theorem isLevel_of_mem_levelsOf (h : level ∈ levelsOf cs) : IsLevel level := by
  obtain ⟨ds, hds, rfl⟩ := List.mem_map.mp h
  obtain ⟨htrim, hne⟩ := List.mem_filter.mp hds
  obtain ⟨piece, hpiece, rfl⟩ := List.mem_map.mp htrim
  refine ⟨by simpa using hne, ?_, by rw [String.toList_ofList, Text.trim_trim]⟩
  rw [String.toList_ofList]
  exact fun hc => not_mem_of_mem_splitOn hpiece (Text.trim_subset piece hc)

theorem hasLevelText_of_ofString {text : String} (h : ofString text = .ok type) :
    type.HasLevelText := by
  intro levels hlevels level hlevel
  simp only [ofString] at h
  split at h
  · next hword =>
    cases h
    rw [levels?_ofWord? hword] at hlevels
    cases hlevels
  · obtain rfl := Except.ok.inj h
    obtain rfl := Option.some.inj hlevels
    exact isLevel_of_mem_levelsOf hlevel
  · cases h

end DataType

namespace Field

variable {text : String} {field : Field}

structure IsDeclared (field : Field) : Prop where

  ne_empty : field.name ≠ ""

  no_colon : ':' ∉ field.name.toList

  trimmed : Text.trim field.name.toList = field.name.toList

  hasLevelText : field.type.HasLevelText

theorem isDeclared_of_ofDeclaration (h : ofDeclaration text = .ok field) : field.IsDeclared := by
  unfold ofDeclaration at h
  split at h
  · cases h
  · split at h
    · cases h
    · next hne =>
      split at h
      · cases h
      · next htype =>
        obtain rfl := Except.ok.inj h
        refine ⟨by simpa using hne, ?_, ?_, DataType.hasLevelText_of_ofString htype⟩
        · rw [String.toList_ofList]
          intro hc
          have hall := List.all_takeWhile (p := (· != ':')) (l := text.toList)
          simpa using List.all_eq_true.mp hall ':' (Text.trim_subset _ hc)
        · rw [String.toList_ofList, Text.trim_trim]

theorem ofDeclaration_declaration (h : field.IsDeclared) :
    ofDeclaration field.declaration = .ok field := by
  have htext : field.declaration.toList = field.name.toList ++ ':' :: field.type.render.toList := by
    simp [declaration]
  have hname : ∀ c ∈ field.name.toList, (c != ':') = true := by
    intro c hc
    rw [bne_iff_ne]
    rintro rfl
    exact h.no_colon hc
  have hbefore : field.declaration.toList.takeWhile (· != ':') = field.name.toList := by
    rw [htext, List.takeWhile_append_of_pos hname]
    simp
  have hafter : field.declaration.toList.dropWhile (· != ':') =
      ':' :: field.type.render.toList := by
    rw [htext, List.dropWhile_append_of_pos hname]
    simp
  have hread : DataType.ofString (String.ofList field.type.render.toList) = .ok field.type := by
    rw [String.ofList_toList, DataType.ofString_render h.hasLevelText]
  rw [ofDeclaration, hbefore, hafter, h.trimmed]
  simp only [hread]
  split
  · next hnil => exact absurd (by simpa using hnil) h.ne_empty
  · rw [String.ofList_toList]

end Field

/-- A type is read from its own text exactly when its levels can stand between commas, and whatever
has been read, a type or the declaration of a field, is read again from its own text. -/
theorem ofString_render_iff :
    (∀ type : DataType, DataType.ofString type.render = .ok type ↔ type.HasLevelText) ∧
    (∀ text type, DataType.ofString text = .ok type → DataType.ofString type.render = .ok type) ∧
    ∀ text field, Field.ofDeclaration text = .ok field →
      Field.ofDeclaration field.declaration = .ok field := by
  refine ⟨fun type => ⟨DataType.hasLevelText_of_ofString, DataType.ofString_render⟩, ?_, ?_⟩
  · intro text type h
    exact DataType.ofString_render (DataType.hasLevelText_of_ofString h)
  · intro text field h
    exact Field.ofDeclaration_declaration (Field.isDeclared_of_ofDeclaration h)

/-- Levels with brackets, a colon and inner blanks, behind a name with an inner blank. -/
theorem ofString_render_of_brackets :
    let field : Field := { name := "x y", type := .categorical ["a]", "b: [c", "d  e"] }
    let text := " x y : \tcategorical[a] ,, b: [c,d  e ] "
    Field.ofDeclaration text = .ok field ∧
      Field.ofDeclaration field.declaration = .ok field ∧
      DataType.ofString field.type.render = .ok field.type := by
  intro field text
  have hread : Field.ofDeclaration text = .ok field := by
    have hfield : (Field.ofDeclaration text).toOption = some field := by decide +kernel
    cases hx : Field.ofDeclaration text with
    | error e => simp [hx, Except.toOption] at hfield
    | ok declared => simpa [hx, Except.toOption] using hfield
  have hlevels : field.type.HasLevelText := (Field.isDeclared_of_ofDeclaration hread).hasLevelText
  obtain ⟨htype, -, hfield⟩ := ofString_render_iff
  exact ⟨hread, hfield text field hread, (htype field.type).mpr hlevels⟩

end ModelFormula
