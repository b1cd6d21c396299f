import Mathlib.Data.List.Basic
import ModelFormula.Proofs.Acceptance
import ModelFormula.Proofs.Results

/-! # Texts that are read were written

Whatever a reader accepts is a way to write the value that it returns. With the converse, a text
is read into a response and edits exactly when the grammar writes them so.
-/

namespace ModelFormula.Formula

open Grammar

def Sound {α : Type} (read : List Char → Outcome α) (Writes : α → List Char → Prop) : Prop :=
  ∀ ⦃cs value rest⦄, read cs = .ok value rest → ∃ ds, cs = ds ++ rest ∧ Writes value ds

def WritesNested (term : Term) (cs : List Char) : Prop :=
  WritesTerm term cs ∧ term.isPlaceholder = false

variable {read : List Char → Outcome Term} {symbol cs rest : List Char} {term : Term}
  {terms : List Term}

theorem exists_written_argument (hn : Sound read WritesNested)
    (h : argument read cs = .ok term rest) : ∃ g₁ g₂ body g₃, IsGap g₁ ∧ IsGap g₂ ∧ IsGap g₃ ∧
      WritesNested term body ∧ cs = g₁ ++ '(' :: (g₂ ++ (body ++ (g₃ ++ ')' :: rest))) := by
  obtain ⟨g₁, h₁, hcs⟩ := exists_gap cs
  unfold argument at h
  split at h
  · next inside hinside =>
    obtain ⟨g₂, h₂, hg₂⟩ := exists_gap inside
    split at h
    · next arg after harg =>
      obtain ⟨body, hbody, hw⟩ := hn harg
      obtain ⟨g₃, h₃, hg₃⟩ := exists_gap after
      split at h
      · next rest' hrest =>
        obtain ⟨rfl, rfl⟩ := Outcome.ok.inj h
        refine ⟨g₁, g₂, body, g₃, h₁, h₂, h₃, hw, ?_⟩
        rw [hcs, hinside, hg₂, hbody, hg₃, hrest]
      · cases h
    · cases h
    · cases h
  · cases h

theorem sound_factor (hn : Sound read WritesNested) : Sound (factor read) WritesFactor := by
  intro cs term rest h
  unfold factor at h
  split at h
  · cases h
  · next name after hname =>
    obtain ⟨ns, rfl, hw⟩ := writesName_of_name? hname
    split at h
    · next arg rest' harg =>
      obtain ⟨rfl, rfl⟩ := Outcome.ok.inj h
      obtain ⟨g₁, g₂, body, g₃, h₁, h₂, h₃, hb, rfl⟩ := exists_written_argument hn harg
      exact ⟨_, by simp, .call hw h₁ h₂ hb.1 hb.2 h₃⟩
    · obtain ⟨rfl, rfl⟩ := Outcome.ok.inj h
      exact ⟨ns, rfl, .column hw⟩
    · cases h

theorem sound_chain (hf : Sound read WritesFactor) (fuel : Nat) :
    Sound (chain symbol read fuel) (WritesLinks symbol) := by
  induction fuel with
  | zero =>
    intro cs terms rest h
    obtain ⟨rfl, rfl⟩ := Outcome.ok.inj h
    exact ⟨[], rfl, .nil⟩
  | succ fuel ih =>
    intro cs terms rest h
    rw [chain] at h
    split at h
    · obtain ⟨rfl, rfl⟩ := Outcome.ok.inj h
      exact ⟨[], rfl, .nil⟩
    · next after hafter =>
      obtain ⟨g₁, h₁, hcs⟩ := exists_gap cs
      obtain ⟨g₂, h₂, hg₂⟩ := exists_gap after
      rw [← List.append_eq_of_isPrefixOf?_eq_some hafter, hg₂] at hcs
      split at h
      · next term after' hterm =>
        obtain ⟨ts, hts, hw⟩ := hf hterm
        rw [hts] at hcs
        split at h
        · next terms' rest' hterms =>
          obtain ⟨rfl, rfl⟩ := Outcome.ok.inj h
          obtain ⟨ds, rfl, hl⟩ := ih hterms
          exact ⟨_, by simp [hcs], .cons h₁ h₂ hw hl⟩
        · obtain ⟨rfl, rfl⟩ := Outcome.ok.inj h
          exact ⟨_, by simp [hcs], .cons h₁ h₂ hw .nil⟩
        · cases h
      · obtain ⟨rfl, rfl⟩ := Outcome.ok.inj h
        exact ⟨[], rfl, .nil⟩
      · cases h

theorem exists_written_operands {first : Term} {fs : List Char} (hf : Sound read WritesFactor)
    (hfirst : WritesFactor first fs) (h : operands read first cs = .ok term rest) :
    ∃ ds, cs = ds ++ rest ∧ WritesTerm term (fs ++ ds) := by
  unfold operands at h
  split at h
  · next second others rest' hchain =>
    obtain ⟨rfl, rfl⟩ := Outcome.ok.inj h
    obtain ⟨ds, rfl, hl⟩ := sound_chain hf _ hchain
    exact ⟨ds, rfl, .interaction hfirst hl⟩
  · cases h
  · split at h
    · next second others rest' hchain =>
      obtain ⟨rfl, rfl⟩ := Outcome.ok.inj h
      obtain ⟨ds, rfl, hl⟩ := sound_chain hf _ hchain
      exact ⟨ds, rfl, .crossing hfirst hl⟩
    · cases h
    · obtain ⟨rfl, rfl⟩ := Outcome.ok.inj h
      refine ⟨[], rfl, ?_⟩
      rw [← crossingOf_singleton first]
      exact .crossing hfirst .nil

theorem sound_termOf (hf : Sound read WritesFactor) : Sound (termOf read) WritesTerm := by
  intro cs term rest h
  unfold termOf at h
  split at h
  · next rest' hdot =>
    obtain ⟨rfl, rfl⟩ := Outcome.ok.inj h
    exact ⟨['.'], eq_of_literal? hdot, .dot⟩
  · split at h
    · next first after hfirst =>
      obtain ⟨fs, rfl, hw⟩ := hf hfirst
      obtain ⟨ds, rfl, ht⟩ := exists_written_operands hf hw h
      exact ⟨fs ++ ds, by simp, ht⟩
    · cases h
    · cases h

theorem sound_nested (depth : Nat) : Sound (nested depth) WritesNested := by
  induction depth with
  | zero =>
    intro cs term rest h
    cases h
  | succ depth ih =>
    intro cs term rest h
    rw [nested] at h
    cases hread : termOf (factor (nested depth)) cs with
    | miss => simp [hread, Outcome.placed] at h
    | misplaced place => simp [hread, Outcome.placed] at h
    | ok value after =>
      rw [hread, Outcome.placed] at h
      split at h
      · cases h
      · next hp =>
        obtain ⟨rfl, rfl⟩ := Outcome.ok.inj h
        obtain ⟨ds, hds, hw⟩ := sound_termOf (sound_factor ih) hread
        exact ⟨ds, hds, hw, Bool.eq_false_iff.mpr hp⟩

/-! ## Items and formulas -/

variable {sign : Sign} {depth : Nat} {edit : Edit} {edits : List Edit} {response : Option Term}

theorem sound_item (depth : Nat) (sign : Sign) : Sound (item depth sign) (WritesItem sign) := by
  intro cs edit rest h
  unfold item at h
  split at h
  · next rest' hzero =>
    obtain ⟨rfl, rfl⟩ := Outcome.ok.inj h
    refine ⟨['0'], eq_of_literal? hzero, ?_⟩
    cases sign with
    | plus => exact .removeZero
    | minus => exact .addZero
  · next rest' _ hone =>
    obtain ⟨rfl, rfl⟩ := Outcome.ok.inj h
    refine ⟨['1'], eq_of_literal? hone, ?_⟩
    cases sign with
    | plus => exact .addOne
    | minus => exact .removeOne
  · split at h
    · next term rest' hterm =>
      obtain ⟨rfl, rfl⟩ := Outcome.ok.inj h
      obtain ⟨ds, hds, hw⟩ := sound_termOf (sound_factor (sound_nested depth)) hterm
      exact ⟨ds, hds, writesItem_of_term hw⟩
    · cases h
    · cases h

theorem eq_of_sign? (h : sign? cs = some (sign, rest)) : cs = signMark sign :: rest := by
  unfold sign? at h
  split at h
  · obtain ⟨rfl, rfl⟩ : Sign.plus = sign ∧ _ = rest := by simpa using h
    rfl
  · obtain ⟨rfl, rfl⟩ : Sign.minus = sign ∧ _ = rest := by simpa using h
    rfl
  · cases h

theorem sound_items (depth fuel : Nat) : Sound (items depth fuel) WritesItems := by
  induction fuel with
  | zero =>
    intro cs edits rest h
    obtain ⟨rfl, rfl⟩ := Outcome.ok.inj h
    exact ⟨[], rfl, .nil⟩
  | succ fuel ih =>
    intro cs edits rest h
    rw [items] at h
    split at h
    · obtain ⟨rfl, rfl⟩ := Outcome.ok.inj h
      exact ⟨[], rfl, .nil⟩
    · next sign after hsign =>
      obtain ⟨g₁, h₁, hcs⟩ := exists_gap cs
      obtain ⟨g₂, h₂, hg₂⟩ := exists_gap after
      rw [eq_of_sign? hsign, hg₂] at hcs
      split at h
      · next edit after' hitem =>
        obtain ⟨es, hes, hw⟩ := sound_item depth sign hitem
        rw [hes] at hcs
        split at h
        · next edits' rest' hitems =>
          obtain ⟨rfl, rfl⟩ := Outcome.ok.inj h
          obtain ⟨ds, rfl, hl⟩ := ih hitems
          exact ⟨_, by simp [hcs], .cons h₁ h₂ hw hl⟩
        · obtain ⟨rfl, rfl⟩ := Outcome.ok.inj h
          exact ⟨_, by simp [hcs], .cons h₁ h₂ hw .nil⟩
        · cases h
      · obtain ⟨rfl, rfl⟩ := Outcome.ok.inj h
        exact ⟨[], rfl, .nil⟩
      · cases h

theorem exists_firstSign {start : List Char} {outcome : Outcome Edit}
    (h : firstItem depth cs = (start, outcome)) :
    ∃ sign ss, WritesFirstSign sign ss ∧ cs = ss ++ start ∧ item depth sign start = outcome := by
  unfold firstItem at h
  split at h
  · next sign after hsign =>
    obtain ⟨g, hg, hafter⟩ := exists_gap after
    obtain ⟨rfl, hitem⟩ := Prod.mk.inj h
    exact ⟨sign, _, .given hg, by rw [eq_of_sign? hsign, List.cons_append, ← hafter], hitem⟩
  · obtain ⟨rfl, hitem⟩ := Prod.mk.inj h
    exact ⟨.plus, [], .omitted, rfl, hitem⟩

theorem exists_written_firstItem {start : List Char}
    (h : firstItem depth cs = (start, .ok edit rest)) : ∃ ds, cs = ds ++ rest ∧
      ∀ {edits es}, WritesItems edits es → WritesRight (edit :: edits) (ds ++ es) := by
  obtain ⟨sign, ss, hsign, rfl, hitem⟩ := exists_firstSign h
  obtain ⟨is, rfl, hw⟩ := sound_item depth sign hitem
  exact ⟨ss ++ is, by simp, fun hs => by simpa using hsign.right hw hs⟩

theorem exists_written_rightSide {text : List Char} (h : rightSide text cs = .ok edits) :
    ∃ g ds g', IsGap g ∧ IsGap g' ∧ WritesRight edits ds ∧ cs = g ++ (ds ++ g') := by
  obtain ⟨g, hg, hcs⟩ := exists_gap cs
  unfold rightSide at h
  split at h
  · cases h
  · cases h
  · next start edit rest hfirst =>
    obtain ⟨fs, hfs, hright⟩ := exists_written_firstItem hfirst
    split at h
    · cases h
    · cases h
    · next edits' after hitems =>
      obtain ⟨es, hes, hw⟩ := sound_items _ _ hitems
      obtain ⟨g', hg', hafter⟩ := exists_gap after
      split at h
      · next hend =>
        obtain rfl : edit :: edits' = edits := by simpa using h
        refine ⟨g, fs ++ es, g', hg, hg', hright hw, ?_⟩
        rw [hcs, hfs, hes, hafter, hend]
        simp
      · cases h

theorem exists_written_tilde {text : List Char} (h : tilde text cs = .ok edits) :
    ∃ g ds g', IsGap g ∧ IsGap g' ∧ WritesRight edits ds ∧ cs = '~' :: (g ++ (ds ++ g')) := by
  unfold tilde at h
  split at h
  · obtain ⟨g, ds, g', hg, hg', hw, rfl⟩ := exists_written_rightSide h
    exact ⟨g, ds, g', hg, hg', hw, rfl⟩
  · cases h

theorem writesFormula_of_script (h : script cs = .ok (response, edits)) :
    WritesFormula response edits cs := by
  obtain ⟨g₁, h₁, hcs⟩ := exists_gap cs
  unfold script at h
  split at h
  · next term after hread =>
    obtain ⟨g, hg, hafter⟩ := exists_gap after
    obtain ⟨ts, hts, ht, hp⟩ := sound_nested _ hread
    obtain ⟨edits', hr, heq⟩ := map_eq_ok_iff.mp h
    obtain ⟨rfl, rfl⟩ := Prod.mk.inj heq
    obtain ⟨g₂, ds, g₃, h₂, h₃, hw, htilde⟩ := exists_written_tilde hr
    rw [hcs, hts, hafter, htilde]
    simpa using WritesFormula.mk h₁ (.some ht hp hg) h₂ hw h₃
  · obtain ⟨edits', hr, heq⟩ := map_eq_ok_iff.mp h
    obtain ⟨rfl, rfl⟩ := Prod.mk.inj heq
    obtain ⟨g₂, ds, g₃, h₂, h₃, hw, htilde⟩ := exists_written_tilde hr
    rw [hcs, htilde]
    exact WritesFormula.mk h₁ .none h₂ hw h₃
  · cases h

/-- A text is read into a response and edits exactly when it is one way to write them. -/
theorem script_eq_ok_iff :
    script cs = .ok (response, edits) ↔ WritesFormula response edits cs :=
  ⟨writesFormula_of_script, script_of_writes⟩

theorem parse_eq_ok_iff {text : String} {f : Formula} : parse text = .ok f ↔
    ∃ response edits, WritesFormula response edits text.toList ∧
      (ofResponse response).run edits = f := by
  unfold parse
  rw [map_eq_ok_iff]
  constructor
  · rintro ⟨⟨response, edits⟩, hs, hf⟩
    exact ⟨response, edits, writesFormula_of_script hs, hf⟩
  · rintro ⟨response, edits, hw, hf⟩
    exact ⟨(response, edits), script_of_writes hw, hf⟩

/-- Whatever its layout and quoting, the text of a formula is read as its edits run in order from
its response alone; two texts with the same response and edits are read alike. -/
theorem parse_of_layout {text : String} (h : WritesFormula response edits text.toList) :
    parse text = .ok ((ofResponse response).run edits) ∧
      ∀ text' : String, WritesFormula response edits text'.toList → parse text' = parse text := by
  have hread : ∀ text : String, WritesFormula response edits text.toList →
      parse text = .ok ((ofResponse response).run edits) :=
    fun _ hw => parse_eq_ok_iff.mpr ⟨response, edits, hw, rfl⟩
  exact ⟨hread text h, fun text' h' => (hread text' h').trans (hread text h).symm⟩

/-- Two layouts of one script, one of them derived by hand. -/
theorem parse_two_layouts :
    WritesFormula (some (.variable "y"))
      [.remove .intercept, .add (.crossingOf [.function "f" (.variable "a b"), .variable "z"])]
      "`y` ~ -1+f\t(`a b` )&& z".toList ∧
    parse "y~ - 1\n+ `f`(`a b`)&&z" = parse "`y` ~ -1+f\t(`a b` )&& z" := by
  have hnil : IsGap [] := fun _ h => (nomatch h)
  have hspace : IsGap [' '] := by
    intro c hc
    rw [List.mem_singleton.mp hc]
    decide
  have htab : IsGap ['\t'] := by
    intro c hc
    rw [List.mem_singleton.mp hc]
    decide
  have hy : WritesFactor (.variable "y") ['`', 'y', '`'] := .column (.quoted (by decide))
  have hz : WritesFactor (.variable "z") ['z'] := .column (.plain (by decide))
  have harg : WritesFactor (.variable "a b") ['`', 'a', ' ', 'b', '`'] :=
    .column (.quoted (by decide))
  have hcall : WritesFactor (.function "f" (.variable "a b")) "f\t(`a b` )".toList :=
    .call (.plain (by decide)) htab hnil (.interaction harg .nil) rfl hspace
  have hterm : WritesTerm (.crossingOf [.function "f" (.variable "a b"), .variable "z"])
      "f\t(`a b` )&& z".toList := .crossing hcall (.cons hnil hspace hz .nil)
  have hone : WritesItem .minus (.remove .intercept) ['1'] := .removeOne
  have hitem : WritesItem .plus
      (.add (.crossingOf [.function "f" (.variable "a b"), .variable "z"]))
      "f\t(`a b` )&& z".toList := .add hterm
  have hright : WritesRight
      [.remove .intercept, .add (.crossingOf [.function "f" (.variable "a b"), .variable "z"])]
      "-1+f\t(`a b` )&& z".toList := .signed hnil hone (.cons hnil hnil hitem .nil)
  have hw : WritesFormula (some (.variable "y"))
      [.remove .intercept, .add (.crossingOf [.function "f" (.variable "a b"), .variable "z"])]
      "`y` ~ -1+f\t(`a b` )&& z".toList :=
    .mk hnil (.some (.interaction hy .nil) rfl hspace) hspace hright hnil
  exact ⟨hw, (parse_of_layout hw).2 _ (script_eq_ok_iff.mp rfl)⟩

end ModelFormula.Formula
