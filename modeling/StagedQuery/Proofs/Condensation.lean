/-
StagedQuery/Proofs/Condensation.lean

What a condensed query says, without the walk over the stored one.

A stored query is condensed in three independent readings: its shape is checked
(`WellShaped`), the datasets among its inputs are gathered by name, and the names
by which stages are referred to become aliases.  Each reading is a recursion over
all inputs of all stages, in order; what it answers is described here by what
occurs among the inputs, in whatever order it does.

Main statements: `condense_eq_ok_iff`, when a query is condensed and into what;
`datasetsOf_eq_ok_iff` on the declared inputs; and `getElem?_condenseFrom`, which
gives every stage by its position.
-/
import StagedQuery.Condensation

namespace StagedQuery

open Backend

/-! ### Queries position by position -/

attribute [ext] Backend.Query Surface.Query

/-- Lists that are as long as a third one are equal where they agree wherever that has an
entry. -/
theorem eq_of_getElem?_eq {α β : Type} {entries others : List α} {along : List β}
    (hlength : entries.length = along.length) (hlength' : others.length = along.length)
    (h : ∀ {position : Nat} {entry : β}, along[position]? = some entry →
      entries[position]? = others[position]?) : entries = others := by
  apply List.ext_getElem?
  intro position
  cases hentry : along[position]? with
  | none =>
    have hbeyond := List.getElem?_eq_none_iff.1 hentry
    rw [List.getElem?_eq_none (hlength ▸ hbeyond), List.getElem?_eq_none (hlength' ▸ hbeyond)]
  | some entry => exact h hentry

/-! ### The shape -/

theorem repeatedId?_eq_none_iff {seen : List String} {stages : List Stage} :
    repeatedId? seen stages = none ↔
      (stages.map (·.id)).Nodup ∧ ∀ stage ∈ stages, stage.id ∉ seen := by
  induction stages generalizing seen with
  | nil => simp [repeatedId?]
  | cons stage rest ih =>
    rw [repeatedId?, List.map_cons, List.nodup_cons, List.forall_mem_cons]
    split
    · next hseen => simp [hseen]
    · next hseen =>
      rw [ih]
      constructor
      · rintro ⟨hnodup, hrest⟩
        refine ⟨⟨fun hmem => ?_, hnodup⟩, hseen, fun other hother hin => ?_⟩
        · obtain ⟨other, hother, hid⟩ := List.mem_map.1 hmem
          exact hrest other hother (hid ▸ List.mem_cons_self)
        · exact hrest other hother (List.mem_cons_of_mem _ hin)
      · rintro ⟨⟨hnew, hnodup⟩, -, hrest⟩
        refine ⟨hnodup, fun other hother hin => ?_⟩
        rcases List.mem_cons.1 hin with hid | hin
        · exact hnew (List.mem_map.2 ⟨other, hother, hid⟩)
        · exact hrest other hother hin

/-- The shape of a stored query that can be condensed, names aside. -/
structure Backend.Query.WellShaped (query : Query) : Prop where
  /-- No two stages have one id. -/
  distinct : (query.stages.map (·.id)).Nodup
  /-- There is a last stage, and it is the output. -/
  output : (query.stages.getLast?).map (·.id) = some query.output
  /-- Every stage has an input. -/
  listed : ∀ stage ∈ query.stages, stage.inputs ≠ []

theorem Backend.Query.shapeFault?_eq_none_iff {query : Query} :
    query.shapeFault? = none ↔ query.WellShaped := by
  rw [shapeFault?]
  cases hlast : query.stages.getLast? with
  | none => exact ⟨nofun, fun h => absurd h.output (by simp [hlast])⟩
  | some last =>
    have hrepeated := @repeatedId?_eq_none_iff [] query.stages
    cases hid : repeatedId? [] query.stages with
    | some id =>
      refine ⟨nofun, fun h => ?_⟩
      rw [hrepeated.2 ⟨h.distinct, fun _ _ => List.not_mem_nil⟩] at hid
      cases hid
    | none =>
      have hdistinct := (hrepeated.1 hid).1
      by_cases houtput : query.output = last.id
      · have hlisted : inputlessStage? query.stages = none ↔
            ∀ stage ∈ query.stages, stage.inputs ≠ [] := by
          simp [inputlessStage?, List.findIdx?_eq_none_iff]
        simp only [houtput, ne_eq, not_true_eq_false, if_false, Option.map_eq_none_iff, hlisted]
        exact ⟨fun h => ⟨hdistinct, by simp [hlast, houtput], h⟩, fun h => h.listed⟩
      · simp only [ne_eq, houtput, not_false_eq_true, if_true]
        refine ⟨nofun, fun h => absurd ?_ houtput⟩
        have := h.output
        rw [hlast] at this
        exact (Option.some.inj this).symm

/-- Every stage of a query has a primary input. -/
theorem Backend.Query.WellShaped.exists_primary {query : Query} (h : query.WellShaped)
    {position : Nat} {stage : Stage} (hstage : query.stages[position]? = some stage) :
    ∃ input, stage.primary? = some input ∧ input ∈ stage.inputs := by
  have hlisted := h.listed stage (List.mem_of_getElem? hstage)
  obtain ⟨input, rest, hinputs⟩ := List.exists_cons_of_ne_nil hlisted
  refine ⟨input, ?_, hinputs ▸ List.mem_cons_self⟩
  rw [Stage.primary?, hinputs, List.head?_cons]

/-! ### The declared inputs -/

/-- What an input declares, if it is a dataset. -/
def Backend.Input.dataset? (input : Input) : Option (String × String) :=
  input.datasetId.map fun id => (input.name, id)

theorem Backend.Input.dataset?_eq_some_iff {input : Input} {entry : String × String} :
    input.dataset? = some entry ↔ input.name = entry.1 ∧ input.datasetId = some entry.2 := by
  rw [dataset?, Option.map_eq_some_iff]
  constructor
  · rintro ⟨id, hid, rfl⟩
    exact ⟨rfl, hid⟩
  · rintro ⟨hname, hid⟩
    exact ⟨entry.2, hid, Prod.ext hname rfl⟩

theorem mem_allInputs {stages : List Stage} {input : Input} :
    input ∈ allInputs stages ↔
      ∃ (position : Nat) (stage : Stage), stages[position]? = some stage ∧
        input ∈ stage.inputs := by
  rw [allInputs, List.mem_flatMap]
  constructor
  · rintro ⟨stage, hstage, hinput⟩
    obtain ⟨position, hposition⟩ := List.mem_iff_getElem?.1 hstage
    exact ⟨position, stage, hposition, hinput⟩
  · rintro ⟨position, stage, hstage, hinput⟩
    exact ⟨stage, List.mem_of_getElem? hstage, hinput⟩

/-- Declaring the datasets among inputs gives the declarations from before and
those of the inputs; it fails only where no declarations are all of these. -/
theorem declareDatasets_eq_ok_iff {declared result : Inputs} {inputs : List Input} :
    declareDatasets declared inputs = .ok result ↔
      ∀ entry, entry ∈ result.entries ↔
        entry ∈ declared.entries ∨ entry ∈ inputs.filterMap Input.dataset? := by
  induction inputs generalizing declared with
  | nil =>
    simp only [declareDatasets, Except.ok.injEq, List.filterMap_nil, List.not_mem_nil, or_false]
    constructor
    · rintro rfl entry
      exact Iff.rfl
    · exact fun same => Inputs.ext_entries fun entry => (same entry).symm
  | cons input rest ih =>
    rw [declareDatasets]
    cases hid : input.datasetId with
    | none =>
      have hnone : input.dataset? = none := by simp [Input.dataset?, hid]
      rw [List.filterMap_cons_none hnone]
      exact ih
    | some id =>
      have hsome : input.dataset? = some (input.name, id) := by simp [Input.dataset?, hid]
      simp only [List.filterMap_cons_some hsome, List.mem_cons]
      cases hbound : declared.get? input.name with
      | none =>
        simp only [ih, Inputs.mem_insert_of_get?_eq_none hbound]
        exact forall_congr' fun entry => iff_congr Iff.rfl (or_assoc.trans or_left_comm)
      | some bound =>
        have hentry : (input.name, bound) ∈ declared.entries := Inputs.get?_eq_some_iff.1 hbound
        by_cases hsame : bound = id
        · subst hsame
          simp only [if_true, ih]
          refine forall_congr' fun entry => iff_congr Iff.rfl ?_
          constructor
          · rintro (hold | hrest)
            · exact .inl hold
            · exact .inr (.inr hrest)
          · rintro (hold | rfl | hrest)
            · exact .inl hold
            · exact .inl hentry
            · exact .inr hrest
        · simp only [hsame, if_false]
          refine ⟨nofun, fun same => absurd ?_ hsame⟩
          exact Inputs.reference_unique ((same _).2 (.inl hentry)) ((same _).2 (.inr (.inl rfl)))

/-- The datasets of a query are declared where each name is that of one dataset
and of no stage. -/
theorem datasetsOf_eq_ok_iff {stages : List Stage} {declared : Inputs} :
    datasetsOf stages = .ok declared ↔
      (∀ entry, entry ∈ declared.entries ↔
        entry ∈ (allInputs stages).filterMap Input.dataset?) ∧
      ∀ input ∈ allInputs stages, input.stageId.isSome = true →
        declared.contains input.name = false := by
  have hdeclared : ∀ result, declareDatasets .empty (allInputs stages) = .ok result ↔
      ∀ entry, entry ∈ result.entries ↔
        entry ∈ (allInputs stages).filterMap Input.dataset? := by
    intro result
    rw [declareDatasets_eq_ok_iff]
    simp only [Inputs.empty, List.not_mem_nil, false_or]
  rw [datasetsOf, ← hdeclared]
  cases declareDatasets .empty (allInputs stages) with
  | error fault => simp
  | ok result =>
    have hshared : sharedName? result (allInputs stages) = none ↔
        ∀ input ∈ allInputs stages, input.stageId.isSome = true →
          result.contains input.name = false := by
      simp [sharedName?]
    cases hname : sharedName? result (allInputs stages) with
    | none =>
      simp only [hname, Except.ok.injEq]
      constructor
      · rintro rfl
        exact ⟨rfl, hshared.1 hname⟩
      · exact fun h => h.1
    | some name =>
      simp only [hname, reduceCtorEq, Except.ok.injEq, false_iff]
      rintro ⟨rfl, hfree⟩
      rw [hshared.2 hfree] at hname
      cases hname

/-- Entries that give each name one reference can be declared. -/
theorem exists_inputs {entries : List (String × String)}
    (h : ∀ entry ∈ entries, ∀ other ∈ entries, entry.1 = other.1 → entry = other) :
    ∃ inputs : Inputs, ∀ entry, entry ∈ inputs.entries ↔ entry ∈ entries := by
  induction entries with
  | nil => exact ⟨.empty, fun _ => Iff.rfl⟩
  | cons first rest ih =>
    obtain ⟨inputs, hinputs⟩ := ih fun entry hentry other hother =>
      h entry (List.mem_cons_of_mem _ hentry) other (List.mem_cons_of_mem _ hother)
    refine ⟨inputs.insert first.1 first.2, fun entry => ?_⟩
    rw [Inputs.mem_insert, hinputs, List.mem_cons]
    constructor
    · rintro (heq | ⟨-, hrest⟩)
      · exact .inl heq
      · exact .inr hrest
    · rintro (heq | hrest)
      · exact .inl heq
      · by_cases hname : entry.1 = first.1
        · exact .inl (h entry (List.mem_cons_of_mem _ hrest) first List.mem_cons_self hname)
        · exact .inr ⟨hname, hrest⟩

/-! ### The stages -/

/-- The stage before a position, with its own position. -/
def beforeAt (stages : List Stage) : Nat → Option (Stage × Nat)
  | 0 => none
  | previous + 1 => stages[previous]?.map (·, previous)

section Stages

variable {declared : Inputs} {aliases : List (String × String)} {stages : List Stage}

theorem length_condenseFrom {before : Option (Stage × Nat)} {start : Nat} :
    (condenseFrom declared aliases before start stages).length = stages.length := by
  induction stages generalizing before start with
  | nil => rfl
  | cons stage rest ih => rw [condenseFrom, List.length_cons, List.length_cons, ih]

/-- Each stage is condensed with the stage before it. -/
theorem getElem?_condenseFrom_succ {before : Option (Stage × Nat)} {start index : Nat} :
    (condenseFrom declared aliases before start stages)[index + 1]? =
      stages[index + 1]?.map
        (condenseStage declared aliases (stages[index]?.map (·, start + index))) := by
  induction stages generalizing before start index with
  | nil => rfl
  | cons stage rest ih =>
    rw [condenseFrom, List.getElem?_cons_succ, List.getElem?_cons_succ]
    cases index with
    | zero =>
      cases rest with
      | nil => rfl
      | cons second rest => rfl
    | succ index => rw [ih, List.getElem?_cons_succ, Nat.add_assoc, Nat.add_comm 1]

theorem getElem?_condenseFrom {position : Nat} :
    (condenseFrom declared aliases none 0 stages)[position]? =
      stages[position]?.map (condenseStage declared aliases (beforeAt stages position)) := by
  cases position with
  | zero => cases stages <;> rfl
  | succ previous => rw [getElem?_condenseFrom_succ, Nat.zero_add, beforeAt]

end Stages

/-! ### The whole query -/

namespace Backend.Query

/-- **When a stored query is condensed, and into what.** -/
theorem condense_eq_ok_iff {query : Query} {surface : Surface.Query} :
    query.condense = .ok surface ↔
      query.WellShaped ∧ datasetsOf query.stages = .ok surface.inputs ∧
        surface.inputs.entries ≠ [] ∧
        surface.stages =
          condenseFrom surface.inputs (aliasesOf query.stages) none 0 query.stages := by
  rw [condense]
  cases hshape : query.shapeFault? with
  | some fault =>
    refine ⟨nofun, fun h => ?_⟩
    rw [shapeFault?_eq_none_iff.2 h.1] at hshape
    cases hshape
  | none =>
    have hshaped : query.WellShaped := shapeFault?_eq_none_iff.1 hshape
    cases hdatasets : datasetsOf query.stages with
    | error fault => simp
    | ok declared =>
      obtain ⟨inputs, stages⟩ := surface
      simp only [hshaped, true_and, Except.ok.injEq, Inputs.isEmpty, List.isEmpty_iff]
      split
      · next hempty =>
        simp only [reduceCtorEq, false_iff]
        rintro ⟨rfl, hne, -⟩
        exact hne hempty
      · next hne =>
        simp only [Except.ok.injEq, Surface.Query.mk.injEq]
        constructor
        · rintro ⟨rfl, rfl⟩
          exact ⟨rfl, hne, rfl⟩
        · rintro ⟨rfl, -, rfl⟩
          exact ⟨rfl, rfl⟩

/-- A condensed query has the condensed stages, each at its position. -/
theorem getElem?_of_condense {query : Query} {surface : Surface.Query}
    (h : query.condense = .ok surface) {position : Nat} :
    surface.stages[position]? =
      query.stages[position]?.map (condenseStage surface.inputs (aliasesOf query.stages)
        (beforeAt query.stages position)) := by
  rw [(condense_eq_ok_iff.1 h).2.2.2, getElem?_condenseFrom]

theorem length_of_condense {query : Query} {surface : Surface.Query}
    (h : query.condense = .ok surface) : surface.stages.length = query.stages.length := by
  rw [(condense_eq_ok_iff.1 h).2.2.2, length_condenseFrom]

end Backend.Query

end StagedQuery
