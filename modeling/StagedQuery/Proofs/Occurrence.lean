/-
StagedQuery/Proofs/Occurrence.lean

What occurs among the inputs of an expanded query.

Every input of the stage at a position stands for a binding that is visible
there (`Meaning.exists_visible`).  Since no name is ever given two targets, the
inputs of the whole query agree on what each name stands for; and since a stage
is visible to those behind it only, under its id and its alias, an input for a
stage points strictly backwards and goes by one of these two names
(`mem_visible_stage`).

Main statement: `Meaning.orderly`, an expanded query is in order, so that it is
condensed and all that is said of recovered queries holds of the outcome.
-/
import StagedQuery.Proofs.Expansion
import StagedQuery.Proofs.Recovery

namespace StagedQuery

open Backend

/-! ### What is visible -/

namespace Surface.Query

variable {query : Query} {validate : Validator} {position : Nat} {name id : String}

/-- Only declared inputs are datasets. -/
theorem mem_visible_dataset :
    .dataset name id ∈ query.visible validate position ↔
      .dataset name id ∈ query.inputs.bound validate := by
  rw [mem_visible]
  refine ⟨?_, .inl⟩
  rintro (hbound | ⟨earlier, -, stage, -, hbound⟩)
  · exact hbound
  · rcases mem_boundBy.1 hbound with heq | ⟨aliasName, -, heq⟩ <;> cases heq

/-- A stage is visible behind its position, under its id and its alias. -/
theorem mem_visible_stage :
    .stage name id ∈ query.visible validate position ↔
      ∃ earlier < position, ∃ stage, query.stages[earlier]? = some stage ∧
        id = stageId earlier ∧ (name = id ∨ stage.aliasName = some name) := by
  rw [mem_visible]
  constructor
  · rintro (hbound | ⟨earlier, hlt, stage, hstage, hbound⟩)
    · obtain ⟨_, _, _, -, -, heq⟩ := Inputs.mem_bound.1 hbound
      cases heq
    · refine ⟨earlier, hlt, stage, hstage, ?_⟩
      rcases mem_boundBy.1 hbound with heq | ⟨aliasName, halias, heq⟩
      · cases heq
        exact ⟨rfl, .inl rfl⟩
      · cases heq
        exact ⟨rfl, .inr halias⟩
  · rintro ⟨earlier, hlt, stage, hstage, rfl, hname⟩
    refine .inr ⟨earlier, hlt, stage, hstage, mem_boundBy.2 ?_⟩
    rcases hname with rfl | halias
    · exact .inl rfl
    · exact .inr ⟨name, halias, rfl⟩

/-- The stages before a position are visible to it under their ids. -/
theorem mem_visible_ownId {earlier : Nat} (hlt : earlier < position)
    (hle : position ≤ query.stages.length) :
    .ownId (stageId earlier) ∈ query.visible validate position := by
  have hstage := List.getElem?_eq_getElem (Nat.lt_of_lt_of_le hlt hle)
  exact mem_visible_stage.2 ⟨earlier, hlt, _, hstage, rfl, .inl rfl⟩

/-- At a position, what is passed on is visible. -/
theorem mem_visible_of_passed {binding : Binding} (hle : position ≤ query.stages.length)
    (h : query.passed validate position = some binding) :
    binding ∈ query.visible validate position := by
  cases position with
  | zero =>
    have honly := (Inputs.holds_bound.only?_eq_some_iff).1 h
    exact mem_visible.2 (.inl ((honly binding).2 rfl))
  | succ previous =>
    rw [passed_succ, Option.some.injEq] at h
    subst h
    exact mem_visible_ownId (Nat.lt_succ_self previous) hle

namespace Meaning

variable {stored : Backend.Query} {expanded : Backend.Stage}

/-! ### The stages of an expanded query -/

/-- What is visible anywhere gives no name two targets. -/
theorem singleTarget (hm : query.Meaning validate stored) (hle : position ≤ query.stages.length) :
    SingleTarget (query.visible validate position) :=
  hm.single.mono fun _ hbinding => mem_visible_of_le hle hbinding

/-- Every stored stage is one of the query. -/
theorem exists_stage (hm : query.Meaning validate stored)
    (hexpanded : stored.stages[position]? = some expanded) :
    ∃ stage primary, query.stages[position]? = some stage ∧
      Expands (query.visible validate position) (query.passed validate position) position stage
        primary expanded := by
  obtain ⟨hlt, -⟩ := List.getElem?_eq_some_iff.1 hexpanded
  rw [hm.length] at hlt
  have hstage := List.getElem?_eq_getElem hlt
  obtain ⟨primary, expanded', hexpanded', hexpands⟩ := hm.expands hstage
  cases hexpanded.symm.trans hexpanded'
  exact ⟨_, primary, hstage, hexpands⟩

theorem id_eq (hm : query.Meaning validate stored)
    (hexpanded : stored.stages[position]? = some expanded) : expanded.id = stageId position := by
  obtain ⟨stage, primary, -, hexpands⟩ := hm.exists_stage hexpanded
  exact hexpands.id

/-- No stored body is blank. -/
theorem nonblank (hm : query.Meaning validate stored) :
    ∀ expanded ∈ stored.stages, Text.allBlank expanded.pipeline = false := by
  intro expanded hmem
  obtain ⟨position, hexpanded⟩ := List.mem_iff_getElem?.1 hmem
  obtain ⟨stage, primary, -, hexpands⟩ := hm.exists_stage hexpanded
  rw [hexpands.pipeline]
  exact hexpands.nonblank

theorem wellShaped (hm : query.Meaning validate stored) : stored.WellShaped := by
  have hpos : 0 < stored.stages.length := by
    rw [hm.length]
    exact List.length_pos_iff.2 hm.nonempty
  refine ⟨?_, ?_, fun expanded hmem => ?_⟩
  · -- ids are those of the positions, and no two of these are the same
    refine List.pairwise_iff_getElem.2 fun position later hposition hlater hlt hids => ?_
    rw [List.length_map] at hposition hlater
    rw [List.getElem_map, List.getElem_map, hm.id_eq (List.getElem?_eq_getElem hposition),
      hm.id_eq (List.getElem?_eq_getElem hlater), stageId_inj] at hids
    exact absurd hids (Nat.ne_of_lt hlt)
  · rw [List.getLast?_eq_getElem?]
    have hlast := List.getElem?_eq_getElem (Nat.sub_lt hpos Nat.one_pos)
    rw [hlast, Option.map_some, hm.id_eq hlast, hm.output, hm.length]
  · obtain ⟨position, hexpanded⟩ := List.mem_iff_getElem?.1 hmem
    obtain ⟨stage, primary, -, hexpands⟩ := hm.exists_stage hexpanded
    obtain ⟨scope, -, hinputs⟩ := hexpands.inputs
    rw [hinputs]
    exact List.cons_ne_nil _ _

/-! ### Their inputs -/

/-- The primary input of a stage is visible to it. -/
theorem mem_visible_primary (hle : position ≤ query.stages.length) {stage : Stage}
    {primary : Binding}
    (h : Starts (query.visible validate position) (query.passed validate position) stage primary) :
    primary ∈ query.visible validate position := by
  rcases h with ⟨-, hvisible⟩ | ⟨-, hpassed⟩
  · exact hvisible
  · exact mem_visible_of_passed hle hpassed

/-- **Every input of a stage is a binding that is visible to it.** -/
theorem exists_visible (hm : query.Meaning validate stored)
    (hexpanded : stored.stages[position]? = some expanded) {input : Input}
    (hinput : input ∈ expanded.inputs) :
    ∃ binding ∈ query.visible validate position, binding.toInput = input := by
  obtain ⟨stage, primary, hstage, hexpands⟩ := hm.exists_stage hexpanded
  obtain ⟨hlt, -⟩ := List.getElem?_eq_some_iff.1 hstage
  obtain ⟨scope, hscope, hinputs⟩ := hexpands.inputs
  rw [hinputs] at hinput
  obtain ⟨binding, rfl, rfl | hs⟩ := (mem_inputsOf hscope).1 hinput
  · exact ⟨binding, mem_visible_primary (Nat.le_of_lt hlt) hexpands.starts, rfl⟩
  · exact ⟨binding, hs.visible, rfl⟩

/-! ### An expanded query is in order -/

/-- A binding that is visible stands for itself. -/
theorem stands_of_visible (hm : query.Meaning validate stored)
    (hle : position ≤ query.stages.length) {binding : Binding}
    (h : binding ∈ query.visible validate position) :
    stored.Stands position binding.toInput binding := by
  obtain ⟨name, id | id⟩ := binding
  · exact .dataset
  · obtain ⟨earlier, hlt, -, -, rfl, -⟩ := mem_visible_stage.1 h
    have hearlier := Nat.lt_of_lt_of_le hlt hle
    rw [← hm.length] at hearlier
    have htarget := List.getElem?_eq_getElem hearlier
    have hstands : stored.Stands position (.ofStage name _) (.stage name (stageId earlier)) :=
      .stage hlt htarget
    rwa [hm.id_eq htarget] at hstands

/-- Stages have the ids of their positions, so an input stands for nothing but
the binding it shows. -/
theorem toInput_of_stands (hm : query.Meaning validate stored) {input : Input}
    {binding : Binding} (h : stored.Stands position input binding) :
    binding.toInput = input := by
  cases h with
  | dataset => rfl
  | stage hlt htarget =>
    rw [hm.id_eq htarget]
    rfl

theorem visible_of_stands (hm : query.Meaning validate stored)
    (hexpanded : stored.stages[position]? = some expanded) {input : Input}
    (hinput : input ∈ expanded.inputs) {binding : Binding}
    (h : stored.Stands position input binding) :
    binding ∈ query.visible validate position := by
  obtain ⟨binding', hvisible, rfl⟩ := hm.exists_visible hexpanded hinput
  cases Binding.toInput_inj.1 (hm.toInput_of_stands h)
  exact hvisible

/-- The primary input stands for what the stage started from. -/
theorem stands_primary (hm : query.Meaning validate stored) {stage : Stage} {primary : Binding}
    (hstage : query.stages[position]? = some stage)
    (h : Expands (query.visible validate position) (query.passed validate position) position
      stage primary expanded) : stored.Stands position primary.toInput primary := by
  obtain ⟨hlt, -⟩ := List.getElem?_eq_some_iff.1 hstage
  have hvisible := mem_visible_primary (Nat.le_of_lt hlt) h.starts
  exact hm.stands_of_visible (Nat.le_of_lt hlt) hvisible

/-- What is used is visible. -/
theorem mem_visible_of_uses (hm : query.Meaning validate stored) {binding : Binding}
    (h : stored.Uses binding) : binding ∈ query.visible validate query.stages.length := by
  obtain ⟨position, expanded, hexpanded, input, hinput, hstands⟩ := h
  obtain ⟨hlt, -⟩ := List.getElem?_eq_some_iff.1 hexpanded
  rw [hm.length] at hlt
  exact mem_visible_of_le (Nat.le_of_lt hlt) (hm.visible_of_stands hexpanded hinput hstands)

/-- A dataset that is used is declared, and its id was given by the validator. -/
theorem exists_entry_of_uses (hm : query.Meaning validate stored)
    (h : stored.Uses (.dataset name id)) :
    ∃ reference, (name, reference) ∈ query.inputs.entries ∧ validate reference = some id := by
  obtain ⟨_, reference, _, hentry, hid, heq⟩ :=
    Inputs.mem_bound.1 (mem_visible_dataset.1 (hm.mem_visible_of_uses h))
  cases heq
  exact ⟨reference, hentry, hid⟩

/-- A stage is used by its own id or by its alias. -/
theorem name_of_uses (hm : query.Meaning validate stored)
    (h : stored.Uses (.stage name (stageId position))) :
    ∃ stage, query.stages[position]? = some stage ∧
      (name = stageId position ∨ stage.aliasName = some name) := by
  obtain ⟨earlier, -, stage, hstage, hid, hname⟩ :=
    mem_visible_stage.1 (hm.mem_visible_of_uses h)
  cases stageId_inj.1 hid
  exact ⟨stage, hstage, hname⟩

/-- **An expanded query is in order.** -/
theorem orderly (hm : query.Meaning validate stored) : stored.Orderly := by
  refine ⟨hm.wellShaped, ?_, ?_, ?_, fun hexpanded _ => hm.id_eq hexpanded⟩
  · intro position expanded hexpanded input hinput
    obtain ⟨hlt, -⟩ := List.getElem?_eq_some_iff.1 hexpanded
    rw [hm.length] at hlt
    obtain ⟨binding, hvisible, rfl⟩ := hm.exists_visible hexpanded hinput
    exact ⟨binding, hm.stands_of_visible (Nat.le_of_lt hlt) hvisible⟩
  · -- names in use are visible behind the last stage, all of them at once
    intro binding other hbinding hother hname
    exact hm.single binding (hm.mem_visible_of_uses hbinding) other
      (hm.mem_visible_of_uses hother) hname
  · -- a name that is not the id is the alias, and a stage has one
    intro position name other hname hother hne hne'
    obtain ⟨stage, hstage, hcalled⟩ := hm.name_of_uses hname
    obtain ⟨stage', hstage', hcalled'⟩ := hm.name_of_uses hother
    cases hstage.symm.trans hstage'
    have halias := hcalled.resolve_left hne
    have halias' := hcalled'.resolve_left hne'
    exact Option.some.inj (halias.symm.trans halias')

end Meaning

end Surface.Query

/-! ### One query condensed -/

/-- What the expanded example is condensed to: the second stage no longer names its
input, and the third still mentions it. -/
def joinedCondensed : Surface.Query where
  inputs := .ofList [("in", "41")]
  stages :=
    [⟨some "base", none, "filter true"⟩, ⟨none, none, "sort time"⟩, ⟨none, none, "join @base"⟩]

theorem condense_joinedStored : joinedStored.condense = .ok joinedCondensed := by
  decide +kernel

end StagedQuery
