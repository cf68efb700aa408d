/-
StagedQuery/Proofs/Growth.lean

A stored query does not grow when it is read and written back.

When an expanded query is condensed, what comes out is nowhere larger than what
was expanded.  Stages and bodies are the same; an alias or an explicit input is
the one that was there, or none; and no input is declared that was not, with no
more than its bare id for a reference.

Each part rests on one fact.  A stage is used under its id or its alias only, so
the other name that condensing finds for it is its alias.  A stage that named no
input started from what was passed on to it, and condensing sees this again: the
first stage started from the only input there was, so one is declared again, and
any later one from the stage before it under that one's id.

Main statement: `exists_condense_within`.
-/
import StagedQuery.Proofs.Occurrence

namespace StagedQuery

open Backend

/-- The stage has the body of another, and no alias or explicit input but those
of the other. -/
structure Surface.Stage.Within (condensed stage : Surface.Stage) : Prop where
  /-- The bodies are the same. -/
  pipeline : condensed.pipeline = stage.pipeline
  /-- There is no other alias. -/
  aliasName : condensed.aliasName = none ∨ condensed.aliasName = stage.aliasName
  /-- There is no other explicit input. -/
  inputName : condensed.inputName = none ∨ condensed.inputName = stage.inputName

namespace Surface.Query.Meaning

variable {query surface : Surface.Query} {validate : Validator} {stored : Backend.Query}
  {position : Nat} {stage : Surface.Stage} {name id : String}

/-- The datasets used are declared inputs that are an input of some stage. -/
theorem uses_dataset_iff (hm : query.Meaning validate stored) :
    stored.Uses (.dataset name id) ↔
      (∃ reference, (name, reference) ∈ query.inputs.entries ∧ validate reference = some id) ∧
        ∃ stage ∈ stored.stages, ∃ input ∈ stage.inputs,
          input.name = name ∧ input.datasetId.isSome = true := by
  constructor
  · intro huses
    obtain ⟨position, stage, hstage, hinput⟩ :=
      mem_allInputs.1 (Backend.Query.uses_dataset_iff.1 huses)
    exact ⟨hm.exists_entry_of_uses huses, stage, List.mem_of_getElem? hstage, _, hinput, rfl, rfl⟩
  · rintro ⟨⟨reference, hentry, hid⟩, stage, hstage, input, hinput, rfl, hdataset⟩
    obtain ⟨used, hused⟩ := Option.isSome_iff_exists.1 hdataset
    obtain ⟨position, hposition⟩ := List.mem_iff_getElem?.1 hstage
    have huses := hm.orderly.dataset_of_datasetId (mem_allInputs.2 ⟨_, _, hposition, hinput⟩) hused
    -- the name is declared once, so the id is the one it was declared with
    obtain ⟨reference', hentry', hid'⟩ := hm.exists_entry_of_uses huses
    cases Inputs.reference_unique hentry hentry'
    cases hid.symm.trans hid'
    exact huses

/-- Where one input was declared and is used, one is declared again. -/
theorem size_eq_one (hm : query.Meaning validate stored) (hr : stored.Recovers surface)
    {primary : Binding} (hpassed : query.passed validate 0 = some primary)
    (huses : stored.Uses primary) : surface.inputs.size = 1 := by
  have honly := (Inputs.holds_bound.only?_eq_some_iff).1 hpassed
  obtain ⟨name, reference, id, -, -, rfl⟩ := Inputs.mem_bound.1 ((honly primary).2 rfl)
  have hinputs : surface.inputs = Inputs.empty.insert name id := by
    apply Inputs.ext_entries
    rintro ⟨name', id'⟩
    rw [hr.inputs, Inputs.mem_insert]
    constructor
    · intro huses'
      have hbound := mem_visible_dataset.1 (hm.mem_visible_of_uses huses')
      cases (honly _).1 hbound
      exact .inl rfl
    · rintro (heq | ⟨-, hnone⟩)
      · cases heq
        exact huses
      · cases hnone
  rw [hinputs]
  rfl

/-- What was passed on to a stage is what its place implies. -/
theorem implied_of_passed (hm : query.Meaning validate stored) (hr : stored.Recovers surface)
    {primary : Binding} (hpassed : query.passed validate position = some primary)
    (huses : stored.Uses primary) (body : String) :
    primary.Implied surface.inputs body position := by
  cases position with
  | zero => exact hm.size_eq_one hr hpassed huses
  | succ previous =>
    rw [passed_succ, Option.some.injEq] at hpassed
    subst hpassed
    -- the stage before goes by its own id, so leaving the name out changes nothing
    exact Binding.continues_ownId body previous

/-- The other name a stage is used by is its alias. -/
theorem aliasName_within (hm : query.Meaning validate stored)
    (hstage : query.stages[position]? = some stage) {condensed : Surface.Stage}
    (halias : ∀ name, condensed.aliasName = some name ↔
      name ≠ stageId position ∧ stored.Uses (.stage name (stageId position))) :
    condensed.aliasName = none ∨ condensed.aliasName = stage.aliasName := by
  cases hname : condensed.aliasName with
  | none => exact .inl rfl
  | some name =>
    obtain ⟨hne, huses⟩ := (halias name).1 hname
    obtain ⟨stage', hstage', hcalled⟩ := hm.name_of_uses huses
    cases hstage.symm.trans hstage'
    exact .inr (hcalled.resolve_left hne).symm

/-- **No stage of a recovered query has more to it than the stage expanded.** -/
theorem within (hm : query.Meaning validate stored) (hr : stored.Recovers surface)
    (hstage : query.stages[position]? = some stage) :
    ∃ condensed, surface.stages[position]? = some condensed ∧ condensed.Within stage := by
  obtain ⟨primary, expanded, hexpanded, hexpands⟩ := hm.expands hstage
  obtain ⟨condensed, hcondensed, hpipeline, halias, hinputName⟩ := hr.stages hexpanded
  have hprimary := hexpands.primary?_eq
  have hstands := hm.stands_primary hstage hexpands
  have huses := Backend.Query.uses_of_stands hexpanded (List.mem_of_mem_head? hprimary) hstands
  refine ⟨condensed, hcondensed, hpipeline.trans hexpands.pipeline,
    hm.aliasName_within hstage halias, ?_⟩
  rcases hinputName hprimary hstands with ⟨-, hnone⟩ | ⟨hnot, hsome⟩
  · exact .inl hnone
  · rcases hexpands.starts with ⟨hname, -⟩ | ⟨-, hpassed⟩
    · exact .inr (hsome.trans hname.symm)
    · exact absurd (hm.implied_of_passed hr hpassed huses _) hnot

end Surface.Query.Meaning

/-- **No growth**: when an expanded query is condensed, there are as many stages,
none with more to it than before, and what is declared are those of the declared
inputs that some stage uses, each with its bare id. -/
theorem exists_condense_within {query : Surface.Query} {validate : Validator}
    {stored : Backend.Query} (h : query.expandWith validate = .ok stored) :
    ∃ surface, stored.condense = .ok surface ∧
      surface.stages.length = query.stages.length ∧
      (∀ (position : Nat) (stage : Surface.Stage), query.stages[position]? = some stage →
        ∃ condensed, surface.stages[position]? = some condensed ∧ condensed.Within stage) ∧
      ∀ name id, (name, id) ∈ surface.inputs.entries ↔
        (∃ reference, (name, reference) ∈ query.inputs.entries ∧ validate reference = some id) ∧
          ∃ stage ∈ stored.stages, ∃ input ∈ stage.inputs,
            input.name = name ∧ input.datasetId.isSome = true := by
  have hm := Surface.Query.meaning_of_expandWith h
  obtain ⟨surface, hcondense⟩ := hm.orderly.exists_condense
  have hr := hm.orderly.recovers hcondense
  refine ⟨surface, hcondense, hr.length.trans hm.length, ?_, ?_⟩
  · intro position stage hstage
    exact hm.within hr hstage
  · intro name id
    rw [hr.inputs, hm.uses_dataset_iff]

/-- The unused input is not declared again. -/
theorem condense_joined_within :
    joined.expandWith Dataset.bareId? = .ok joinedStored ∧
      ∃ surface, joinedStored.condense = .ok surface ∧
        surface.stages.length = joined.stages.length ∧
        ("in", "41") ∈ surface.inputs.entries ∧ ("spare", "7") ∉ surface.inputs.entries := by
  obtain ⟨surface, hcondense, hlength, -, hinputs⟩ := exists_condense_within expand_joined
  refine ⟨expand_joined, surface, hcondense, hlength, (hinputs _ _).2 ?_, fun hspare => ?_⟩
  · exact ⟨⟨"o:::dataset:41/2", by decide +kernel⟩, by decide +kernel⟩
  · have hused := ((hinputs _ _).1 hspare).2
    revert hused
    decide +kernel

end StagedQuery
