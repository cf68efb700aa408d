/-
StagedQuery/Proofs/Stability.lean

An expanded query that is condensed and expanded again.

It comes out as it was, save for the names that a place implies: a stage that
continues from the one before it under an alias may, when the alias was left out,
call it by its id.  `settle` makes this change at once in all stages, and the
main lemma is an equation,

    surface.expandWith validate = .ok stored.settle,

for the surface query that the stored one is condensed to.  Two things carry it.
What is visible in the recovered query was visible before, so no name gets two
targets and every body finds no more than it did; and what a body found is used,
so it is visible again.  A primary input that changed its name could only make a
difference to a body that mentions the name it had or the name it got, and the
name of such an input is never left out.

Main statements: `exists_condense_expandWith`, stability as the targets of all
inputs, and `Meaning.expandWith_settle`.
-/
import StagedQuery.Proofs.Dataset
import StagedQuery.Proofs.Reexpansion

namespace StagedQuery

open Backend

/-! ### Settled queries -/

/-- The primary input of the stage at a position, by the name that expansion gives
it when it is left out. -/
def settleInput (primary : Input) (body : String) : Nat → Input
  | 0 => primary
  | previous + 1 =>
    if (primary.datasetId = none ∧ primary.stageId = some (stageId previous)) ∧
        isRenamable primary body (stageId previous) = true then
      .ofStage (stageId previous) (stageId previous)
    else primary

/-- The stage at a position with its primary input settled. -/
def Backend.Stage.settle (stage : Stage) (position : Nat) : Stage :=
  match stage.inputs with
  | [] => stage
  | primary :: rest => { stage with inputs := settleInput primary stage.pipeline position :: rest }

/-- The query with all primary inputs settled. -/
def Backend.Query.settle (query : Query) : Query :=
  { query with stages := query.stages.mapIdx fun position stage => stage.settle position }

theorem Backend.Stage.pipeline_settle (stage : Stage) (position : Nat) :
    (stage.settle position).pipeline = stage.pipeline := by
  rw [settle]
  split <;> rfl

theorem Backend.Stage.primary?_settle (stage : Stage) (position : Nat) :
    (stage.settle position).primary? =
      stage.primary?.map fun primary => settleInput primary stage.pipeline position := by
  obtain ⟨id, body, inputs⟩ := stage
  cases inputs <;> rfl

theorem Backend.Query.getElem?_settle (query : Query) (position : Nat) :
    query.settle.stages[position]? = query.stages[position]?.map (·.settle position) :=
  List.getElem?_mapIdx

/-- A settled input is settled. -/
theorem settleInput_settleInput (primary : Input) (body : String) (position : Nat) :
    settleInput (settleInput primary body position) body position =
      settleInput primary body position := by
  cases position with
  | zero => rfl
  | succ previous =>
    by_cases hcase : (primary.datasetId = none ∧ primary.stageId = some (stageId previous)) ∧
      isRenamable primary body (stageId previous) = true
    · have hsettled : settleInput primary body (previous + 1) =
          .ofStage (stageId previous) (stageId previous) := if_pos hcase
      have hrenamable : isRenamable (.ofStage (stageId previous) (stageId previous)) body
          (stageId previous) = true := by
        simp [isRenamable, Input.ofStage]
      rw [hsettled]
      exact if_pos ⟨⟨rfl, rfl⟩, hrenamable⟩
    · have hsettled : settleInput primary body (previous + 1) = primary := if_neg hcase
      rw [hsettled, hsettled]

theorem Backend.Stage.settle_settle (stage : Stage) (position : Nat) :
    (stage.settle position).settle position = stage.settle position := by
  obtain ⟨id, body, inputs⟩ := stage
  cases inputs with
  | nil => rfl
  | cons primary rest => simp [settle, settleInput_settleInput]

theorem Backend.Query.settle_settle (query : Query) : query.settle.settle = query.settle := by
  simp [settle, List.mapIdx_mapIdx, Function.comp_def, Stage.settle_settle]

/-- A query is another one settled where each of its stages is. -/
theorem Backend.Query.eq_settle_of_stages {query again : Query}
    (houtput : again.output = query.output)
    (hlength : again.stages.length = query.stages.length)
    (hstages : ∀ {position : Nat} {stage : Stage}, query.stages[position]? = some stage →
      again.stages[position]? = some (stage.settle position)) : again = query.settle := by
  refine Query.ext houtput (eq_of_getElem?_eq hlength List.length_mapIdx ?_)
  intro position stage hstage
  rw [hstages hstage, query.getElem?_settle, hstage, Option.map_some]

/-- What a stage starts from again is its primary input settled. -/
theorem Binding.toInput_restart (primary : Binding) (body : String) (position : Nat) :
    (primary.restart body position).toInput = settleInput primary.toInput body position := by
  cases position with
  | zero => rfl
  | succ previous =>
    have hcontinues : primary.continues body previous = true ↔
        (primary.toInput.datasetId = none ∧
          primary.toInput.stageId = some (stageId previous)) ∧
          isRenamable primary.toInput body (stageId previous) = true := by
      obtain ⟨name, id | id⟩ := primary <;>
        simp [continues, toInput, Input.dataset, Input.ofStage]
    rw [restart, settleInput]
    by_cases hcase : primary.continues body previous = true
    · rw [if_pos hcase, if_pos (hcontinues.1 hcase)]
      rfl
    · rw [if_neg hcase, if_neg (fun h => hcase (hcontinues.2 h))]

/-- A body that mentions a name does not tell the two names of its primary input
apart from it. -/
theorem Binding.name_restart_ne_iff {primary : Binding} {body name : String} {position : Nat}
    (hmentioned : Text.mentions body name = true) :
    name ≠ (primary.restart body position).name ↔ name ≠ primary.name := by
  cases position with
  | zero => exact Iff.rfl
  | succ previous =>
    rw [restart]
    split
    · next hcontinues =>
      simp only [continues, isRenamable, name_toInput, Bool.and_eq_true, Bool.or_eq_true,
        decide_eq_true_eq, Bool.not_eq_true', Bool.or_eq_false_iff] at hcontinues
      rcases hcontinues.2 with hsame | ⟨hold, hnew⟩
      · rw [hsame]
        exact Iff.rfl
      · have hne : name ≠ primary.name := by
          rintro rfl
          rw [hmentioned] at hold
          cases hold
        have hne' : name ≠ stageId previous := by
          rintro rfl
          rw [hmentioned] at hnew
          cases hnew
        exact ⟨fun _ => hne, fun _ => hne'⟩
    · exact Iff.rfl

/-! ### Expanding again -/

namespace Surface.Query.Meaning

variable {query surface : Surface.Query} {validate : Validator} {stored : Backend.Query}
  {position : Nat} {binding : Binding}

/-- A steady validator accepts the ids in use as they are. -/
theorem accepted (hm : query.Meaning validate stored) (hsteady : validate.Steady) :
    stored.Accepted validate := by
  intro name id h
  obtain ⟨reference, -, hid⟩ := hm.exists_entry_of_uses h
  exact (hsteady reference id hid).1

theorem declarable_of_uses (hm : query.Meaning validate stored) (hsteady : validate.Steady)
    (name id : String) (h : stored.Uses (.dataset name id)) : Declarable validate (name, id) := by
  obtain ⟨reference, hentry, hid⟩ := hm.exists_entry_of_uses h
  obtain ⟨hsame, hnonblank⟩ := hsteady reference id hid
  have hdeclarable := hm.proper.declarable _ hentry
  exact ⟨hdeclarable.free, hnonblank, by rw [hsame]; rfl⟩

/-- What is visible in the recovered query was visible before. -/
theorem mem_visible_of_recovered (hm : query.Meaning validate stored)
    (hr : stored.Recovers surface) (hsteady : validate.Steady)
    (hle : position ≤ query.stages.length)
    (h : binding ∈ surface.visible validate position) :
    binding ∈ query.visible validate position := by
  have hle' : position ≤ stored.stages.length := hm.length ▸ hle
  rcases (hr.mem_visible (hm.accepted hsteady) hle').1 h with
    ⟨name, id, rfl, huses⟩ | ⟨name, earlier, hlt, rfl, hname⟩
  · exact mem_visible_dataset.2 (mem_visible_dataset.1 (hm.mem_visible_of_uses huses))
  · rcases hname with rfl | huses
    · have hstage := List.getElem?_eq_getElem (Nat.lt_of_lt_of_le hlt hle)
      exact mem_visible_stage.2 ⟨earlier, hlt, _, hstage, rfl, .inl rfl⟩
    · obtain ⟨stage, hstage, hname⟩ := hm.name_of_uses huses
      exact mem_visible_stage.2 ⟨earlier, hlt, stage, hstage, rfl, hname⟩

/-- **The same names supplement a stage again.** -/
theorem supplements_restart_iff (hm : query.Meaning validate stored)
    (hr : stored.Recovers surface) (hsteady : validate.Steady) {stage : Surface.Stage}
    {primary : Binding} {expanded : Backend.Stage}
    (hexpanded : stored.stages[position]? = some expanded)
    (hexpands : Expands (query.visible validate position) (query.passed validate position)
      position stage primary expanded) (binding : Binding) :
    Supplements (surface.visible validate position) (primary.restart stage.pipeline position)
        stage.pipeline binding ↔
      Supplements (query.visible validate position) primary stage.pipeline binding := by
  obtain ⟨hlt, -⟩ := List.getElem?_eq_some_iff.1 hexpanded
  have hle : position ≤ query.stages.length := hm.length ▸ Nat.le_of_lt hlt
  constructor
  · intro hs
    have hvisible := hm.mem_visible_of_recovered hr hsteady hle hs.visible
    have hother := (Binding.name_restart_ne_iff hs.mentioned).1 hs.other
    exact ⟨hvisible, hother, hs.nonempty, hs.mentioned⟩
  · intro hs
    -- what the body found is an input, so it is used and visible again
    obtain ⟨scope, hscope, hinputs⟩ := hexpands.inputs
    have hinput : binding.toInput ∈ expanded.inputs := by
      rw [hinputs]
      exact (mem_inputsOf hscope).2 ⟨binding, rfl, .inr hs⟩
    have hstands := hm.stands_of_visible hle hs.visible
    have hvisible := hr.visible_of_stands (hm.accepted hsteady) hexpanded hinput hstands
    have hother : binding.name ≠ (primary.restart stage.pipeline position).name :=
      (Binding.name_restart_ne_iff hs.mentioned).2 hs.other
    exact ⟨hvisible, hother, hs.nonempty, hs.mentioned⟩

/-- A stage that is expanded again comes out settled. -/
theorem eq_settle (hm : query.Meaning validate stored) (hr : stored.Recovers surface)
    (hsteady : validate.Steady) {again : Backend.Query} (hm' : surface.Meaning validate again)
    {expanded : Backend.Stage} (hexpanded : stored.stages[position]? = some expanded) :
    again.stages[position]? = some (expanded.settle position) := by
  obtain ⟨stage, primary, hstage, hexpands⟩ := hm.exists_stage hexpanded
  have hstands := hm.stands_primary hstage hexpands
  obtain ⟨condensed, expanded', hpipeline, hexpanded', hexpands'⟩ :=
    hr.expands (hm.accepted hsteady) hm' hexpanded hexpands.primary?_eq hstands
  rw [hexpands.pipeline] at hexpands' hpipeline
  have hsupplements := hm.supplements_restart_iff hr hsteady hexpanded hexpands
  obtain ⟨scope, hscope, rfl⟩ := hexpands.exists_eq
  obtain ⟨scope', hscope', rfl⟩ := hexpands'.exists_eq
  rw [hexpanded', hpipeline, inputsOf_eq, inputsOf_eq, Binding.toInput_restart,
    supplementals_congr hscope' hscope hsupplements]
  rfl

/-- Where the recovered query expands, it is to the settled one. -/
theorem again_eq_settle (hm : query.Meaning validate stored) (hr : stored.Recovers surface)
    (hsteady : validate.Steady) {again : Backend.Query} (hm' : surface.Meaning validate again) :
    again = stored.settle := by
  have houtput : again.output = stored.output := by
    rw [hm'.output, hm.output, hr.length, hm.length]
  have hlength : again.stages.length = stored.stages.length := hm'.length.trans hr.length
  exact Backend.Query.eq_settle_of_stages houtput hlength fun hexpanded =>
    hm.eq_settle hr hsteady hm' hexpanded

/-- **Expanding the recovered query gives the stored one, settled.** -/
theorem expandWith_settle (hm : query.Meaning validate stored) (hr : stored.Recovers surface)
    (hsteady : validate.Steady) (hcondense : stored.condense = .ok surface) :
    surface.expandWith validate = .ok stored.settle := by
  have hval := hm.accepted hsteady
  have hproper := hr.proper hcondense (hm.declarable_of_uses hsteady)
  -- names that were visible had one target, and no others are visible now
  have hsingle : SingleTarget (surface.visible validate stored.stages.length) := by
    rw [hm.length]
    exact hm.single.mono fun _ h => hm.mem_visible_of_recovered hr hsteady (Nat.le_refl _) h
  obtain ⟨again, hagain⟩ := hr.exists_expandWith hm.orderly hval hproper hm.nonblank hsingle
  rw [hagain, hm.again_eq_settle hr hsteady (meaning_of_expandWith hagain)]

end Surface.Query.Meaning

/-! ### Stability -/

/-- What an input refers to. -/
def Backend.Input.target (input : Input) : Option String × Option String :=
  (input.datasetId, input.stageId)

/-- Settling changes nothing but the name, to that of the stage before, and only
where this is what the input refers to. -/
theorem settleInput_eq (primary : Input) (body : String) (position : Nat) :
    settleInput primary body position = primary ∨
      ∃ previous, position = previous + 1 ∧
        primary.target = (none, some (stageId previous)) ∧
        settleInput primary body position = { primary with name := stageId previous } := by
  cases position with
  | zero => exact .inl rfl
  | succ previous =>
    rw [settleInput]
    split
    · next hcase =>
      obtain ⟨⟨hdataset, hstage⟩, -⟩ := hcase
      obtain ⟨name, datasetId, target⟩ := primary
      cases hdataset
      cases hstage
      exact .inr ⟨previous, rfl, rfl, rfl⟩
    · exact .inl rfl

theorem Backend.Stage.settle_eq (stage : Stage) (position : Nat) :
    stage.settle position = stage ∨
      ∃ previous primary rest, position = previous + 1 ∧ stage.inputs = primary :: rest ∧
        primary.target = (none, some (stageId previous)) ∧
        stage.settle position =
          { stage with inputs := { primary with name := stageId previous } :: rest } := by
  obtain ⟨id, body, inputs⟩ := stage
  cases inputs with
  | nil => exact .inl rfl
  | cons primary rest =>
    have hsettle : settle ⟨id, body, primary :: rest⟩ position =
        ⟨id, body, settleInput primary body position :: rest⟩ := rfl
    rw [hsettle]
    rcases settleInput_eq primary body position with hsame | ⟨previous, hposition, htarget, hname⟩
    · rw [hsame]
      exact .inl rfl
    · rw [hname]
      exact .inr ⟨previous, primary, rest, hposition, rfl, htarget, rfl⟩

/-- **Stability**: a query that was expanded is condensed, and the outcome expands
again, to the same stages with the same targets of all inputs.  Nothing changes
but the name of a primary input that is the stage before. -/
theorem exists_condense_expandWith {query : Surface.Query} {validate : Validator}
    {stored : Backend.Query} (hvalidate : validate = Dataset.bareId? ∨ validate.Steady)
    (h : query.expandWith validate = .ok stored) :
    ∃ surface again, stored.condense = .ok surface ∧ surface.expandWith validate = .ok again ∧
      again.output = stored.output ∧ again.stages.length = stored.stages.length ∧
      ∀ (position : Nat) (stage : Stage), stored.stages[position]? = some stage →
        ∃ stage', again.stages[position]? = some stage' ∧
          stage'.id = stage.id ∧ stage'.pipeline = stage.pipeline ∧
          stage'.inputs.map Input.target = stage.inputs.map Input.target ∧
          (stage' = stage ∨
            ∃ previous primary rest, position = previous + 1 ∧ stage.inputs = primary :: rest ∧
              primary.target = (none, some (stageId previous)) ∧
              stage' =
                { stage with inputs := { primary with name := stageId previous } :: rest }) := by
  have hsteady : validate.Steady := by
    rcases hvalidate with rfl | hsteady
    · exact Dataset.steady_bareId?
    · exact hsteady
  have hm := Surface.Query.meaning_of_expandWith h
  obtain ⟨surface, hcondense⟩ := hm.orderly.exists_condense
  have hr := hm.orderly.recovers hcondense
  refine ⟨surface, stored.settle, hcondense, hm.expandWith_settle hr hsteady hcondense, rfl, ?_, ?_⟩
  · rw [Backend.Query.settle, List.length_mapIdx]
  · intro position stage hstage
    refine ⟨stage.settle position, ?_, ?_⟩
    · rw [stored.getElem?_settle, hstage, Option.map_some]
    · rcases stage.settle_eq position with hsame | ⟨previous, primary, rest, hposition, hinputs,
        htarget, hsettle⟩
      · rw [hsame]
        exact ⟨rfl, rfl, rfl, .inl rfl⟩
      · rw [hsettle]
        refine ⟨rfl, rfl, ?_, .inr ⟨previous, primary, rest, hposition, hinputs, htarget, rfl⟩⟩
        rw [hinputs]
        rfl

/-- The second stage starts from the first by its id when it is expanded again. -/
theorem joined_again :
    joined.expandWith Dataset.bareId? = .ok joinedStored ∧
      ∃ surface again, joinedStored.condense = .ok surface ∧
        surface.expandWith Dataset.bareId? = .ok again ∧
        again.output = "stage-2" ∧ again.stages.length = 3 := by
  obtain ⟨surface, again, hcondense, hagain, houtput, hlength, -⟩ :=
    exists_condense_expandWith (.inl rfl) expand_joined
  exact ⟨expand_joined, surface, again, hcondense, hagain, houtput, hlength⟩

end StagedQuery
