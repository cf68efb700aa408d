/-
StagedQuery/Proofs/SecondRound.lean

What a second round of condensing still leaves out.

Condensing gives a stage an alias for every other name the stored query uses for
it, and this also where the name was that of a primary input which is then left
out, its place implying it.  Such an input is called by an id when the query is
expanded again.  If nobody else had called the stage by its alias, the alias is
now unused, and the next round does not find it any more.

An alias thus lasts where a stage behind *calls* it in the surface query itself:
where the stage names it as its input, or mentions it in its body.  Nothing but
the aliases that no stage calls is lost in the second round,

    again.condense = .ok surface.withoutUncalled,

since primary inputs keep what their places imply, and datasets stay in use.

Main statements: `Meaning.uses_alias_iff`, which aliases an expanded query uses;
`exists_condense_again`.
-/
import StagedQuery.Proofs.Stability

namespace StagedQuery

open Backend

/-! ### Aliases that are called -/

namespace Surface

/-- The stage names the input, or its body mentions it. -/
def Stage.calls (stage : Stage) (name : String) : Bool :=
  stage.inputName = some name || (!name.isEmpty && Text.mentions stage.pipeline name)

/-- Some stage behind a position calls the name. -/
def CalledBehind (stages : List Stage) (position : Nat) (name : String) : Prop :=
  ∃ user ∈ stages.drop (position + 1), user.calls name = true

instance (stages : List Stage) (position : Nat) (name : String) :
    Decidable (CalledBehind stages position name) :=
  inferInstanceAs (Decidable (∃ user ∈ stages.drop (position + 1), user.calls name = true))

/-- The stages with only those aliases that a stage behind calls. -/
def dropUncalled : List Stage → List Stage
  | [] => []
  | stage :: rest =>
    { stage with aliasName := stage.aliasName.filter fun name => rest.any (·.calls name) } ::
      dropUncalled rest

/-- The query without the aliases that no stage behind them calls. -/
def Query.withoutUncalled (query : Query) : Query :=
  { query with stages := dropUncalled query.stages }

variable {stages : List Stage} {position : Nat} {stage : Stage} {name : String}

theorem Stage.calls_iff :
    stage.calls name = true ↔
      stage.inputName = some name ∨ (name ≠ "" ∧ Text.mentions stage.pipeline name = true) := by
  simp [calls]

theorem calledBehind_iff :
    CalledBehind stages position name ↔
      ∃ later > position, ∃ user, stages[later]? = some user ∧ user.calls name = true := by
  simp only [CalledBehind, List.mem_iff_getElem?, List.getElem?_drop]
  constructor
  · rintro ⟨user, ⟨index, huser⟩, hcalls⟩
    exact ⟨_, by omega, user, huser, hcalls⟩
  · rintro ⟨later, hlt, user, huser, hcalls⟩
    obtain ⟨index, rfl⟩ := Nat.exists_eq_add_of_le (Nat.succ_le_of_lt hlt)
    exact ⟨user, ⟨index, huser⟩, hcalls⟩

theorem length_dropUncalled : (dropUncalled stages).length = stages.length := by
  induction stages with
  | nil => rfl
  | cons stage rest ih => rw [dropUncalled, List.length_cons, List.length_cons, ih]

/-- A stage loses its alias where no stage behind calls it, and nothing else. -/
theorem exists_getElem?_dropUncalled (hstage : stages[position]? = some stage) :
    ∃ kept, (dropUncalled stages)[position]? = some kept ∧
      kept.pipeline = stage.pipeline ∧ kept.inputName = stage.inputName ∧
      ∀ name, kept.aliasName = some name ↔
        stage.aliasName = some name ∧ CalledBehind stages position name := by
  induction stages generalizing position with
  | nil => cases hstage
  | cons first rest ih =>
    cases position with
    | zero =>
      cases hstage
      refine ⟨_, rfl, rfl, rfl, fun name => ?_⟩
      simp [CalledBehind, Option.filter_eq_some_iff]
    | succ position => exact ih hstage

/-- The query keeps its aliases where all of them are called. -/
theorem Query.withoutUncalled_eq_iff {query : Query} :
    query.withoutUncalled = query ↔
      ∀ (position : Nat) (stage : Stage), query.stages[position]? = some stage →
        ∀ name, stage.aliasName = some name → CalledBehind query.stages position name := by
  constructor
  · intro hsame position stage hstage name halias
    obtain ⟨kept, hkept, -, -, hiff⟩ := exists_getElem?_dropUncalled hstage
    have hstages : dropUncalled query.stages = query.stages := congrArg Query.stages hsame
    rw [hstages, hstage] at hkept
    cases hkept
    exact ((hiff name).1 halias).2
  · intro hcalled
    have hstages : dropUncalled query.stages = query.stages := by
      apply eq_of_getElem?_eq length_dropUncalled rfl
      intro position stage hstage
      obtain ⟨⟨_, _, _⟩, hkept, rfl, rfl, hiff⟩ := exists_getElem?_dropUncalled hstage
      rw [hkept, hstage, Option.some.injEq, Stage.mk.injEq]
      refine ⟨Option.ext fun name => (hiff name).trans ?_, rfl, rfl⟩
      exact ⟨And.left, fun halias => ⟨halias, hcalled position stage hstage name halias⟩⟩
    rw [withoutUncalled, hstages]

end Surface

/-! ### Which aliases are used -/

namespace Surface.Query.Meaning

variable {query surface : Surface.Query} {validate : Validator} {stored : Backend.Query}
  {position later : Nat} {stage : Surface.Stage} {binding : Binding} {name : String}

/-- What is visible to a stage and not passed on to it is an input of it where the
stage calls its name. -/
theorem toInput_mem_iff (hm : query.Meaning validate stored)
    (hstage : query.stages[position]? = some stage) {expanded : Backend.Stage}
    (hexpanded : stored.stages[position]? = some expanded)
    (hvisible : binding ∈ query.visible validate position)
    (hpassed : query.passed validate position ≠ some binding) :
    binding.toInput ∈ expanded.inputs ↔ stage.calls binding.name = true := by
  obtain ⟨hlt, -⟩ := List.getElem?_eq_some_iff.1 hstage
  have hsingle := hm.singleTarget (Nat.le_of_lt hlt)
  obtain ⟨primary, expanded', hexpanded', hexpands⟩ := hm.expands hstage
  cases hexpanded.symm.trans hexpanded'
  have hprimary := mem_visible_primary (Nat.le_of_lt hlt) hexpands.starts
  obtain ⟨scope, hscope, hinputs⟩ := hexpands.inputs
  rw [hinputs, mem_inputsOf hscope, Stage.calls_iff]
  constructor
  · rintro ⟨other, hother, hcase⟩
    cases Binding.toInput_inj.1 hother
    rcases hcase with rfl | hs
    · rcases hexpands.starts with ⟨hname, -⟩ | ⟨-, hsame⟩
      · exact .inl hname
      · exact absurd hsame hpassed
    · exact .inr ⟨hs.nonempty, hs.mentioned⟩
  · rintro (hname | ⟨hnonempty, hmentioned⟩)
    · exact ⟨binding, rfl, .inl (Starts.unique hsingle (.named hname hvisible) hexpands.starts)⟩
    · -- a body that mentions the name of the primary input mentions that input
      by_cases hsame : binding.name = primary.name
      · exact ⟨binding, rfl, .inl (hsingle _ hvisible _ hprimary hsame)⟩
      · exact ⟨binding, rfl, .inr ⟨hvisible, hsame, hnonempty, hmentioned⟩⟩

/-- A stage is passed on under its id only. -/
theorem passed_ne_alias (hlt : position < later) (hne : name ≠ stageId position) :
    query.passed validate later ≠ some (.stage name (stageId position)) := by
  intro hpassed
  obtain ⟨previous, rfl⟩ := Nat.exists_eq_succ_of_ne_zero (Nat.ne_of_gt (Nat.zero_lt_of_lt hlt))
  rw [passed_succ, Option.some.injEq, Binding.ownId] at hpassed
  obtain ⟨hname, rfl⟩ := Binding.stage_inj.1 hpassed
  exact hne hname.symm

/-- A stage that has an alias is used by it where a stage behind calls it. -/
theorem uses_iff_calledBehind (hm : query.Meaning validate stored)
    (hstage : query.stages[position]? = some stage) (halias : stage.aliasName = some name)
    (hne : name ≠ stageId position) :
    stored.Uses (.stage name (stageId position)) ↔ CalledBehind query.stages position name := by
  obtain ⟨-, target, htarget, -⟩ := hm.expands hstage
  have hinput : ∀ {later : Nat} {user : Surface.Stage} {expanded : Backend.Stage},
      position < later → query.stages[later]? = some user →
        stored.stages[later]? = some expanded →
          (.ofStage name (stageId position) ∈ expanded.inputs ↔ user.calls name = true) := by
    intro later user expanded hlt huser hexpanded
    have hvisible : .stage name (stageId position) ∈ query.visible validate later :=
      mem_visible_stage.2 ⟨position, hlt, stage, hstage, rfl, .inr halias⟩
    exact hm.toInput_mem_iff huser hexpanded hvisible (passed_ne_alias hlt hne)
  rw [Backend.Query.uses_stage_iff htarget, hm.id_eq htarget, calledBehind_iff]
  constructor
  · rintro ⟨later, hlt, expanded, hexpanded, hmem⟩
    obtain ⟨user, -, huser, -⟩ := hm.exists_stage hexpanded
    exact ⟨later, hlt, user, huser, (hinput hlt huser hexpanded).1 hmem⟩
  · rintro ⟨later, hlt, user, huser, hcalls⟩
    obtain ⟨-, expanded, hexpanded, -⟩ := hm.expands huser
    exact ⟨later, hlt, expanded, hexpanded, (hinput hlt huser hexpanded).2 hcalls⟩

/-- **Which aliases an expanded query uses**: those that a stage behind calls. -/
theorem uses_alias_iff (hm : query.Meaning validate stored)
    (hstage : query.stages[position]? = some stage) (hne : name ≠ stageId position) :
    stored.Uses (.stage name (stageId position)) ↔
      stage.aliasName = some name ∧ CalledBehind query.stages position name := by
  constructor
  · intro huses
    obtain ⟨stage', hstage', hname⟩ := hm.name_of_uses huses
    cases hstage.symm.trans hstage'
    have halias := hname.resolve_left hne
    exact ⟨halias, (hm.uses_iff_calledBehind hstage halias hne).1 huses⟩
  · rintro ⟨halias, hbehind⟩
    exact (hm.uses_iff_calledBehind hstage halias hne).2 hbehind

end Surface.Query.Meaning

/-! ### The second round -/

/-- What a stage starts from again is implied where what it started from was. -/
theorem Binding.implied_restart_iff {primary : Binding} {declared : Inputs} {body : String}
    {position : Nat} :
    (primary.restart body position).Implied declared body position ↔
      primary.Implied declared body position := by
  cases position with
  | zero => exact Iff.rfl
  | succ previous =>
    show continues _ _ _ = true ↔ primary.continues body previous = true
    by_cases hcontinues : primary.continues body previous = true
    · rw [restart, if_pos hcontinues]
      exact iff_of_true (continues_ownId body previous) hcontinues
    · rw [restart, if_neg hcontinues]

theorem Backend.Stage.dataset_mem_settle_iff {stage : Backend.Stage} {position : Nat}
    {name id : String} :
    .dataset name id ∈ (stage.settle position).inputs ↔ .dataset name id ∈ stage.inputs := by
  rcases stage.settle_eq position with
    hsame | ⟨previous, primary, rest, -, hinputs, htarget, hsettle⟩
  · rw [hsame]
  · -- neither the input that changed its name nor what it became is a dataset
    have hdataset : primary.datasetId = none := congrArg Prod.fst htarget
    have hne : ∀ input : Input, input.datasetId = none → .dataset name id ≠ input := by
      rintro input hnone rfl
      cases hnone
    rw [hsettle, hinputs, List.mem_cons, List.mem_cons,
      or_iff_right (hne { primary with name := stageId previous } hdataset),
      or_iff_right (hne primary hdataset)]

/-- Settling leaves the datasets. -/
theorem Backend.Query.uses_dataset_settle_iff {stored : Backend.Query} {name id : String} :
    stored.settle.Uses (.dataset name id) ↔ stored.Uses (.dataset name id) := by
  simp only [uses_dataset_iff, mem_allInputs, getElem?_settle, Option.map_eq_some_iff]
  constructor
  · rintro ⟨position, _, ⟨stage, hstage, rfl⟩, hinput⟩
    exact ⟨position, stage, hstage, Backend.Stage.dataset_mem_settle_iff.1 hinput⟩
  · rintro ⟨position, stage, hstage, hinput⟩
    exact ⟨position, _, ⟨stage, hstage, rfl⟩, Backend.Stage.dataset_mem_settle_iff.2 hinput⟩

/-- **What is recovered in the second round** is what was in the first, without the
aliases that are not called. -/
theorem Surface.Query.Meaning.recovers_settle {query surface : Surface.Query}
    {validate : Validator} {stored : Backend.Query} (hm : query.Meaning validate stored)
    (hr : stored.Recovers surface) (hm' : surface.Meaning validate stored.settle) :
    stored.settle.Recovers surface.withoutUncalled := by
  refine ⟨fun name id => ?_, ?_, fun {position settled} hsettled => ?_⟩
  · exact (hr.inputs name id).trans Backend.Query.uses_dataset_settle_iff.symm
  · rw [Surface.Query.withoutUncalled, Surface.length_dropUncalled, hm'.length]
  · rw [stored.getElem?_settle, Option.map_eq_some_iff] at hsettled
    obtain ⟨stage, hstage, rfl⟩ := hsettled
    obtain ⟨condensed, hcondensed, hpipeline, halias, hname⟩ := hr.stages hstage
    obtain ⟨kept, hkept, hkeptPipeline, hkeptName, hkeptAlias⟩ :=
      Surface.exists_getElem?_dropUncalled hcondensed
    refine ⟨kept, hkept, ?_, fun name => ?_, fun {input binding} hinput hbinding => ?_⟩
    · rw [hkeptPipeline, hpipeline, stage.pipeline_settle]
    · rw [hkeptAlias]
      constructor
      · rintro ⟨hsome, hcalled⟩
        have hne := ((halias name).1 hsome).1
        exact ⟨hne, (hm'.uses_alias_iff hcondensed hne).2 ⟨hsome, hcalled⟩⟩
      · rintro ⟨hne, huses⟩
        exact (hm'.uses_alias_iff hcondensed hne).1 huses
    · -- the primary input stands for what the stage starts from again
      obtain ⟨primary, hprimary, hmem⟩ := hm.orderly.shaped.exists_primary hstage
      obtain ⟨started, hstands⟩ := hm.orderly.stands hstage primary hmem
      rw [stage.primary?_settle, hprimary, Option.map_some, ← hm.toInput_of_stands hstands,
        ← Binding.toInput_restart, ← hm'.toInput_of_stands hbinding, Option.some.injEq,
        Binding.toInput_inj] at hinput
      subst hinput
      rw [stage.pipeline_settle, hkeptName]
      rcases hname hprimary hstands with ⟨himplied, hnone⟩ | ⟨hnot, hsome⟩
      · exact .inl ⟨Binding.implied_restart_iff.2 himplied, hnone⟩
      · rw [Binding.restart_of_not_implied hnot]
        exact .inr ⟨hnot, hsome⟩

/-- **What the second round leaves out**: the aliases that no stage behind calls, and
nothing else. -/
theorem exists_condense_again {query : Surface.Query} {stored : Backend.Query}
    (h : query.expand = .ok stored) :
    ∃ surface again, stored.condense = .ok surface ∧ surface.expand = .ok again ∧
      again.condense = .ok surface.withoutUncalled ∧
      (again.condense = .ok surface ↔
        ∀ (position : Nat) (stage : Surface.Stage), surface.stages[position]? = some stage →
          ∀ name, stage.aliasName = some name →
            Surface.CalledBehind surface.stages position name) := by
  have hm := Surface.Query.meaning_of_expandWith h
  obtain ⟨surface, hcondense⟩ := hm.orderly.exists_condense
  have hr := hm.orderly.recovers hcondense
  have hagain := hm.expandWith_settle hr Dataset.steady_bareId? hcondense
  have hm' := Surface.Query.meaning_of_expandWith hagain
  have hrecovers := hm.recovers_settle hr hm'
  -- there is one reading of the settled query, so this is what it is condensed to
  obtain ⟨surface', hcondense'⟩ := hm'.orderly.exists_condense
  have hr' := hm'.orderly.recovers hcondense'
  cases Backend.Query.Recovers.unique hm'.orderly hr' hrecovers
  refine ⟨surface, stored.settle, hcondense, hagain, hcondense', ?_⟩
  rw [hcondense', Except.ok.injEq]
  exact Surface.Query.withoutUncalled_eq_iff

/-- The alias of the first stage is called by the third, so all aliases last. -/
theorem joined_condense_again :
    joined.expand = .ok joinedStored ∧ ∃ again, joinedStored.condense = .ok joinedCondensed ∧
      joinedCondensed.expand = .ok again ∧ again.condense = .ok joinedCondensed := by
  obtain ⟨surface, again, hcondense, hagain, -, hlasts⟩ := exists_condense_again expand_joined
  cases condense_joinedStored.symm.trans hcondense
  refine ⟨expand_joined, again, hcondense, hagain, hlasts.2 ?_⟩
  have hcalled : ∀ entry ∈ joinedCondensed.stages.zipIdx, ∀ name ∈ entry.1.aliasName,
      Surface.CalledBehind joinedCondensed.stages entry.2 name := by
    decide +kernel
  intro position stage hstage name halias
  exact hcalled (stage, position) (List.mem_zipIdx_iff_getElem?.2 hstage) name halias

/-- A query whose only use of an alias is as the input of the stage behind. -/
def chained : Surface.Query where
  inputs := .ofList [("in", "1")]
  stages := [⟨some "base", none, "filter true"⟩, ⟨none, some "base", "make_col a:1"⟩]

/-- What it expands to. -/
def chainedStored : Backend.Query where
  output := "stage-1"
  stages :=
    [⟨"stage-0", "filter true", [.dataset "in" "1"]⟩,
      ⟨"stage-1", "make_col a:1", [.ofStage "base" "stage-0"]⟩]

/-- What it is condensed to: the input is left out, the alias is not. -/
def chainedCondensed : Surface.Query where
  inputs := .ofList [("in", "1")]
  stages := [⟨some "base", none, "filter true"⟩, ⟨none, none, "make_col a:1"⟩]

/-- The second round leaves out the alias as well. -/
theorem chained_loses_alias :
    chained.expand = .ok chainedStored ∧ chainedStored.condense = .ok chainedCondensed ∧
      ∃ again, chainedCondensed.expand = .ok again ∧
        again.condense = .ok chainedCondensed.withoutUncalled ∧
        again.condense ≠ .ok chainedCondensed := by
  have hexpand : chained.expand = .ok chainedStored := by
    simp only [Surface.Query.expand, Surface.Query.expandWith, Surface.Query.expandIn, chained,
      expandFrom, expandStage, inputsOf, supplementalNames, sortedNames_eq_insertionSort]
    decide +kernel
  have hagain : chainedCondensed.expand = .ok
      ⟨"stage-1",
        [⟨"stage-0", "filter true", [.dataset "in" "1"]⟩,
          ⟨"stage-1", "make_col a:1", [.ofStage "stage-0" "stage-0"]⟩]⟩ := by
    simp only [Surface.Query.expand, Surface.Query.expandWith, Surface.Query.expandIn,
      chainedCondensed, expandFrom, expandStage, inputsOf, supplementalNames,
      sortedNames_eq_insertionSort]
    decide +kernel
  refine ⟨hexpand, by decide +kernel, _, hagain, ?_, ?_⟩
  · decide +kernel
  · decide +kernel

end StagedQuery
