/-
StagedQuery/Proofs/Recovery.lean

What is recovered when a stored query is condensed.

Expanding a query gives its stages new ids, those of their positions.  So what an
input of a stored query *stands for* is the dataset it refers to, or the stage at
some earlier position under the id that this one will get.  A stored query is in
order (`Orderly`) when each of its inputs stands for something, no name for two
things, and no stage goes by two names of which it would have to be given both
as an alias.

Queries in order come from two sides: every query that was expanded is in order,
and so is a query written by others that refers to each stage by the id it has.
For both the surface query recovered is the same reading of the stored one
(`Recovers`): it declares the datasets used, it gives an alias to the stages that
are used by another name than their new id, and it leaves out the explicit input
where the place of a stage implies it.

Main statements: `Orderly.exists_condense`, a query in order is condensed;
`Orderly.recovers`, what it is condensed to is such a reading; and
`Recovers.unique`, there is one.
-/
import StagedQuery.Proofs.Aliases
import StagedQuery.Proofs.Condensation
import StagedQuery.Scope

namespace StagedQuery

open Backend

/-! ### Bindings as inputs -/

theorem Binding.name_toInput (binding : Binding) : binding.toInput.name = binding.name := by
  obtain ⟨name, target⟩ := binding
  cases target <;> rfl

/-- An input shows which binding it is of. -/
theorem Binding.toInput_inj {binding other : Binding} :
    binding.toInput = other.toInput ↔ binding = other := by
  refine ⟨fun h => ?_, congrArg toInput⟩
  obtain ⟨name, target⟩ := binding
  obtain ⟨name', target'⟩ := other
  cases target <;> cases target' <;>
    simp_all [toInput, Input.dataset, Input.ofStage]

theorem Binding.stage_inj {name name' : String} {position other : Nat} :
    Binding.stage name (stageId position) = .stage name' (stageId other) ↔
      name = name' ∧ position = other := by
  simp only [stage, mk.injEq, Target.stage.injEq, stageId_inj]

/-! ### What inputs stand for -/

namespace Backend.Query

/-- What an input of the stage at a position stands for: a dataset, or an earlier
stage under the id of its position. -/
inductive Stands (stored : Query) (position : Nat) : Input → Binding → Prop
  | dataset {name id : String} : Stands stored position (.dataset name id) (.dataset name id)
  | stage {name : String} {earlier : Nat} {target : Stage} (hlt : earlier < position)
      (htarget : stored.stages[earlier]? = some target) :
      Stands stored position (.ofStage name target.id) (.stage name (stageId earlier))

/-- Some input of the stored query stands for the binding. -/
def Uses (stored : Query) (binding : Binding) : Prop :=
  ∃ (position : Nat) (stage : Stage), stored.stages[position]? = some stage ∧
    ∃ input ∈ stage.inputs, stored.Stands position input binding

/-- Each input stands for something, and names can be recovered. -/
structure Orderly (stored : Query) : Prop where
  /-- The shape is that of a query. -/
  shaped : stored.WellShaped
  /-- Every input stands for something. -/
  stands : ∀ {position : Nat} {stage : Stage}, stored.stages[position]? = some stage →
    ∀ input ∈ stage.inputs, ∃ binding, stored.Stands position input binding
  /-- No name stands for two things. -/
  single : ∀ {binding other : Binding}, stored.Uses binding → stored.Uses other →
    binding.name = other.name → binding = other
  /-- One alias is enough for a stage. -/
  called : ∀ {position : Nat} {name other : String},
    stored.Uses (.stage name (stageId position)) → stored.Uses (.stage other (stageId position)) →
    name ≠ stageId position → other ≠ stageId position → name = other
  /-- The id of a position is only used where the stage there has it already. -/
  own : ∀ {position : Nat} {stage : Stage}, stored.stages[position]? = some stage →
    stored.Uses (.ownId (stageId position)) → stage.id = stageId position

variable {stored : Query} {position : Nat} {input : Input} {binding : Binding}

theorem Stands.name_eq (h : stored.Stands position input binding) : input.name = binding.name := by
  cases h <;> rfl

/-- The first stage has no stage before it to refer to. -/
theorem Stands.exists_dataset (h : stored.Stands 0 input binding) :
    ∃ id, binding = .dataset input.name id := by
  cases h with
  | dataset => exact ⟨_, rfl⟩
  | stage hlt => exact absurd hlt (Nat.not_lt_zero _)

/-- An input with one target stands for something, where a stage it refers to is an
earlier one. -/
theorem exists_stands_of_target
    (htarget : (input.datasetId.isSome = true ∧ input.stageId = none) ∨
      (input.datasetId = none ∧ input.stageId.isSome = true))
    (hstage : ∀ id, input.stageId = some id →
      ∃ earlier < position, ∃ target : Stage, stored.stages[earlier]? = some target ∧
        target.id = id) : ∃ binding, stored.Stands position input binding := by
  obtain ⟨name, datasetId, stageId?⟩ := input
  rcases htarget with ⟨hdataset, hnone⟩ | ⟨hnone, hsome⟩
  · obtain ⟨id, rfl⟩ := Option.isSome_iff_exists.1 hdataset
    cases hnone
    exact ⟨_, .dataset⟩
  · obtain ⟨id, rfl⟩ := Option.isSome_iff_exists.1 hsome
    cases hnone
    obtain ⟨earlier, hlt, target, htarget, rfl⟩ := hstage id rfl
    exact ⟨_, .stage hlt htarget⟩

/-- What stands for a stage refers to it by the id it has. -/
theorem stands_stage_iff {name : String} {earlier : Nat} :
    stored.Stands position input (.stage name (stageId earlier)) ↔
      earlier < position ∧ ∃ target : Stage, stored.stages[earlier]? = some target ∧
        input = .ofStage name target.id := by
  constructor
  · intro h
    generalize hbinding : Binding.stage name (stageId earlier) = binding at h
    cases h with
    | dataset => cases hbinding
    | stage hlt htarget =>
      obtain ⟨rfl, rfl⟩ := Binding.stage_inj.1 hbinding
      exact ⟨hlt, _, htarget, rfl⟩
  · rintro ⟨hlt, target, htarget, rfl⟩
    exact .stage hlt htarget

theorem uses_of_stands {stage : Stage} (hstage : stored.stages[position]? = some stage)
    (hinput : input ∈ stage.inputs) (h : stored.Stands position input binding) :
    stored.Uses binding :=
  ⟨position, stage, hstage, input, hinput, h⟩

/-- A dataset is used where it is an input. -/
theorem uses_dataset_iff {name id : String} :
    stored.Uses (.dataset name id) ↔ .dataset name id ∈ allInputs stored.stages := by
  rw [mem_allInputs]
  constructor
  · rintro ⟨position, stage, hstage, input, hinput, hstands⟩
    cases hstands with
    | dataset => exact ⟨position, stage, hstage, hinput⟩
  · rintro ⟨position, stage, hstage, hinput⟩
    exact ⟨position, stage, hstage, _, hinput, .dataset⟩

/-- A stage is used where some later stage refers to it by its stored id. -/
theorem uses_stage_iff {name : String} {target : Stage}
    (htarget : stored.stages[position]? = some target) :
    stored.Uses (.stage name (stageId position)) ↔
      ∃ later > position, ∃ stage : Stage, stored.stages[later]? = some stage ∧
        .ofStage name target.id ∈ stage.inputs := by
  constructor
  · rintro ⟨later, stage, hstage, input, hinput, hstands⟩
    obtain ⟨hlt, target', htarget', rfl⟩ := stands_stage_iff.1 hstands
    cases htarget.symm.trans htarget'
    exact ⟨later, hlt, stage, hstage, hinput⟩
  · rintro ⟨later, hlt, stage, hstage, hinput⟩
    exact ⟨later, stage, hstage, _, hinput, .stage hlt htarget⟩

/-- A stage that is used is at some position. -/
theorem exists_target_of_uses {name id : String} (h : stored.Uses (.stage name id)) :
    ∃ (earlier : Nat) (target : Stage), stored.stages[earlier]? = some target ∧
      id = stageId earlier := by
  obtain ⟨position, stage, -, input, -, hstands⟩ := h
  generalize hbinding : Binding.stage name id = binding at hstands
  cases hstands with
  | dataset => cases hbinding
  | stage hlt htarget =>
    cases hbinding
    exact ⟨_, _, htarget, rfl⟩

/-- An id is that of one stage. -/
theorem WellShaped.position_unique (h : stored.WellShaped) {other : Nat} {stage stage' : Stage}
    (hstage : stored.stages[position]? = some stage)
    (hstage' : stored.stages[other]? = some stage') (hid : stage.id = stage'.id) :
    position = other := by
  have hfound := (stagePosition?_eq_some_iff h.distinct).2 ⟨stage, hstage, hid⟩
  have hfound' := (stagePosition?_eq_some_iff h.distinct).2 ⟨stage', hstage', rfl⟩
  exact Option.some.inj (hfound.symm.trans hfound')

namespace Orderly

/-- An input that refers to a stage stands for it. -/
theorem stage_of_stageId (h : stored.Orderly) {stage : Stage}
    (hstage : stored.stages[position]? = some stage) (hinput : input ∈ stage.inputs)
    {id : String} (hid : input.stageId = some id) :
    ∃ earlier < position, ∃ target : Stage, stored.stages[earlier]? = some target ∧
      target.id = id ∧ stored.Uses (.stage input.name (stageId earlier)) := by
  obtain ⟨binding, hstands⟩ := h.stands hstage input hinput
  have huses := uses_of_stands hstage hinput hstands
  cases hstands with
  | dataset => cases hid
  | stage hlt htarget =>
    cases hid
    exact ⟨_, hlt, _, htarget, rfl, huses⟩

/-- An input that refers to a dataset stands for it. -/
theorem dataset_of_datasetId (h : stored.Orderly) (hinput : input ∈ allInputs stored.stages)
    {id : String} (hid : input.datasetId = some id) : stored.Uses (.dataset input.name id) := by
  obtain ⟨position, stage, hstage, hinput⟩ := mem_allInputs.1 hinput
  obtain ⟨binding, hstands⟩ := h.stands hstage input hinput
  have huses := uses_of_stands hstage hinput hstands
  cases hstands with
  | dataset =>
    cases hid
    exact huses
  | stage hlt htarget => cases hid

/-! ### Declared inputs and aliases -/

/-- The datasets among the inputs are those used. -/
theorem mem_datasets_iff (h : stored.Orderly) {entry : String × String} :
    entry ∈ (allInputs stored.stages).filterMap Input.dataset? ↔
      stored.Uses (.dataset entry.1 entry.2) := by
  rw [List.mem_filterMap, uses_dataset_iff]
  constructor
  · rintro ⟨input, hinput, hdataset⟩
    obtain ⟨hname, hid⟩ := Input.dataset?_eq_some_iff.1 hdataset
    have huses := h.dataset_of_datasetId hinput hid
    rwa [hname, uses_dataset_iff] at huses
  · intro hinput
    exact ⟨_, hinput, Input.dataset?_eq_some_iff.2 ⟨rfl, rfl⟩⟩

/-- The datasets used can be declared. -/
theorem exists_datasetsOf (h : stored.Orderly) :
    ∃ declared, datasetsOf stored.stages = .ok declared ∧
      ∀ name id, (name, id) ∈ declared.entries ↔ stored.Uses (.dataset name id) := by
  have hunique : ∀ entry ∈ (allInputs stored.stages).filterMap Input.dataset?,
      ∀ other ∈ (allInputs stored.stages).filterMap Input.dataset?,
      entry.1 = other.1 → entry = other := by
    rintro ⟨name, id⟩ hmem ⟨name', id'⟩ hother hname
    have heq := h.single (h.mem_datasets_iff.1 hmem) (h.mem_datasets_iff.1 hother) hname
    cases heq
    rfl
  obtain ⟨declared, hdeclared⟩ := exists_inputs hunique
  refine ⟨declared, datasetsOf_eq_ok_iff.2 ⟨hdeclared, ?_⟩, ?_⟩
  · -- a name that is that of a stage too would stand for two things
    intro input hinput hstage
    obtain ⟨id, hid⟩ := Option.isSome_iff_exists.1 hstage
    obtain ⟨position, stage, hposition, hinput⟩ := mem_allInputs.1 hinput
    obtain ⟨earlier, -, target, -, -, huses⟩ := h.stage_of_stageId hposition hinput hid
    rw [Bool.eq_false_iff]
    intro hcontains
    obtain ⟨reference, hreference⟩ := Inputs.contains_iff.1 hcontains
    have huses' := h.mem_datasets_iff.1 ((hdeclared _).1 hreference)
    cases h.single huses' huses rfl
  · exact fun name id => (hdeclared _).trans h.mem_datasets_iff

/-- An alias is asked for where a stage is used by another name than its new
id. -/
theorem mem_aliasUses (h : stored.Orderly) {use : String × String} :
    use ∈ aliasUses stored.stages ↔
      ∃ (position : Nat) (stage : Stage), stored.stages[position]? = some stage ∧
        stage.id = use.1 ∧ use.2 ≠ stageId position ∧
        stored.Uses (.stage use.2 (stageId position)) := by
  simp only [StagedQuery.mem_aliasUses, aliasUse?_eq_some_iff,
    stagePosition?_eq_some_iff h.shaped.distinct]
  constructor
  · rintro ⟨later, stage, hstage, input, hinput, hid, hname, earlier, -,
      ⟨target, htarget, htargetId⟩, hne⟩
    obtain ⟨earlier', -, target', htarget', htargetId', huses⟩ :=
      h.stage_of_stageId hstage hinput hid
    -- the id is found at one position, which is the one the input stands for
    cases h.shaped.position_unique htarget htarget' (htargetId.trans htargetId'.symm)
    exact ⟨earlier, target, htarget, htargetId, hne, hname ▸ huses⟩
  · rintro ⟨position, stage, hstage, hid, hne, huses⟩
    obtain ⟨later, hlt, user, huser, hinput⟩ := (uses_stage_iff hstage).1 huses
    exact ⟨later, user, huser, _, hinput, by rw [← hid]; rfl, rfl, position, hlt,
      ⟨stage, hstage, hid⟩, hne⟩

theorem oneToOne_aliasUses (h : stored.Orderly) : OneToOne (aliasUses stored.stages) := by
  rintro ⟨id, name⟩ huse ⟨id', name'⟩ huse' hshared
  obtain ⟨position, stage, hstage, hid, hne, huses⟩ := h.mem_aliasUses.1 huse
  obtain ⟨position', stage', hstage', hid', hne', huses'⟩ := h.mem_aliasUses.1 huse'
  -- whether they share the stage or the name, the uses are of one position
  have hposition : position = position' := by
    rcases hshared with hsame | hsame
    · exact h.shaped.position_unique hstage hstage' (hid.trans (hsame.trans hid'.symm))
    · exact (Binding.stage_inj.1 (h.single huses huses' hsame)).2
  subst hposition
  cases hstage.symm.trans hstage'
  exact Prod.ext (hid.symm.trans hid') (h.called huses huses' hne hne')

/-- The alias a stage is given is the other name it is used by. -/
theorem aliasOf?_eq_some_iff (h : stored.Orderly) {stage : Stage}
    (hstage : stored.stages[position]? = some stage) {name : String} :
    aliasOf? (aliasesOf stored.stages) stage.id = some name ↔
      name ≠ stageId position ∧ stored.Uses (.stage name (stageId position)) := by
  rw [aliasOf?_aliasesOf h.oneToOne_aliasUses, h.mem_aliasUses]
  constructor
  · rintro ⟨position', stage', hstage', hid, hne, huses⟩
    cases h.shaped.position_unique hstage hstage' hid.symm
    exact ⟨hne, huses⟩
  · exact fun ⟨hne, huses⟩ => ⟨position, stage, hstage, rfl, hne, huses⟩

end Orderly

end Backend.Query

/-! ### Implied inputs -/

/-- The stage continues from the one at `previous`, and can do so under the id of
that position. -/
def Binding.continues (primary : Binding) (body : String) (previous : Nat) : Bool :=
  primary.target = .stage (stageId previous) &&
    isRenamable primary.toInput body (stageId previous)

/-- A stage that starts from the one before under its id continues from it, whatever
its body mentions. -/
theorem Binding.continues_ownId (body : String) (previous : Nat) :
    (ownId (stageId previous)).continues body previous = true := by
  simp [continues, isRenamable, ownId, stage, toInput, Input.ofStage]

/-- The place of a stage implies that it starts from `primary`. -/
def Binding.Implied (primary : Binding) (declared : Inputs) (body : String) : Nat → Prop
  | 0 => declared.size = 1
  | previous + 1 => primary.continues body previous = true

theorem isRenamable_congr {input other : Input} (h : input.name = other.name)
    (body generated : String) :
    isRenamable input body generated = isRenamable other body generated := by
  rw [isRenamable, isRenamable, h]

namespace Backend.Query

variable {stored : Query} {position : Nat} {input : Input} {binding : Binding}

namespace Orderly

/-- The stage continues from the one before it where it starts from that one,
whatever name it uses. -/
theorem continuesFrom_iff (h : stored.Orderly) {previous : Nat} {before stage : Stage}
    (hbefore : stored.stages[previous]? = some before)
    (hstage : stored.stages[previous + 1]? = some stage) (hinput : input ∈ stage.inputs)
    (hstands : stored.Stands (previous + 1) input binding) :
    continuesFrom input before (aliasOf? (aliasesOf stored.stages) before.id) = true ↔
      binding.target = .stage (stageId previous) := by
  have huses := uses_of_stands hstage hinput hstands
  cases hstands with
  | dataset => simp [continuesFrom, Input.dataset, Binding.dataset]
  | stage hlt htarget =>
    next name earlier target =>
    have hids : target.id = before.id ↔ earlier = previous := by
      constructor
      · exact h.shaped.position_unique htarget hbefore
      · rintro rfl
        cases htarget.symm.trans hbefore
        rfl
    -- a stage that is used is used by its id or by its alias
    have hcalled : earlier = previous → name = before.id ∨
        aliasOf? (aliasesOf stored.stages) before.id = some name := by
      rintro rfl
      by_cases hname : name = stageId earlier
      · subst hname
        exact .inl (h.own hbefore huses).symm
      · exact .inr ((h.aliasOf?_eq_some_iff hbefore).2 ⟨hname, huses⟩)
    simp only [continuesFrom, Input.ofStage, Binding.stage, Option.isNone_none, Option.isNone_some,
      Bool.true_and, Bool.false_or, Bool.and_eq_true, decide_eq_true_eq, Option.some.injEq,
      Bool.or_eq_true, Target.stage.injEq, stageId_inj, hids]
    exact ⟨And.left, fun heq => ⟨heq, (hcalled heq).imp decide_eq_true decide_eq_true⟩⟩

theorem isImplied_iff (h : stored.Orderly) {declared : Inputs}
    (hdeclared : ∀ name id, (name, id) ∈ declared.entries ↔ stored.Uses (.dataset name id))
    {stage : Stage} (hstage : stored.stages[position]? = some stage)
    (hinput : input ∈ stage.inputs) (hstands : stored.Stands position input binding)
    (body : String) :
    isImplied declared (aliasesOf stored.stages) (beforeAt stored.stages position) input body =
        true ↔ binding.Implied declared body position := by
  cases position with
  | zero =>
    have huses := uses_of_stands hstage hinput hstands
    obtain ⟨id, rfl⟩ := hstands.exists_dataset
    cases hstands
    have hcontains := Inputs.contains_iff.2 ⟨id, (hdeclared _ id).2 huses⟩
    show isOnlyInput declared (.dataset _ id) = true ↔ declared.size = 1
    simp_all [isOnlyInput, Input.dataset, Binding.dataset]
  | succ previous =>
    obtain ⟨hlt, -⟩ := List.getElem?_eq_some_iff.1 hstage
    have hbefore := List.getElem?_eq_getElem (Nat.lt_of_succ_lt hlt)
    have hcontinues := h.continuesFrom_iff hbefore hstage hinput hstands
    have hname : binding.toInput.name = input.name := by
      rw [Binding.name_toInput, hstands.name_eq]
    have hrenamable := isRenamable_congr hname body (stageId previous)
    rw [beforeAt, hbefore, Option.map_some]
    show (continuesFrom _ _ _ && isRenamable _ _ _) = true ↔ Binding.continues _ _ _ = true
    rw [Bool.and_eq_true, hcontinues, Binding.continues, Bool.and_eq_true, decide_eq_true_eq,
      hrenamable]

end Orderly

/-! ### What is recovered -/

/-- The surface query is the reading of the stored one. -/
structure Recovers (stored : Query) (surface : Surface.Query) : Prop where
  /-- The datasets used are declared. -/
  inputs : ∀ name id, (name, id) ∈ surface.inputs.entries ↔ stored.Uses (.dataset name id)
  /-- There are as many stages. -/
  length : surface.stages.length = stored.stages.length
  /-- Every stage keeps its body, has the other name it is used by as its alias,
  and names the input it starts from where its place does not imply that one. -/
  stages : ∀ {position : Nat} {stage : Stage}, stored.stages[position]? = some stage →
    ∃ condensed, surface.stages[position]? = some condensed ∧
      condensed.pipeline = stage.pipeline ∧
      (∀ name, condensed.aliasName = some name ↔
        name ≠ stageId position ∧ stored.Uses (.stage name (stageId position))) ∧
      ∀ {input binding}, stage.primary? = some input → stored.Stands position input binding →
        (binding.Implied surface.inputs stage.pipeline position ∧ condensed.inputName = none) ∨
          (¬ binding.Implied surface.inputs stage.pipeline position ∧
            condensed.inputName = some binding.name)

theorem Orderly.recovers (h : stored.Orderly) {surface : Surface.Query}
    (hcondense : stored.condense = .ok surface) : Recovers stored surface := by
  obtain ⟨-, hdatasets, -, -⟩ := condense_eq_ok_iff.1 hcondense
  obtain ⟨declared, hdeclared, hentries⟩ := h.exists_datasetsOf
  cases hdatasets.symm.trans hdeclared
  refine ⟨hentries, length_of_condense hcondense, fun {position stage} hstage => ?_⟩
  have hcondensed : surface.stages[position]? = _ := getElem?_of_condense hcondense
  rw [hstage, Option.map_some] at hcondensed
  refine ⟨_, hcondensed, rfl, fun name => h.aliasOf?_eq_some_iff hstage, ?_⟩
  intro input binding hprimary hstands
  have hinput : input ∈ stage.inputs := List.mem_of_mem_head? hprimary
  have himplied := h.isImplied_iff hentries hstage hinput hstands stage.pipeline
  rw [← himplied, condenseStage, hprimary]
  by_cases hcase : isImplied surface.inputs (aliasesOf stored.stages)
    (beforeAt stored.stages position) input stage.pipeline = true
  · exact .inl ⟨hcase, if_pos hcase⟩
  · exact .inr ⟨hcase, by rw [← hstands.name_eq]; exact if_neg hcase⟩

/-- There is one reading of a stored query in order. -/
theorem Recovers.unique (horderly : stored.Orderly) {surface surface' : Surface.Query}
    (h : Recovers stored surface) (h' : Recovers stored surface') : surface = surface' := by
  have hinputs : surface.inputs = surface'.inputs :=
    Inputs.ext_entries fun entry => (h.inputs _ _).trans (h'.inputs _ _).symm
  refine Surface.Query.ext hinputs (eq_of_getElem?_eq h.length h'.length ?_)
  intro position stage hstage
  obtain ⟨⟨_, _, _⟩, hcondensed, rfl, halias, hname⟩ := h.stages hstage
  obtain ⟨⟨_, _, _⟩, hcondensed', rfl, halias', hname'⟩ := h'.stages hstage
  obtain ⟨input, hprimary, hinput⟩ := horderly.shaped.exists_primary hstage
  obtain ⟨binding, hstands⟩ := horderly.stands hstage input hinput
  have hname := hname hprimary hstands
  have hname' := hname' hprimary hstands
  rw [← hinputs] at hname'
  rw [hcondensed, hcondensed', Option.some.injEq, Surface.Stage.mk.injEq]
  refine ⟨Option.ext fun name => (halias name).trans (halias' name).symm, ?_, rfl⟩
  rcases hname with ⟨himplied, hnone⟩ | ⟨hnot, hsome⟩
  · exact hnone.trans (hname'.resolve_right fun hnot => hnot.1 himplied).2.symm
  · exact hsome.trans (hname'.resolve_left fun himplied => hnot himplied.1).2.symm

/-- **A stored query in order is condensed.** -/
theorem Orderly.exists_condense (h : stored.Orderly) :
    ∃ surface, stored.condense = .ok surface := by
  obtain ⟨declared, hdeclared, hentries⟩ := h.exists_datasetsOf
  refine ⟨⟨declared, condenseFrom declared (aliasesOf stored.stages) none 0 stored.stages⟩,
    condense_eq_ok_iff.2 ⟨h.shaped, hdeclared, ?_, rfl⟩⟩
  -- the first stage starts from a dataset, so something is declared
  obtain ⟨first, hfirst⟩ : ∃ first, stored.stages[0]? = some first := by
    cases hstages : stored.stages with
    | nil => exact absurd h.shaped.output (by simp [hstages])
    | cons first rest => exact ⟨first, rfl⟩
  obtain ⟨input, -, hinput⟩ := h.shaped.exists_primary hfirst
  obtain ⟨binding, hstands⟩ := h.stands hfirst input hinput
  obtain ⟨id, rfl⟩ := hstands.exists_dataset
  have hentry := (hentries _ _).2 (uses_of_stands hfirst hinput hstands)
  exact List.ne_nil_of_mem hentry

end Backend.Query

end StagedQuery
