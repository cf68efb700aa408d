/-
StagedQuery/Proofs/Naming.lean

What the names of a stored query refer to.

A name refers to every dataset and every stage that some input of that name has
(`Backend.Query.Refers`); an input without either passes its name through and
adds nothing.  A surface query binds a name once, so a stored query is told by
one only where each name refers to one thing.

Condensing sees to this in two scans, both on behalf of datasets: the first
refuses a name with two datasets, the second a dataset's name with a stage.  So a
dataset's name refers to nothing else, and a query is condensed where this is so
(`exists_condense_iff`).  No scan compares stages with stages.  A name with two
of them becomes the alias of whichever is referred to first, so that names have
one target each just where no name is one of two stages (`refers_unique_iff`).
-/
import StagedQuery.Proofs.Condensation
import StagedQuery.Proofs.Occurrence

namespace StagedQuery

open Backend

/-- The input has the target, alone or beside another. -/
def Backend.Input.RefersTo (input : Input) : Target → Prop
  | .dataset id => input.datasetId = some id
  | .stage id => input.stageId = some id

namespace Backend.Query

/-- Some input of that name has the target. -/
def Refers (stored : Query) (name : String) (target : Target) : Prop :=
  ∃ input ∈ allInputs stored.stages, input.name = name ∧ input.RefersTo target

variable {stored : Query} {surface : Surface.Query} {name id : String} {target : Target}
  {position : Nat} {stage : Stage} {input : Input}

theorem refers_of_mem (hstage : stored.stages[position]? = some stage)
    (hinput : input ∈ stage.inputs) (h : input.RefersTo target) :
    stored.Refers input.name target :=
  ⟨input, mem_allInputs.2 ⟨position, stage, hstage, hinput⟩, rfl, h⟩

/-- A name that is used for a dataset refers to it. -/
theorem refers_of_uses_dataset (h : stored.Uses (.dataset name id)) :
    stored.Refers name (.dataset id) :=
  ⟨_, uses_dataset_iff.1 h, rfl, rfl⟩

/-- A name that is used for a stage refers to it by its stored id. -/
theorem refers_of_uses_stage (hstage : stored.stages[position]? = some stage)
    (h : stored.Uses (.stage name (stageId position))) : stored.Refers name (.stage stage.id) := by
  obtain ⟨later, -, user, huser, hinput⟩ := (uses_stage_iff hstage).1 h
  exact refers_of_mem huser hinput rfl

/-! ### Names of datasets -/

theorem mem_filterMap_dataset?_iff {entry : String × String} :
    entry ∈ (allInputs stored.stages).filterMap Input.dataset? ↔
      stored.Refers entry.1 (.dataset entry.2) := by
  rw [List.mem_filterMap]
  simp only [Input.dataset?_eq_some_iff]
  exact Iff.rfl

/-- Declared are the names of datasets. -/
theorem mem_inputs_iff (hcondense : stored.condense = .ok surface) :
    (name, id) ∈ surface.inputs.entries ↔ stored.Refers name (.dataset id) := by
  have hscan := datasetsOf_eq_ok_iff.1 (condense_eq_ok_iff.1 hcondense).2.1
  exact (hscan.1 _).trans mem_filterMap_dataset?_iff

/-- The name of a dataset refers to nothing else. -/
theorem Refers.eq_dataset (h : stored.Refers name (.dataset id))
    (hcondense : stored.condense = .ok surface) (h' : stored.Refers name target) :
    target = .dataset id := by
  have hentry := (mem_inputs_iff hcondense).2 h
  cases target with
  | dataset other =>
    have hother := (mem_inputs_iff hcondense).2 h'
    rw [Inputs.reference_unique hother hentry]
  | stage other =>
    -- the second scan has refused such a name
    obtain ⟨input, hinput, rfl, hstage⟩ := h'
    have hsome : input.stageId.isSome = true := Option.isSome_of_eq_some hstage
    have hscan := datasetsOf_eq_ok_iff.1 (condense_eq_ok_iff.1 hcondense).2.1
    have hfree := hscan.2 input hinput hsome
    rw [Inputs.contains_iff.2 ⟨id, hentry⟩] at hfree
    cases hfree

/-- **Which names keep a query from being condensed**: it needs a dataset, and no
dataset's name may refer to anything else. -/
theorem exists_condense_iff (hshaped : stored.WellShaped) :
    (∃ surface, stored.condense = .ok surface) ↔
      (∃ name id, stored.Refers name (.dataset id)) ∧
        ∀ name id target, stored.Refers name (.dataset id) → stored.Refers name target →
          target = .dataset id := by
  constructor
  · rintro ⟨surface, hcondense⟩
    refine ⟨?_, fun name id target h h' => h.eq_dataset hcondense h'⟩
    obtain ⟨⟨name, id⟩, hentry⟩ :=
      List.exists_mem_of_ne_nil _ (condense_eq_ok_iff.1 hcondense).2.2.1
    exact ⟨name, id, (mem_inputs_iff hcondense).1 hentry⟩
  · rintro ⟨⟨name, id, hrefers⟩, hunique⟩
    obtain ⟨declared, hdeclared⟩ : ∃ declared : Inputs, ∀ entry, entry ∈ declared.entries ↔
        entry ∈ (allInputs stored.stages).filterMap Input.dataset? := by
      apply exists_inputs
      intro entry hentry other hother hname
      have hother' := mem_filterMap_dataset?_iff.1 hother
      rw [← hname] at hother'
      have hsame := hunique _ _ _ (mem_filterMap_dataset?_iff.1 hentry) hother'
      exact Prod.ext hname (Target.dataset.inj hsame).symm
    have hdatasets : datasetsOf stored.stages = .ok declared := by
      refine datasetsOf_eq_ok_iff.2 ⟨hdeclared, fun input hinput hsome => ?_⟩
      obtain ⟨stage, hstage⟩ := Option.isSome_iff_exists.1 hsome
      rw [Bool.eq_false_iff]
      intro hcontains
      obtain ⟨other, hother⟩ := Inputs.contains_iff.1 hcontains
      have hdataset := mem_filterMap_dataset?_iff.1 ((hdeclared _).1 hother)
      cases hunique _ _ (.stage stage) hdataset ⟨input, hinput, rfl, hstage⟩
    have hnonempty : declared.entries ≠ [] :=
      List.ne_nil_of_mem ((hdeclared (name, id)).2 (mem_filterMap_dataset?_iff.2 hrefers))
    exact ⟨⟨declared, condenseFrom declared (aliasesOf stored.stages) none 0 stored.stages⟩,
      condense_eq_ok_iff.2 ⟨hshaped, hdatasets, hnonempty, rfl⟩⟩

/-! ### All names -/

/-- **A name of a query that is condensed has one target unless it has two
stages.** -/
theorem refers_unique_iff (hcondense : stored.condense = .ok surface) (name : String) :
    (∀ target other, stored.Refers name target → stored.Refers name other → target = other) ↔
      ∀ id id', stored.Refers name (.stage id) → stored.Refers name (.stage id') → id = id' := by
  constructor
  · intro hunique id id' h h'
    exact Target.stage.inj (hunique _ _ h h')
  · intro hstages target other h h'
    cases target with
    | dataset id => exact (h.eq_dataset hcondense h').symm
    | stage id =>
      cases other with
      | dataset id' => exact h'.eq_dataset hcondense h
      | stage id' => exact congrArg Target.stage (hstages id id' h h')

/-- No name of the expanded example has two stages, so that each has one target. -/
theorem joinedStored_refers_unique :
    ∃ surface, joinedStored.condense = .ok surface ∧
      ∀ name target other, joinedStored.Refers name target → joinedStored.Refers name other →
        target = other := by
  have hstages : ∀ input ∈ allInputs joinedStored.stages,
      ∀ other ∈ allInputs joinedStored.stages, input.name = other.name →
        ∀ id ∈ input.stageId, ∀ id' ∈ other.stageId, id = id' := by
    decide +kernel
  refine ⟨_, condense_joinedStored,
    fun name => (refers_unique_iff condense_joinedStored name).2 ?_⟩
  rintro id id' ⟨input, hinput, rfl, hid⟩ ⟨other, hother, hname, hid'⟩
  exact hstages input hinput other hother hname.symm id hid id' hid'

/-- A query that calls its first stage by a name, and then its second by the same
one. -/
def doubled : Query where
  output := "c"
  stages :=
    [⟨"a", "filter true", [.dataset "in" "1"]⟩, ⟨"b", "make_col x:1", [.ofStage "x" "a"]⟩,
      ⟨"c", "pick_col x", [.ofStage "x" "b"]⟩]

/-- It is condensed, the name being the alias of the first stage and the explicit
input of the last. -/
theorem doubled_condensed :
    doubled.condense = .ok
        ⟨.ofList [("in", "1")],
          [⟨some "x", none, "filter true"⟩, ⟨none, none, "make_col x:1"⟩,
            ⟨none, some "x", "pick_col x"⟩]⟩ ∧
      doubled.Refers "x" (.stage "a") ∧ doubled.Refers "x" (.stage "b") := by
  refine ⟨by decide +kernel, ⟨.ofStage "x" "a", ?_, rfl, rfl⟩, ⟨.ofStage "x" "b", ?_, rfl, rfl⟩⟩
  · decide
  · decide

end Backend.Query

end StagedQuery
