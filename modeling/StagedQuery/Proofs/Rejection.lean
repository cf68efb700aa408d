/-
StagedQuery/Proofs/Rejection.lean

Why a stored query is not condensed, and what is kept of one that is.

Seven things can be wrong with a stored query, and it is refused for the first of them,
whatever else is wrong with it (`reasons`).  Four are about the stages and the output, two
about the names of datasets, and the last is that there is no dataset.  Where several
places give the same reason, the first of them tells the fault, so two orders meet: a
name with two datasets is reported before any dataset's name that an input for a stage
has, wherever the two stand.  An input that has a dataset and a stage counts for both.

The three scans that condensing goes through are described one by one, each by the
reasons that it looks for:

    shapeFault?      Stageless, RepeatsId, EndsElsewhere, LacksInput
    datasetsOf       NamesTwoDatasets, NamesStageToo
    condense         all of these, then LacksDataset

Main statement: `condense_outcome`.
-/
import StagedQuery.Proofs.FirstFault
import StagedQuery.Proofs.Naming

namespace StagedQuery

open Backend

namespace Backend.Query

/-! ### The reasons -/

/-- There is no stage. -/
def Stageless (stored : Query) (fault : Fault) : Prop :=
  stored.stages = [] ∧ fault = .noStages

/-- A stage has the id of one before it. -/
def RepeatsId (stored : Query) : Fault → Prop :=
  FirstFault
    (fun position stage fault =>
      stage.id ∈ (stored.stages.take position).map (·.id) ∧ fault = .repeatedStage stage.id)
    stored.stages

/-- The output is not the last stage. -/
def EndsElsewhere (stored : Query) (fault : Fault) : Prop :=
  ∃ last, stored.stages.getLast? = some last ∧ stored.output ≠ last.id ∧
    fault = .outputNotLast stored.output last.id

/-- A stage has no inputs. -/
def LacksInput (stored : Query) : Fault → Prop :=
  FirstFault (fun position stage fault => stage.inputs = [] ∧ fault = .noInput position)
    stored.stages

/-- An input is a dataset, and one of its name before it is another. -/
def NamesTwoDatasets (stored : Query) : Fault → Prop :=
  FirstFault
    (fun index input fault =>
      (∃ id, input.datasetId = some id ∧ ∃ bound ≠ id,
        ∃ earlier ∈ (allInputs stored.stages).take index,
          earlier.name = input.name ∧ earlier.datasetId = some bound) ∧
        fault = .nameTaken input.name)
    (allInputs stored.stages)

/-- An input is for a stage, and one of its name, before it or behind, is a dataset. -/
def NamesStageToo (stored : Query) : Fault → Prop :=
  FirstFault
    (fun _ input fault =>
      (input.stageId.isSome = true ∧ ∃ id, stored.Refers input.name (.dataset id)) ∧
        fault = .nameTaken input.name)
    (allInputs stored.stages)

/-- No input is a dataset. -/
def LacksDataset (stored : Query) (fault : Fault) : Prop :=
  (∀ input ∈ allInputs stored.stages, input.datasetId = none) ∧ fault = .noInputs

/-- What is looked at, in order. -/
def reasons (stored : Query) : List (Fault → Prop) :=
  [stored.Stageless, stored.RepeatsId, stored.EndsElsewhere, stored.LacksInput,
    stored.NamesTwoDatasets, stored.NamesStageToo, stored.LacksDataset]

/-- Why a query is not condensed: the first reason that applies. -/
def Rejected (stored : Query) : Fault → Prop :=
  FirstOf stored.reasons

end Backend.Query

/-! ### The shape -/

section Shape

variable {stages : List Stage} {fault : Fault}

theorem repeatedId?_eq_some_iff {seen : List String} :
    (repeatedId? seen stages).map .repeatedStage = some fault ↔
      FirstFault
        (fun position stage any =>
          (stage.id ∈ seen ∨ stage.id ∈ (stages.take position).map (·.id)) ∧
            any = .repeatedStage stage.id)
        stages fault := by
  induction stages generalizing seen with
  | nil => simp [repeatedId?, not_firstFault_nil]
  | cons stage rest ih =>
    rw [repeatedId?, firstFault_cons_iff]
    by_cases hseen : stage.id ∈ seen
    · simp [hseen, eq_comm]
    · -- the stages behind have this id, too, among those before them
      simp only [hseen, if_false, ih, List.take_zero, List.map_nil, List.not_mem_nil, or_self,
        false_and, not_false_eq_true, implies_true, true_and, false_or, List.take_succ_cons,
        List.map_cons, List.mem_cons, or_assoc, or_left_comm]

theorem inputlessStage?_eq_some_iff :
    (inputlessStage? stages).map .noInput = some fault ↔
      FirstFault (fun position stage any => stage.inputs = [] ∧ any = .noInput position)
        stages fault := by
  have hfirst := firstFault_iff_findIdx? stages (·.inputs.isEmpty)
    (fun position _ => .noInput position) fault
  simp only [List.isEmpty_iff] at hfirst
  rw [hfirst, inputlessStage?, Option.map_eq_some_iff]
  constructor
  · rintro ⟨position, hposition, rfl⟩
    obtain ⟨hlt, -⟩ := List.findIdx?_eq_some_iff_getElem.1 hposition
    exact ⟨position, _, hposition, List.getElem?_eq_getElem hlt, rfl⟩
  · rintro ⟨position, _, hposition, -, rfl⟩
    exact ⟨position, hposition, rfl⟩

/-- What is wrong with the shape of a query: the first of the reasons about it. -/
theorem Backend.Query.shapeFault?_eq_some_iff {stored : Query} :
    stored.shapeFault? = some fault ↔
      FirstOf [stored.Stageless, stored.RepeatsId, stored.EndsElsewhere, stored.LacksInput]
        fault := by
  have hrepeats : ∀ any, stored.RepeatsId any ↔
      (repeatedId? [] stored.stages).map .repeatedStage = some any := by
    intro any
    rw [repeatedId?_eq_some_iff]
    simp only [List.not_mem_nil, false_or]
    exact Iff.rfl
  have hlacks : ∀ any, stored.LacksInput any ↔
      (inputlessStage? stored.stages).map .noInput = some any :=
    fun any => inputlessStage?_eq_some_iff.symm
  simp only [firstOf_cons_iff, not_firstOf_nil, and_false, or_false, hrepeats, hlacks]
  rw [shapeFault?]
  cases hlast : stored.stages.getLast? with
  | none =>
    have hstages := List.getLast?_eq_none_iff.1 hlast
    simp [Stageless, hstages, eq_comm]
  | some last =>
    have hstages : stored.stages ≠ [] := fun hempty => by simp [hempty] at hlast
    cases repeatedId? [] stored.stages with
    | some id => simp [Stageless, hstages]
    | none =>
      have hends : ∀ any, stored.EndsElsewhere any ↔
          stored.output ≠ last.id ∧ any = .outputNotLast stored.output last.id := by
        simp [EndsElsewhere, hlast]
      by_cases houtput : stored.output = last.id
      · simp [Stageless, hstages, hends, houtput]
      · simp [Stageless, hstages, hends, houtput, eq_comm]

end Shape

/-! ### The names of datasets -/

section Names

variable {inputs : List Input} {declared : Inputs} {fault : Fault}

/-- The name of a dataset is declared already, or by an input before it, as another. -/
def Redeclares (declared : Inputs) (inputs : List Input) (index : Nat) (input : Input)
    (fault : Fault) : Prop :=
  (∃ id, input.datasetId = some id ∧ ∃ bound ≠ id,
    (input.name, bound) ∈ declared.entries ∨
      (input.name, bound) ∈ (inputs.take index).filterMap Input.dataset?) ∧
    fault = .nameTaken input.name

/-- Behind an input, what it declares counts as declared. -/
theorem redeclares_succ_iff {joined : Inputs} {input other : Input} {index : Nat}
    (hjoined : ∀ entry, entry ∈ joined.entries ↔
      entry ∈ declared.entries ∨ input.dataset? = some entry) :
    Redeclares declared (input :: inputs) (index + 1) other fault ↔
      Redeclares joined inputs index other fault := by
  simp only [Redeclares, hjoined, List.take_succ_cons, List.mem_filterMap, List.mem_cons,
    exists_eq_or_imp, or_assoc]

/-- Declaring datasets fails with the first that is declared as another. -/
theorem declareDatasets_eq_error_iff :
    declareDatasets declared inputs = .error fault ↔
      FirstFault (Redeclares declared inputs) inputs fault := by
  induction inputs generalizing declared with
  | nil => simp [declareDatasets, not_firstFault_nil]
  | cons input rest ih =>
    -- unless the input is refused, the rest is declared on what it joins
    have hrest : ∀ joined : Inputs, (∀ entry, entry ∈ joined.entries ↔
        entry ∈ declared.entries ∨ input.dataset? = some entry) →
          (declareDatasets joined rest = .error fault ↔
            FirstFault (fun index => Redeclares declared (input :: rest) (index + 1)) rest
              fault) := by
      intro joined hjoined
      rw [ih]
      exact firstFault_congr fun _ _ _ => (redeclares_succ_iff hjoined).symm
    rw [declareDatasets, firstFault_cons_iff]
    cases hid : input.datasetId with
    | none =>
      have hnone : input.dataset? = none := by simp [Input.dataset?, hid]
      have hjoined := hrest declared (by simp [hnone])
      simp [hjoined, Redeclares, hid]
    | some id =>
      have hsome : input.dataset? = some (input.name, id) := by simp [Input.dataset?, hid]
      cases hbound : declared.get? input.name with
      | none =>
        have hfree := Inputs.get?_eq_none_iff.1 hbound
        have hjoined := hrest (declared.insert input.name id) fun entry => by
          rw [Inputs.mem_insert_of_get?_eq_none hbound, hsome, Option.some.injEq, or_comm,
            eq_comm]
        simp [hjoined, Redeclares, hid, hfree]
      | some bound =>
        have hentry := Inputs.get?_eq_some_iff.1 hbound
        have hunique : ∀ other, (input.name, other) ∈ declared.entries ↔ other = bound :=
          fun other => ⟨fun h => Inputs.reference_unique h hentry, fun h => h ▸ hentry⟩
        by_cases hsame : bound = id
        · -- declared once more as the same, it joins nothing new
          subst hsame
          have hjoined := hrest declared fun entry => by
            rw [hsome, Option.some.injEq]
            exact ⟨.inl, fun h => h.elim id fun h => h ▸ hentry⟩
          simp [hjoined, Redeclares, hid, hunique]
        · simp [Redeclares, hid, hunique, hsame, eq_comm]

theorem sharedName?_eq_some_iff :
    (sharedName? declared inputs).map .nameTaken = some fault ↔
      FirstFault
        (fun _ input any =>
          (input.stageId.isSome = true ∧ ∃ id, (input.name, id) ∈ declared.entries) ∧
            any = .nameTaken input.name)
        inputs fault := by
  have hfirst := firstFault_iff_findIdx? inputs
    (fun input => input.stageId.isSome && declared.contains input.name)
    (fun _ input => .nameTaken input.name) fault
  simp only [Bool.and_eq_true, Inputs.contains_iff] at hfirst
  rw [hfirst, sharedName?, Option.map_map, Option.map_eq_some_iff,
    List.find?_eq_bind_findIdx?_getElem?]
  simp only [Option.bind_eq_some_iff, Function.comp_apply]
  constructor
  · rintro ⟨input, ⟨index, hindex, hinput⟩, rfl⟩
    exact ⟨index, input, hindex, hinput, rfl⟩
  · rintro ⟨index, input, hindex, hinput, rfl⟩
    exact ⟨input, ⟨index, hindex, hinput⟩, rfl⟩

/-- What is wrong with the names of datasets: the first of the reasons about them. -/
theorem Backend.Query.datasetsOf_eq_error_iff {stored : Query} :
    datasetsOf stored.stages = .error fault ↔
      FirstOf [stored.NamesTwoDatasets, stored.NamesStageToo] fault := by
  have htwo : ∀ any, stored.NamesTwoDatasets any ↔
      declareDatasets .empty (allInputs stored.stages) = .error any := by
    intro any
    rw [declareDatasets_eq_error_iff]
    refine firstFault_congr fun index input any => and_congr_left fun _ => ?_
    simp only [Inputs.empty, List.not_mem_nil, false_or, List.mem_filterMap,
      Input.dataset?_eq_some_iff]
  simp only [firstOf_cons_iff, not_firstOf_nil, and_false, or_false, htwo]
  rw [datasetsOf]
  cases hdeclared : declareDatasets .empty (allInputs stored.stages) with
  | error any => simp
  | ok declared =>
    -- the second scan asks for what the first has declared from all stages
    have hentries : ∀ name id, (name, id) ∈ declared.entries ↔
        stored.Refers name (.dataset id) := by
      intro name id
      rw [declareDatasets_eq_ok_iff.1 hdeclared, mem_filterMap_dataset?_iff]
      simp [Inputs.empty]
    have hstage : ∀ any, stored.NamesStageToo any ↔
        (sharedName? declared (allInputs stored.stages)).map .nameTaken = some any := by
      intro any
      simp only [sharedName?_eq_some_iff, hentries]
      exact Iff.rfl
    simp only [hstage]
    cases sharedName? declared (allInputs stored.stages) <;> simp

end Names

/-! ### The whole query -/

namespace Backend.Query

variable {stored : Query} {surface : Surface.Query} {fault : Fault}

theorem lacksDataset_iff {declared : Inputs} (h : datasetsOf stored.stages = .ok declared) :
    stored.LacksDataset fault ↔ declared.isEmpty = true ∧ fault = .noInputs := by
  refine and_congr_left fun _ => ?_
  rw [Inputs.isEmpty, List.isEmpty_iff, List.eq_nil_iff_forall_not_mem]
  simp only [(datasetsOf_eq_ok_iff.1 h).1]
  rw [← List.eq_nil_iff_forall_not_mem, List.filterMap_eq_nil_iff]
  simp only [Input.dataset?, Option.map_eq_none_iff]

/-- **Why a stored query is not condensed.** -/
theorem condense_eq_error_iff : stored.condense = .error fault ↔ stored.Rejected fault := by
  have hreasons : stored.reasons =
      [stored.Stageless, stored.RepeatsId, stored.EndsElsewhere, stored.LacksInput] ++
        ([stored.NamesTwoDatasets, stored.NamesStageToo] ++ [stored.LacksDataset]) := rfl
  simp only [Rejected, hreasons, firstOf_append_iff, ← shapeFault?_eq_some_iff,
    ← datasetsOf_eq_error_iff]
  rw [condense]
  cases stored.shapeFault? with
  | some any => simp
  | none =>
    cases hdatasets : datasetsOf stored.stages with
    | error any => simp
    | ok declared =>
      simp only [firstOf_cons_iff, not_firstOf_nil, and_false, or_false,
        lacksDataset_iff hdatasets]
      cases declared.isEmpty <;> simp [eq_comm]

/-- A condensed query has the bodies of the stored one. -/
theorem pipelines_of_condense (h : stored.condense = .ok surface) :
    surface.stages.map (·.pipeline) = stored.stages.map (·.pipeline) := by
  apply List.ext_getElem?
  intro position
  rw [List.getElem?_map, List.getElem?_map, getElem?_of_condense h, Option.map_map]
  rfl

end Backend.Query

/-- **When a stored query is not condensed, with which fault, and what is kept of one
that is**: the fault is that of the first reason that applies; where none does, the query
is condensed with a stage for each of its stages, their bodies in order, and declares
just the names of its datasets. -/
theorem condense_outcome (stored : Backend.Query) :
    (∀ fault, stored.condense = .error fault ↔ stored.Rejected fault) ∧
      ((∀ fault, ¬ stored.Rejected fault) →
        ∃ surface, stored.condense = .ok surface ∧
          surface.stages.length = stored.stages.length ∧
          surface.stages.map (·.pipeline) = stored.stages.map (·.pipeline) ∧
          ∀ name id, surface.inputs.get? name = some id ↔ stored.Refers name (.dataset id)) := by
  refine ⟨fun fault => Backend.Query.condense_eq_error_iff, fun hnone => ?_⟩
  cases hcondense : stored.condense with
  | error fault => exact absurd (Backend.Query.condense_eq_error_iff.1 hcondense) (hnone fault)
  | ok surface =>
    refine ⟨surface, rfl, Backend.Query.length_of_condense hcondense,
      Backend.Query.pipelines_of_condense hcondense, fun name id => ?_⟩
    rw [Inputs.get?_eq_some_iff, Backend.Query.mem_inputs_iff hcondense]

/-- A stage calls the stage before it by the name of a dataset, and then two datasets by
one name. -/
def crossed : Backend.Query where
  output := "b"
  stages :=
    [⟨"a", "filter true", [.dataset "x" "1"]⟩,
      ⟨"b", "join @x", [.ofStage "x" "a", .dataset "y" "2", .dataset "y" "3"]⟩]

/-- It is refused for the two datasets, not for the stage before them; and nothing is
wrong with the expanded example. -/
theorem crossed_outcome :
    crossed.Rejected (.nameTaken "y") ∧ ¬ crossed.Rejected (.nameTaken "x") ∧
      (∀ fault, ¬ joinedStored.Rejected fault) ∧
      ∃ surface, joinedStored.condense = .ok surface ∧
        ∀ name id, surface.inputs.get? name = some id ↔ joinedStored.Refers name (.dataset id) := by
  have hcrossed : crossed.condense = .error (.nameTaken "y") := by decide +kernel
  have hjoined : ∀ fault, ¬ joinedStored.Rejected fault := fun fault hrejected => by
    cases condense_joinedStored.symm.trans
      (((condense_outcome joinedStored).1 fault).2 hrejected)
  refine ⟨((condense_outcome crossed).1 _).1 hcrossed, fun hrejected => ?_, hjoined, ?_⟩
  · have hother := ((condense_outcome crossed).1 _).2 hrejected
    rw [hcrossed] at hother
    exact absurd hother (by decide)
  · obtain ⟨surface, hcondense, -, -, hinputs⟩ := (condense_outcome joinedStored).2 hjoined
    exact ⟨surface, hcondense, hinputs⟩

end StagedQuery
