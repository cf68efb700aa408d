/-
StagedQuery/Proofs/ImpliedInput.lean

Writing out an input that the place of a stage implies.

A stage that names no input starts from what is passed on to it.  That binding is in
scope, so the stage may as well name it: the output of the stage before it by its id, or
at first the only declared input.  Either way the stage starts from the very same
binding, and the outcome of the whole query is the same, expanded or refused.

The stage before may have an alias, too.  It stands for the same stage, but under
another name, and the name of the primary input is kept out of the supplemental ones.
Where the body mentions neither name, nothing was kept out,

    supplementalNames scope primary body = Text.mentioned body scope.sortedNames,

and the two outcomes differ in the name of that one input.

Both cases are about one stage, in whatever scope the run reaches it; `expandFrom_modify`
carries them to the run, and `expandWith_modifyStage` to the query.

Main statement: `expandWith_withInput`.
-/
import StagedQuery.Proofs.Cut
import StagedQuery.Proofs.Refusal

namespace StagedQuery

/-! ### One stage changed -/

namespace Surface.Query

/-- The query with the stage at a position changed. -/
def modifyStage (query : Query) (position : Nat) (change : Stage → Stage) : Query :=
  { query with stages := query.stages.modify position change }

/-- The query with the stage at a position started from a named input. -/
def withInput (query : Query) (position : Nat) (name : String) : Query :=
  query.modifyStage position (·.withInput name)

end Surface.Query

namespace Backend

/-- The stage with another name for its primary input. -/
def Stage.renamePrimary (stage : Stage) (name : String) : Stage :=
  { stage with inputs := stage.inputs.modifyHead fun primary => { primary with name } }

/-- The query with the stage at a position changed. -/
def Query.modifyStage (query : Query) (position : Nat) (change : Stage → Stage) : Query :=
  { query with stages := query.stages.modify position change }

/-- The query with another name for the primary input of the stage at a position. -/
def Query.renamePrimary (query : Query) (position : Nat) (name : String) : Query :=
  query.modifyStage position (·.renamePrimary name)

end Backend

/-! ### The stage -/

section Stage

variable {scope : Scope} {position : Nat} {stage : Surface.Stage} {name origin body : String}
  {primary binding : Binding}

/-- A stage that names no input starts from what is passed on. -/
theorem primaryOf_passed (hinput : stage.inputName = none) :
    primaryOf scope (some binding) position stage =
      if Text.allBlank stage.pipeline then .error (.blankBody position) else .ok binding := by
  rw [primaryOf, hinput]

/-- A stage that names an input in scope starts from that. -/
theorem primaryOf_withInput {passed : Option Binding} (hresolve : scope.resolve name = some binding) :
    primaryOf scope passed position (stage.withInput name) =
      if Text.allBlank stage.pipeline then .error (.blankBody position) else .ok binding := by
  simp only [primaryOf, Surface.Stage.withInput, hresolve]

/-- Naming what is passed on changes nothing. -/
theorem expandStage_withInput (hinput : stage.inputName = none)
    (hresolve : scope.resolve name = some binding) :
    expandStage scope (some binding) position (stage.withInput name) =
      expandStage scope (some binding) position stage := by
  rw [expandStage, expandStage, primaryOf_withInput hresolve, primaryOf_passed hinput]
  rfl

/-- A body that does not mention the primary input has nothing kept out; nor has any
body where its name is empty. -/
theorem supplementalNames_eq_mentioned
    (h : primary.name = "" ∨ Text.mentions body primary.name = false) :
    supplementalNames scope primary body = Text.mentioned body scope.sortedNames := by
  rw [supplementalNames, Text.mentioned, Text.mentioned, List.filter_filter]
  apply List.filter_congr
  intro other _
  by_cases hother : other = primary.name
  · rcases h with hempty | hunmentioned
    · simp [hother, hempty]
    · simp [hother, hunmentioned]
  · simp [hother]

/-- Under another name for its primary input, a body that mentions neither has the same
inputs behind it. -/
theorem inputsOf_stage (hname : name = "" ∨ Text.mentions body name = false)
    (horigin : Text.mentions body origin = false) :
    inputsOf scope (.stage name origin) body =
      (inputsOf scope (.ownId origin) body).modifyHead fun primary => { primary with name } := by
  have hnames : supplementalNames scope (.stage name origin) body =
      supplementalNames scope (.ownId origin) body :=
    (supplementalNames_eq_mentioned hname).trans (supplementalNames_eq_mentioned (.inr horigin)).symm
  rw [inputsOf, inputsOf, hnames]
  rfl

/-- Naming the stage before by its alias gives the primary input that name. -/
theorem expandStage_withInput_alias (hinput : stage.inputName = none)
    (hresolve : scope.resolve name = some (.stage name origin))
    (hname : name = "" ∨ Text.mentions stage.pipeline name = false)
    (horigin : Text.mentions stage.pipeline origin = false) :
    expandStage scope (passedOn origin) position (stage.withInput name) =
      ((expandStage scope (passedOn origin) position stage).1.map (·.renamePrimary name),
        (expandStage scope (passedOn origin) position stage).2) := by
  rw [expandStage, expandStage, primaryOf_withInput hresolve, passedOn, primaryOf_passed hinput]
  by_cases hblank : Text.allBlank stage.pipeline = true
  · rw [if_pos hblank, if_pos hblank]
    rfl
  · rw [if_neg hblank, if_neg hblank]
    have halias : (stage.withInput name).aliasName = stage.aliasName := rfl
    have hinputs : inputsOf scope (.stage name origin) (stage.withInput name).pipeline = _ :=
      inputsOf_stage hname horigin
    simp only [halias, hinputs]
    rcases bindStage scope (stageId position) stage.aliasName with ⟨fault | _, behind⟩ <;> rfl

end Stage

/-! ### The run -/

section Run

variable {scope : Scope} {visible : List Binding} {passed : Option Binding} {start index : Nat}
  {stages : List Surface.Stage} {change : Surface.Stage → Surface.Stage}
  {change' : Backend.Stage → Backend.Stage}

/-- **A run with one stage changed** has its outcome changed at that stage only, where the
change leaves the id and what the stage binds. -/
theorem expandFrom_modify (hid : ∀ expanded, (change' expanded).id = expanded.id)
    (hscope : scope.Holds visible)
    (hstep : ∀ stage scope', stages[index]? = some stage →
      scope'.Holds (visible ++ boundFrom start (stages.take index)) →
        expandStage scope' (passedTo passed start index) (start + index) (change stage) =
          ((expandStage scope' (passedTo passed start index) (start + index) stage).1.map change',
            (expandStage scope' (passedTo passed start index) (start + index) stage).2)) :
    expandFrom scope passed start (stages.modify index change) =
      (expandFrom scope passed start stages).map (·.modify index change') := by
  induction stages generalizing scope visible passed start index with
  | nil =>
    rw [List.modify_nil, expandFrom]
    simp [Except.map]
  | cons stage rest ih =>
    rcases hexpand : expandStage scope passed start stage with ⟨fault | expanded, behind⟩
    · have hfails := congrArg Prod.fst hexpand
      rw [expandFrom_cons_of_error hfails]
      cases index with
      | zero =>
        have hstage := hstep stage scope rfl (by simpa [boundFrom] using hscope)
        simp only [passedTo, Nat.add_zero, hexpand] at hstage
        exact expandFrom_cons_of_error (congrArg Prod.fst hstage)
      | succ index => exact expandFrom_cons_of_error hfails
    · rw [expandFrom_cons_of_ok hexpand]
      cases index with
      | zero =>
        have hstage := hstep stage scope rfl (by simpa [boundFrom] using hscope)
        simp only [passedTo, Nat.add_zero, hexpand] at hstage
        have hchanged : expandStage scope passed start (change stage) =
            (.ok (change' expanded), behind) := hstage
        rw [List.modify_zero_cons, expandFrom_cons_of_ok hchanged, hid]
        cases expandFrom behind (passedOn expanded.id) (start + 1) rest <;> rfl
      | succ index =>
        -- the rest runs behind the stage, whose names join what was visible
        obtain ⟨hown, hbehind⟩ := holds_of_expandStage hscope hexpand
        rw [List.modify_succ_cons, expandFrom_cons_of_ok hexpand, ih hbehind]
        · cases expandFrom behind (passedOn expanded.id) (start + 1) rest <;> rfl
        · intro stage' scope' hstage' hscope'
          have hnext := hstep stage' scope' hstage' (by
            rwa [List.take_succ_cons, boundFrom, ← List.append_assoc])
          rwa [hown, passedTo_passedOn, Nat.add_assoc, Nat.add_comm 1]

end Run

/-! ### The query -/

namespace Surface.Query

variable {query : Query} {validate : Validator} {position previous : Nat} {stage before : Stage}
  {name : String}

/-- **A query with one stage changed**, likewise. -/
theorem expandWith_modifyStage {change : Stage → Stage} (change' : Backend.Stage → Backend.Stage)
    (hid : ∀ expanded, (change' expanded).id = expanded.id)
    (hstep : query.inputs.Proper validate → ∀ stage scope, query.stages[position]? = some stage →
      scope.Holds (query.visible validate position) →
        expandStage scope (query.passed validate position) position (change stage) =
          ((expandStage scope (query.passed validate position) position stage).1.map change',
            (expandStage scope (query.passed validate position) position stage).2)) :
    (query.modifyStage position change).expandWith validate =
      (query.expandWith validate).map (·.modifyStage position change') := by
  cases hscope : query.inputs.scope validate with
  | error fault =>
    have hscope' : (query.modifyStage position change).inputs.scope validate = .error fault := hscope
    rw [expandWith, expandWith, hscope, hscope']
    rfl
  | ok scope =>
    obtain ⟨hproper, rfl⟩ := Inputs.scope_eq_ok_iff.1 hscope
    have hrun : expandFrom ⟨query.inputs.bound validate⟩
        (Scope.mk (query.inputs.bound validate)).only? 0 (query.stages.modify position change) =
          (expandFrom ⟨query.inputs.bound validate⟩
            (Scope.mk (query.inputs.bound validate)).only? 0 query.stages).map
              (·.modify position change') := by
      apply expandFrom_modify hid Inputs.holds_bound
      intro stage scope hstage hscope
      rw [Nat.zero_add]
      exact hstep hproper stage scope hstage hscope
    have hscope' : (query.modifyStage position change).inputs.scope validate =
        .ok ⟨query.inputs.bound validate⟩ := hscope
    by_cases hempty : query.stages = []
    · have hempty' : (query.modifyStage position change).stages = [] := by
        rw [modifyStage, hempty, List.modify_nil]
      rw [expandWith, expandWith, hscope, hscope']
      simp [expandIn, hempty, hempty', Except.map]
    · have hnonempty : (query.modifyStage position change).stages ≠ [] := by
        simpa [modifyStage] using hempty
      rw [expandWith_eq_map hscope hempty, expandWith_eq_map hscope' hnonempty]
      simp only [modifyStage, hrun]
      cases expandFrom ⟨query.inputs.bound validate⟩
        (Scope.mk (query.inputs.bound validate)).only? 0 query.stages with
      | error fault => rfl
      | ok stages => simp [Except.map, Backend.Query.modifyStage]

/-- Naming what is passed on to a stage changes nothing, expanded or refused. -/
theorem expandWith_withInput_passed (hstage : query.stages[position]? = some stage)
    (hinput : stage.inputName = none)
    (hpassed : query.inputs.Proper validate →
      ∃ binding, query.passed validate position = some binding ∧ binding.name = name) :
    (query.withInput position name).expandWith validate = query.expandWith validate := by
  obtain ⟨hlt, -⟩ := List.getElem?_eq_some_iff.1 hstage
  rw [withInput, expandWith_modifyStage id fun _ => rfl]
  · cases query.expandWith validate <;> simp [Except.map, Backend.Query.modifyStage]
  · intro hproper stage' scope hstage' hscope
    cases hstage.symm.trans hstage'
    obtain ⟨binding, hbinding, rfl⟩ := hpassed hproper
    -- what is passed on is in scope
    have hvisible := mem_visible_of_passed (Nat.le_of_lt hlt) hbinding
    have hresolve := hscope.resolve_eq_some_iff.2 ⟨hvisible, rfl⟩
    rw [hbinding, expandStage_withInput hinput hresolve]
    rcases expandStage scope (some binding) position stage with ⟨_ | _, _⟩ <;> rfl

/-- Naming the stage before by its alias renames the primary input. -/
theorem expandWith_withInput_alias (hbefore : query.stages[previous]? = some before)
    (halias : before.aliasName = some name) (hstage : query.stages[previous + 1]? = some stage)
    (hinput : stage.inputName = none)
    (hname : name = "" ∨ Text.mentions stage.pipeline name = false)
    (hid : Text.mentions stage.pipeline (stageId previous) = false) :
    (query.withInput (previous + 1) name).expandWith validate =
      (query.expandWith validate).map (·.renamePrimary (previous + 1) name) := by
  apply expandWith_modifyStage (·.renamePrimary name) fun _ => rfl
  intro _ stage' scope hstage' hscope
  cases hstage.symm.trans hstage'
  have hvisible : .stage name (stageId previous) ∈ query.visible validate (previous + 1) :=
    mem_visible_stage.2 ⟨previous, Nat.lt_succ_self previous, before, hbefore, rfl, .inr halias⟩
  rw [passed_succ]
  exact expandStage_withInput_alias hinput (hscope.resolve_eq_some_iff.2 ⟨hvisible, rfl⟩) hname hid

end Surface.Query

/-- **Writing out an implied input changes nothing.**  A stage without an explicit input
may name the stage before it by its id, and the first one the only declared input; the
query has the same outcome, expanded or refused.  It may name the stage before by its
alias, too, where its body mentions neither that nor the id (the empty name is never
mentioned); the outcome is then the same but for the name of its primary input, which is
the alias. -/
theorem expandWith_withInput (query : Surface.Query) (validate : Validator) :
    (∀ previous stage, query.stages[previous + 1]? = some stage → stage.inputName = none →
      (query.withInput (previous + 1) (stageId previous)).expandWith validate =
        query.expandWith validate) ∧
    (∀ stage name reference, query.stages[0]? = some stage → stage.inputName = none →
      query.inputs.entries = [(name, reference)] →
        (query.withInput 0 name).expandWith validate = query.expandWith validate) ∧
    ∀ previous before stage name, query.stages[previous]? = some before →
      before.aliasName = some name → query.stages[previous + 1]? = some stage →
        stage.inputName = none → (name = "" ∨ Text.mentions stage.pipeline name = false) →
          Text.mentions stage.pipeline (stageId previous) = false →
            (query.withInput (previous + 1) name).expandWith validate =
              (query.expandWith validate).map (·.renamePrimary (previous + 1) name) := by
  refine ⟨?_, ?_, ?_⟩
  · intro previous stage hstage hinput
    exact Surface.Query.expandWith_withInput_passed hstage hinput fun _ =>
      ⟨_, Surface.Query.passed_succ query validate previous, rfl⟩
  · intro stage name reference hstage hinput hentries
    refine Surface.Query.expandWith_withInput_passed hstage hinput fun hproper => ?_
    -- of inputs that can be declared, each is bound
    have haccepted := (hproper.declarable (name, reference) (by simp [hentries])).accepted
    obtain ⟨id, hid⟩ := Option.isSome_iff_exists.1 haccepted
    exact ⟨_, hproper.only?_eq_some_iff.2 ⟨name, reference, id, hentries, hid, rfl⟩, rfl⟩
  · intro previous before stage name hbefore halias hstage hinput hname hid
    exact Surface.Query.expandWith_withInput_alias hbefore halias hstage hinput hname hid

/-- The last stage of the condensed example may name the stage before it, the first stage
of a query that is refused its input, and the second stage of the example the first one
by its alias; the last gives the expanded example again. -/
theorem joinedCondensed_withInput :
    joinedCondensed.stages[2]? = some ⟨none, none, "join @base"⟩ ∧
      (joinedCondensed.withInput 2 "stage-1").expandWith Dataset.bareId? =
        joinedCondensed.expandWith Dataset.bareId? ∧
      shadowing.inputs.entries = [("in", "7")] ∧
      (shadowing.withInput 0 "in").expandWith Dataset.bareId? =
        shadowing.expandWith Dataset.bareId? ∧
      Text.mentions "sort time" "base" = false ∧ Text.mentions "sort time" "stage-0" = false ∧
      (joinedCondensed.withInput 1 "base").expandWith Dataset.bareId? = .ok joinedStored := by
  have hsecond : joinedCondensed.stages[1]? = some ⟨none, none, "sort time"⟩ := rfl
  have hbase : Text.mentions "sort time" "base" = false := by decide
  have hid : Text.mentions "sort time" "stage-0" = false := by decide
  have hexpand : (joinedCondensed.expandWith Dataset.bareId?).map (·.renamePrimary 1 "base") =
      .ok joinedStored := by
    simp only [Surface.Query.expandWith, Surface.Query.expandIn, joinedCondensed, expandFrom,
      expandStage, inputsOf, supplementalNames, sortedNames_eq_insertionSort]
    decide +kernel
  obtain ⟨hprevious, -, halias⟩ := expandWith_withInput joinedCondensed Dataset.bareId?
  obtain ⟨-, honly, -⟩ := expandWith_withInput shadowing Dataset.bareId?
  refine ⟨rfl, hprevious 1 _ rfl rfl, rfl, honly _ "in" "7" rfl rfl rfl, hbase, hid, ?_⟩
  exact (halias 0 _ _ "base" rfl rfl hsecond rfl (.inr hbase) hid).trans hexpand

end StagedQuery
