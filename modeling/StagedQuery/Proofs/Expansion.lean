/-
StagedQuery/Proofs/Expansion.lean

What an expanded query says, without the run that made it.

Expansion carries a scope and a passed-on binding from stage to stage.  Neither
is needed to say what comes out: what is visible at a position is written down
from the declared inputs and the stages before it (`Surface.Query.visible`), and
what is passed on follows from the position (`Surface.Query.passed`).  A stage is
then described by itself: `Starts` says which binding is its primary input, and
`Expands` what the backend stage made of it looks like.

Main statements: `meaning_of_expandWith`, an expanded query is described stage by
stage in this way; `exists_expandWith`, a query expands where its inputs can be
declared, every stage has a body and a primary input, and no name gets two
targets.  One induction over the stages carries each of them, on the invariant
that the scope holds what was visible at first and what the stages so far bound.
-/
import StagedQuery.Proofs.Declaration
import StagedQuery.Proofs.StageInputs

namespace StagedQuery

/-! ### The names a stage binds -/

/-- What the stage at a position binds for those behind it: its id and its
alias. -/
def boundBy (position : Nat) (stage : Surface.Stage) : List Binding :=
  .ownId (stageId position) ::
    stage.aliasName.toList.map fun name => .stage name (stageId position)

/-- What stages bind from a position on. -/
def boundFrom (start : Nat) : List Surface.Stage → List Binding
  | [] => []
  | stage :: rest => boundBy start stage ++ boundFrom (start + 1) rest

theorem mem_boundBy {position : Nat} {stage : Surface.Stage} {binding : Binding} :
    binding ∈ boundBy position stage ↔
      binding = .ownId (stageId position) ∨
        ∃ name, stage.aliasName = some name ∧ binding = .stage name (stageId position) := by
  simp [boundBy, eq_comm]

theorem mem_boundFrom {start : Nat} {stages : List Surface.Stage} {binding : Binding} :
    binding ∈ boundFrom start stages ↔
      ∃ index stage, stages[index]? = some stage ∧ binding ∈ boundBy (start + index) stage := by
  induction stages generalizing start with
  | nil => simp [boundFrom]
  | cons first rest ih =>
    rw [boundFrom, List.mem_append, ih]
    constructor
    · rintro (hfirst | ⟨index, stage, hstage, hbound⟩)
      · exact ⟨0, first, rfl, hfirst⟩
      · refine ⟨index + 1, stage, hstage, ?_⟩
        rwa [Nat.add_assoc, Nat.add_comm 1] at hbound
    · rintro ⟨index, stage, hstage, hbound⟩
      cases index with
      | zero =>
        cases hstage
        exact .inl hbound
      | succ index =>
        refine .inr ⟨index, stage, hstage, ?_⟩
        rwa [Nat.add_assoc, Nat.add_comm 1]

theorem mem_boundFrom_take {start count : Nat} {stages : List Surface.Stage}
    {binding : Binding} :
    binding ∈ boundFrom start (stages.take count) ↔
      ∃ index < count, ∃ stage, stages[index]? = some stage ∧
        binding ∈ boundBy (start + index) stage := by
  rw [mem_boundFrom]
  constructor
  · rintro ⟨index, stage, hstage, hbound⟩
    rw [List.getElem?_take] at hstage
    obtain ⟨hindex, hstage⟩ := Option.ite_none_right_eq_some.1 hstage
    exact ⟨index, hindex, stage, hstage, hbound⟩
  · rintro ⟨index, hindex, stage, hstage, hbound⟩
    exact ⟨index, stage, by rw [List.getElem?_take_of_lt hindex, hstage], hbound⟩

/-- Binding a stage is binding its names one after the other. -/
theorem bindStage_eq_ok_iff {scope behind : Scope} {position : Nat} {stage : Surface.Stage} :
    bindStage scope (stageId position) stage.aliasName = (.ok (), behind) ↔
      scope.bindAll (boundBy position stage) = .ok behind := by
  rw [bindStage, boundBy, Scope.bindAll_cons_eq_ok_iff]
  cases scope.bind (.ownId (stageId position)) with
  | error fault => simp
  | ok withId =>
    simp only [Except.ok.injEq, exists_eq_left']
    cases stage.aliasName with
    | none => simp [Scope.bindAll]
    | some name =>
      simp only [Option.toList_some, List.map_cons, List.map_nil, Scope.bindAll]
      cases withId.bind (.stage name (stageId position)) <;> simp

/-- All that can keep the names of a stage from being bound. -/
theorem fst_bindStage_eq_error_iff {scope : Scope} {id : String} {aliasName : Option String}
    {fault : Fault} :
    (bindStage scope id aliasName).1 = .error fault ↔
      scope.bind (.ownId id) = .error fault ∨
        ∃ behind name, scope.bind (.ownId id) = .ok behind ∧ aliasName = some name ∧
          behind.bind (.stage name id) = .error fault := by
  rw [bindStage]
  cases scope.bind (.ownId id) with
  | error fault => simp
  | ok behind =>
    cases aliasName with
    | none => simp
    | some name => cases hname : behind.bind (.stage name id) <;> simp [hname]

/-! ### One stage -/

/-- The stage starts from `primary`: by its name, where it names an input, or
else since it was passed on. -/
inductive Starts (visible : List Binding) (passed : Option Binding) (stage : Surface.Stage)
    (primary : Binding) : Prop
  | named (hname : stage.inputName = some primary.name) (hvisible : primary ∈ visible)
  | passed (hname : stage.inputName = none) (hpassed : passed = some primary)

/-- A stage starts from one binding, where no name has two targets. -/
theorem Starts.unique {visible : List Binding} {passed : Option Binding} {stage : Surface.Stage}
    {primary primary' : Binding} (hsingle : SingleTarget visible)
    (h : Starts visible passed stage primary) (h' : Starts visible passed stage primary') :
    primary = primary' := by
  rcases h with ⟨hname, hvisible⟩ | ⟨hname, hpassed⟩ <;>
    rcases h' with ⟨hname', hvisible'⟩ | ⟨hname', hpassed'⟩
  · exact hsingle primary hvisible primary' hvisible' (Option.some.inj (hname.symm.trans hname'))
  · cases hname.symm.trans hname'
  · cases hname.symm.trans hname'
  · exact Option.some.inj (hpassed.symm.trans hpassed')

/-- What the stage at a position expands to, where `visible` is visible and
`passed` passed on. -/
structure Expands (visible : List Binding) (passed : Option Binding) (position : Nat)
    (stage : Surface.Stage) (primary : Binding) (expanded : Backend.Stage) : Prop where
  /-- The stage has a body. -/
  nonblank : Text.allBlank stage.pipeline = false
  /-- The stage has a primary input. -/
  starts : Starts visible passed stage primary
  /-- The id is that of the position. -/
  id : expanded.id = stageId position
  /-- The body is taken over. -/
  pipeline : expanded.pipeline = stage.pipeline
  /-- The inputs are read off what is visible. -/
  inputs : ∃ scope : Scope, scope.Holds visible ∧
    expanded.inputs = inputsOf scope primary stage.pipeline

namespace Expands

variable {visible : List Binding} {passed : Option Binding} {position : Nat}
  {stage : Surface.Stage} {primary : Binding} {expanded : Backend.Stage}

/-- The primary input is listed first. -/
theorem primary?_eq (h : Expands visible passed position stage primary expanded) :
    expanded.primary? = some primary.toInput := by
  obtain ⟨scope, -, hinputs⟩ := h.inputs
  rw [Backend.Stage.primary?, hinputs, head?_inputsOf]

/-- Nothing is left open but the order of the scope. -/
theorem exists_eq (h : Expands visible passed position stage primary expanded) :
    ∃ scope : Scope, scope.Holds visible ∧
      expanded = ⟨stageId position, stage.pipeline, inputsOf scope primary stage.pipeline⟩ := by
  obtain ⟨scope, hscope, hinputs⟩ := h.inputs
  refine ⟨scope, hscope, ?_⟩
  rw [← hinputs, ← h.id, ← h.pipeline]

end Expands

section Run

variable {scope : Scope} {visible : List Binding} {passed : Option Binding}
  {start : Nat} {stage : Surface.Stage} {stages : List Surface.Stage}
  {expanded : List Backend.Stage}

theorem primaryOf_eq_ok_iff (h : scope.Holds visible) {position : Nat} {primary : Binding} :
    primaryOf scope passed position stage = .ok primary ↔
      Text.allBlank stage.pipeline = false ∧ Starts visible passed stage primary := by
  unfold primaryOf
  split
  · next hblank => simp [hblank]
  · next hblank =>
    have hnonblank : Text.allBlank stage.pipeline = false := by simpa using hblank
    cases hname : stage.inputName with
    | some name =>
      have hstarts : Starts visible passed stage primary ↔ scope.resolve name = some primary := by
        rw [h.resolve_eq_some_iff]
        constructor
        · rintro (⟨hprimary, hvisible⟩ | ⟨hnone, -⟩)
          · rw [hname] at hprimary
            exact ⟨hvisible, (Option.some.inj hprimary).symm⟩
          · rw [hname] at hnone
            cases hnone
        · rintro ⟨hvisible, rfl⟩
          exact .named hname hvisible
      rw [hstarts]
      cases hresolve : scope.resolve name <;> simp [hresolve, hnonblank]
    | none =>
      have hstarts : Starts visible passed stage primary ↔ passed = some primary := by
        constructor
        · rintro (⟨hprimary, -⟩ | ⟨-, hpassed⟩)
          · rw [hname] at hprimary
            cases hprimary
          · exact hpassed
        · exact fun hpassed => .passed hname hpassed
      rw [hstarts]
      cases passed <;> simp [hnonblank]

/-! ### A run over stages -/

/-- What is passed on to each of the stages from a position on. -/
def passedTo (passed : Option Binding) (start : Nat) : Nat → Option Binding
  | 0 => passed
  | index + 1 => passedOn (stageId (start + index))

/-- What is passed on behind the first stage comes from that stage. -/
theorem passedTo_passedOn {index : Nat} :
    passedTo (passedOn (stageId start)) (start + 1) index = passedTo passed start (index + 1) := by
  cases index with
  | zero => rfl
  | succ index => simp only [passedTo, Nat.add_assoc, Nat.add_comm 1]

/-- All that can keep a stage from being expanded. -/
theorem fst_expandStage_eq_error_iff {position : Nat} {fault : Fault} :
    (expandStage scope passed position stage).1 = .error fault ↔
      primaryOf scope passed position stage = .error fault ∨
        (∃ primary, primaryOf scope passed position stage = .ok primary) ∧
          (bindStage scope (stageId position) stage.aliasName).1 = .error fault := by
  rw [expandStage]
  cases primaryOf scope passed position stage with
  | error fault => simp
  | ok primary =>
    rcases hbind : bindStage scope (stageId position) stage.aliasName with ⟨fault | _, behind⟩ <;>
      simp [hbind]

/-- All that expanding a stage and the rest behind it can do. -/
theorem expandFrom_cons_eq_ok_iff {rest : List Surface.Stage} :
    expandFrom scope passed start (stage :: rest) = .ok expanded ↔
      ∃ primary behind others,
        primaryOf scope passed start stage = .ok primary ∧
        bindStage scope (stageId start) stage.aliasName = (.ok (), behind) ∧
        expandFrom behind (passedOn (stageId start)) (start + 1) rest = .ok others ∧
        expanded = ⟨stageId start, stage.pipeline, inputsOf scope primary stage.pipeline⟩ ::
          others := by
  rw [expandFrom, expandStage]
  cases primaryOf scope passed start stage with
  | error fault => simp
  | ok primary =>
    rcases hbind : bindStage scope (stageId start) stage.aliasName with ⟨fault | _, behind⟩
    · simp [hbind]
    · cases hrest : expandFrom behind (passedOn (stageId start)) (start + 1) rest with
      | error fault => simp [hbind, hrest]
      | ok others => simp [hbind, hrest, eq_comm]

theorem length_expandFrom (h : expandFrom scope passed start stages = .ok expanded) :
    expanded.length = stages.length := by
  induction stages generalizing scope passed start expanded with
  | nil =>
    cases h
    rfl
  | cons stage rest ih =>
    obtain ⟨primary, behind, others, -, -, hrest, rfl⟩ := expandFrom_cons_eq_ok_iff.1 h
    rw [List.length_cons, List.length_cons, ih hrest]

/-- A run that succeeds gives no name two targets. -/
theorem singleTarget_of_expandFrom (hscope : scope.Holds visible)
    (h : expandFrom scope passed start stages = .ok expanded) :
    SingleTarget (visible ++ boundFrom start stages) := by
  induction stages generalizing scope visible passed start expanded with
  | nil =>
    rw [boundFrom, List.append_nil]
    exact hscope.singleTarget
  | cons stage rest ih =>
    obtain ⟨primary, behind, others, -, hbind, hrest, -⟩ := expandFrom_cons_eq_ok_iff.1 h
    have hbehind := hscope.bindAll (bindStage_eq_ok_iff.1 hbind)
    rw [boundFrom, ← List.append_assoc]
    exact ih hbehind hrest

/-- A run that succeeds expands each of its stages, where what is visible are
the names from before the run and those of the stages so far. -/
theorem expands_of_expandFrom (hscope : scope.Holds visible)
    (h : expandFrom scope passed start stages = .ok expanded) {index : Nat}
    (hstage : stages[index]? = some stage) :
    ∃ primary out, expanded[index]? = some out ∧
      Expands (visible ++ boundFrom start (stages.take index)) (passedTo passed start index)
        (start + index) stage primary out := by
  induction stages generalizing scope visible passed start expanded index with
  | nil => simp at hstage
  | cons first rest ih =>
    obtain ⟨primary, behind, others, hprimary, hbind, hrest, rfl⟩ :=
      expandFrom_cons_eq_ok_iff.1 h
    cases index with
    | zero =>
      cases hstage
      obtain ⟨hnonblank, hstarts⟩ := (primaryOf_eq_ok_iff hscope).1 hprimary
      refine ⟨primary, _, rfl, ?_⟩
      rw [List.take_zero, boundFrom, List.append_nil]
      exact ⟨hnonblank, hstarts, rfl, rfl, scope, hscope, rfl⟩
    | succ index =>
      -- the rest runs behind the first stage, whose names join what was visible
      have hbehind := hscope.bindAll (bindStage_eq_ok_iff.1 hbind)
      obtain ⟨primary', out, hout, hexpands⟩ := ih hbehind hrest hstage
      refine ⟨primary', out, hout, ?_⟩
      rw [passedTo_passedOn, List.append_assoc, Nat.add_assoc, Nat.add_comm 1] at hexpands
      rwa [List.take_succ_cons, boundFrom]

/-- A run succeeds where no name gets two targets and every stage has a body and
something to start from. -/
theorem exists_expandFrom (hscope : scope.Holds visible)
    (hsingle : SingleTarget (visible ++ boundFrom start stages))
    (hstarts : ∀ index stage, stages[index]? = some stage →
      Text.allBlank stage.pipeline = false ∧
        ∃ primary, Starts (visible ++ boundFrom start (stages.take index))
          (passedTo passed start index) stage primary) :
    ∃ expanded, expandFrom scope passed start stages = .ok expanded := by
  induction stages generalizing scope visible passed start with
  | nil => exact ⟨[], rfl⟩
  | cons stage rest ih =>
    obtain ⟨hnonblank, primary, hprimary⟩ := hstarts 0 stage rfl
    rw [List.take_zero, boundFrom, List.append_nil] at hprimary
    rw [boundFrom, ← List.append_assoc] at hsingle
    obtain ⟨behind, hbind⟩ := hscope.exists_bindAll
      (hsingle.mono fun binding => List.mem_append_left _)
    have hbehind := hscope.bindAll hbind
    -- a first stage that is bound leaves a scope for the induction to start from
    obtain ⟨others, hrest⟩ : ∃ others,
        expandFrom behind (passedOn (stageId start)) (start + 1) rest = .ok others := by
      apply ih hbehind hsingle
      intro index stage' hstage'
      obtain ⟨hnonblank', primary', hprimary'⟩ := hstarts (index + 1) stage' hstage'
      refine ⟨hnonblank', primary', ?_⟩
      rw [List.take_succ_cons, boundFrom, ← List.append_assoc] at hprimary'
      rwa [passedTo_passedOn]
    exact ⟨_, expandFrom_cons_eq_ok_iff.2 ⟨primary, behind, others,
      (primaryOf_eq_ok_iff hscope).2 ⟨hnonblank, hprimary⟩, bindStage_eq_ok_iff.2 hbind,
      hrest, rfl⟩⟩

end Run

/-! ### The whole query -/

namespace Surface.Query

/-- What is visible at a position: the declared inputs, and the ids and aliases
of the stages before it. -/
def visible (query : Query) (validate : Validator) (position : Nat) : List Binding :=
  query.inputs.bound validate ++ boundFrom 0 (query.stages.take position)

/-- What is passed on to a position: the only declared input at first, the
output of the stage before it later on. -/
def passed (query : Query) (validate : Validator) (position : Nat) : Option Binding :=
  passedTo (Scope.mk (query.inputs.bound validate)).only? 0 position

/-- The output of the stage before is passed on, under its id. -/
theorem passed_succ (query : Query) (validate : Validator) (previous : Nat) :
    query.passed validate (previous + 1) = some (.ownId (stageId previous)) := by
  rw [passed, passedTo, Nat.zero_add]
  rfl

/-- The stored query is what the query means, stage by stage. -/
structure Meaning (query : Query) (validate : Validator) (stored : Backend.Query) : Prop where
  /-- The inputs can be declared. -/
  proper : query.inputs.Proper validate
  /-- There is a stage. -/
  nonempty : query.stages ≠ []
  /-- No name ever gets two targets. -/
  single : SingleTarget (query.visible validate query.stages.length)
  /-- The last stage is the output. -/
  output : stored.output = stageId (query.stages.length - 1)
  /-- There are as many stages. -/
  length : stored.stages.length = query.stages.length
  /-- Every stage is expanded, where what is visible is visible. -/
  expands : ∀ {position stage}, query.stages[position]? = some stage →
    ∃ primary expanded, stored.stages[position]? = some expanded ∧
      Expands (query.visible validate position) (query.passed validate position) position stage
        primary expanded

variable {query : Query} {validate : Validator} {stored : Backend.Query}

theorem mem_visible {position : Nat} {binding : Binding} :
    binding ∈ query.visible validate position ↔
      binding ∈ query.inputs.bound validate ∨
        ∃ earlier < position, ∃ stage, query.stages[earlier]? = some stage ∧
          binding ∈ boundBy earlier stage := by
  rw [visible, List.mem_append, mem_boundFrom_take]
  simp only [Nat.zero_add]

/-- What is visible stays visible. -/
theorem mem_visible_of_le {position later : Nat} (hle : position ≤ later) {binding : Binding}
    (h : binding ∈ query.visible validate position) : binding ∈ query.visible validate later := by
  rcases mem_visible.1 h with hbound | ⟨earlier, hlt, hearlier⟩
  · exact mem_visible.2 (.inl hbound)
  · exact mem_visible.2 (.inr ⟨earlier, Nat.lt_of_lt_of_le hlt hle, hearlier⟩)

theorem expandWith_eq_ok_iff :
    query.expandWith validate = .ok stored ↔
      query.inputs.Proper validate ∧ query.stages ≠ [] ∧
        ∃ stages, expandFrom ⟨query.inputs.bound validate⟩
            (Scope.mk (query.inputs.bound validate)).only? 0 query.stages = .ok stages ∧
          stored = ⟨stageId (stages.length - 1), stages⟩ := by
  rw [expandWith]
  cases hscope : query.inputs.scope validate with
  | error fault =>
    refine ⟨nofun, fun h => ?_⟩
    rw [Inputs.scope_eq_ok_iff.2 ⟨h.1, rfl⟩] at hscope
    cases hscope
  | ok scope =>
    obtain ⟨hproper, rfl⟩ := Inputs.scope_eq_ok_iff.1 hscope
    simp only [hproper, true_and, expandIn, List.isEmpty_iff]
    split
    · next hempty => simp [hempty]
    · next hnonempty =>
      cases expandFrom ⟨query.inputs.bound validate⟩
        (Scope.mk (query.inputs.bound validate)).only? 0 query.stages <;>
        simp [hnonempty, eq_comm]

/-- **An expanded query is described stage by stage.** -/
theorem meaning_of_expandWith (h : query.expandWith validate = .ok stored) :
    query.Meaning validate stored := by
  obtain ⟨hproper, hnonempty, stages, hstages, rfl⟩ := expandWith_eq_ok_iff.1 h
  have hlength := length_expandFrom hstages
  refine ⟨hproper, hnonempty, ?_, by rw [hlength], hlength, ?_⟩
  · have hsingle := singleTarget_of_expandFrom Inputs.holds_bound hstages
    rwa [visible, List.take_length]
  · intro position stage hstage
    have hexpands := expands_of_expandFrom Inputs.holds_bound hstages hstage
    rwa [Nat.zero_add] at hexpands

/-- **A query expands** where its inputs can be declared, no name gets two
targets, and every stage has a body and something to start from. -/
theorem exists_expandWith (hproper : query.inputs.Proper validate)
    (hnonempty : query.stages ≠ [])
    (hsingle : SingleTarget (query.visible validate query.stages.length))
    (hstarts : ∀ position stage, query.stages[position]? = some stage →
      Text.allBlank stage.pipeline = false ∧
        ∃ primary, Starts (query.visible validate position) (query.passed validate position)
          stage primary) :
    ∃ stored, query.expandWith validate = .ok stored := by
  rw [visible, List.take_length] at hsingle
  obtain ⟨stages, hstages⟩ := exists_expandFrom Inputs.holds_bound hsingle hstarts
  exact ⟨_, expandWith_eq_ok_iff.2 ⟨hproper, hnonempty, stages, hstages, rfl⟩⟩

end Surface.Query

/-! ### One query -/

/-- Of its two inputs one is used.  The second stage starts from the first by its
alias, which its body does not mention; the third does mention it. -/
def joined : Surface.Query where
  inputs := .ofList [("in", "o:::dataset:41/2"), ("spare", "7")]
  stages :=
    [⟨some "base", some "in", "filter true"⟩, ⟨none, some "base", "sort time"⟩,
      ⟨none, none, "join @base"⟩]

/-- What it expands to. -/
def joinedStored : Backend.Query where
  output := "stage-2"
  stages :=
    [⟨"stage-0", "filter true", [.dataset "in" "41"]⟩,
      ⟨"stage-1", "sort time", [.ofStage "base" "stage-0"]⟩,
      ⟨"stage-2", "join @base", [.ofStage "stage-1" "stage-1", .ofStage "base" "stage-0"]⟩]

theorem expand_joined : joined.expandWith Dataset.bareId? = .ok joinedStored := by
  simp only [Surface.Query.expandWith, Surface.Query.expandIn, joined, expandFrom, expandStage,
    inputsOf, supplementalNames, sortedNames_eq_insertionSort]
  decide +kernel

end StagedQuery
