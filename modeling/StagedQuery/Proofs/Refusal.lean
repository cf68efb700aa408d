/-
StagedQuery/Proofs/Refusal.lean

Why a surface query is refused.

Expansion ends at the first thing that is wrong, and what that is can be read off
the query: its declared inputs in the order of their names, then its stages by
position.  A stage is refused when it has no body or nothing to start from
(`Unprovided`), and else when a name that it binds is taken (`Clashes`).  Both
depend on the stages before it only through the names they bind (`Knows`).

A stage never sees a binding of its own, so a name it binds is taken where it is
known at all.  Its id is known only as the alias of a stage before: declared names
keep clear of ids, and ids of different positions differ.

Main statement: `expandWith_eq_error_iff`, the fault of a query that does not
expand.  It follows from what one stage does, `fst_expandStage_eq_error_iff_refused`,
by the induction over stages in `expandFrom_eq_error_iff`.
-/
import StagedQuery.Proofs.Denotation

namespace StagedQuery

open Backend

namespace Surface.Query

/-! ### The reasons -/

/-- A stage before the position has this alias. -/
def HasAlias (query : Query) (position : Nat) (name : String) : Prop :=
  ∃ earlier < position, ∃ stage, query.stages[earlier]? = some stage ∧
    stage.aliasName = some name

/-- The name is known at a position: it is declared, or the id or the alias of a
stage before. -/
inductive Knows (query : Query) (position : Nat) (name : String) : Prop
  | declared {reference : String} (hentry : (name, reference) ∈ query.inputs.entries)
  | ofId {earlier : Nat} (hlt : earlier < position) (hname : name = stageId earlier)
  | ofAlias (halias : query.HasAlias position name)

/-- What a stage lacks: the first that applies. -/
inductive Unprovided (query : Query) (position : Nat) (stage : Stage) : Fault → Prop
  | blankBody (hblank : Text.allBlank stage.pipeline = true) :
      Unprovided query position stage (.blankBody position)
  | unknownInput {name : String} (hbody : Text.allBlank stage.pipeline = false)
      (hname : stage.inputName = some name) (hunknown : ¬ query.Knows position name) :
      Unprovided query position stage (.unknownInput position name)
  | noInput (hbody : Text.allBlank stage.pipeline = false) (hname : stage.inputName = none)
      (hfirst : position = 0) (hseveral : 2 ≤ query.inputs.size) :
      Unprovided query position stage (.noInput position)

/-- Which name that a stage binds is taken: its id, or else its alias. -/
inductive Clashes (query : Query) (position : Nat) (stage : Stage) : Fault → Prop
  | ofId (halias : query.HasAlias position (stageId position)) :
      Clashes query position stage (.nameTaken (stageId position))
  | ofAlias {name : String} (hfree : ¬ query.HasAlias position (stageId position))
      (halias : stage.aliasName = some name) (hknown : query.Knows position name) :
      Clashes query position stage (.nameTaken name)

/-- Why a stage is refused: the first reason that applies. -/
def StageRefused (query : Query) (position : Nat) (stage : Stage) (fault : Fault) : Prop :=
  query.Unprovided position stage fault ∨
    (∀ other, ¬ query.Unprovided position stage other) ∧ query.Clashes position stage fault

/-- Why the declared inputs are refused: there are none, or else what is wrong with
the first entry with which anything is. -/
inductive InputsRefused (query : Query) (validate : Validator) : Fault → Prop
  | noInputs (hempty : query.inputs.entries = []) : InputsRefused query validate .noInputs
  | entry {fault : Fault}
      (hfirst : FirstFault (fun _ => EntryRefused validate) query.inputs.entries fault) :
      InputsRefused query validate fault

/-- Why a query is refused: the first reason that applies. -/
inductive Refused (query : Query) (validate : Validator) : Fault → Prop
  | inputs {fault : Fault} (hrefused : query.InputsRefused validate fault) :
      Refused query validate fault
  | noStages (hdeclared : ∀ other, ¬ query.InputsRefused validate other)
      (hempty : query.stages = []) : Refused query validate .noStages
  | stage {fault : Fault} (hdeclared : ∀ other, ¬ query.InputsRefused validate other)
      (hfirst : FirstFault query.StageRefused query.stages fault) :
      Refused query validate fault

variable {query : Query} {validate : Validator} {position : Nat} {name : String} {fault : Fault}
  {stage : Stage} {scope behind : Scope}

/-! ### Known names -/

/-- Known is what something visible is called. -/
theorem knows_iff (hproper : query.inputs.Proper validate)
    (hle : position ≤ query.stages.length) :
    query.Knows position name ↔
      ∃ binding ∈ query.visible validate position, binding.name = name := by
  simp only [mem_visible_iff_sees hle]
  constructor
  · rintro (⟨hentry⟩ | ⟨hlt, rfl⟩ | ⟨earlier, hlt, stage, hstage, halias⟩)
    · obtain ⟨id, hid⟩ := Option.isSome_iff_exists.1 (hproper.declarable _ hentry).accepted
      exact ⟨_, .declared hentry hid, rfl⟩
    · exact ⟨_, .ofId hlt, rfl⟩
    · exact ⟨_, .ofAlias hlt hstage halias, rfl⟩
  · rintro ⟨binding, hsees, rfl⟩
    cases hsees with
    | declared hentry hid => exact .declared hentry
    | ofId hlt => exact .ofId hlt rfl
    | ofAlias hlt hstage halias => exact .ofAlias ⟨_, hlt, _, hstage, halias⟩

/-- The id of a position is known there as an alias at most. -/
theorem knows_stageId_iff (hproper : query.inputs.Proper validate)
    (hlimit : position < positionLimit) :
    query.Knows position (stageId position) ↔ query.HasAlias position (stageId position) := by
  constructor
  · rintro (⟨hentry⟩ | ⟨hlt, hid⟩ | halias)
    · have hfree := (hproper.declarable _ hentry).free
      exact absurd rfl (StageId.ne_of_hasForm_eq_false hfree hlimit)
    · exact absurd (stageId_inj.1 hid).symm (Nat.ne_of_lt hlt)
    · exact halias
  · exact .ofAlias

/-- Nothing that is visible at a position is the output of its stage. -/
theorem ne_stage_of_mem_visible {binding : Binding}
    (h : binding ∈ query.visible validate position) : binding ≠ .stage name (stageId position) := by
  rintro rfl
  obtain ⟨earlier, hlt, -, -, hid, -⟩ := mem_visible_stage.1 h
  exact absurd (stageId_inj.1 hid).symm (Nat.ne_of_lt hlt)

theorem resolve_eq_none_iff_not_knows (hproper : query.inputs.Proper validate)
    (hle : position ≤ query.stages.length) (hscope : scope.Holds (query.visible validate position)) :
    scope.resolve name = none ↔ ¬ query.Knows position name := by
  rw [Scope.resolve_eq_none_iff, knows_iff hproper hle]
  simp only [hscope.mem_iff, not_exists, not_and, ne_eq]

/-- Nothing is passed on to the first stage where several inputs are declared. -/
theorem passed_eq_none_iff (hproper : query.inputs.Proper validate) :
    query.passed validate position = none ↔ position = 0 ∧ 2 ≤ query.inputs.size := by
  cases position with
  | zero =>
    have hnonempty : 0 < query.inputs.entries.length := List.length_pos_iff.2 hproper.nonempty
    show (Scope.mk (query.inputs.bound validate)).only? = none ↔ _
    rw [Scope.only?_eq_none_iff, hproper.length_bound, Inputs.size]
    omega
  | succ previous => simp [passed_succ]

/-! ### One stage -/

section Stage

variable (hproper : query.inputs.Proper validate) (hle : position ≤ query.stages.length)
  (hscope : scope.Holds (query.visible validate position))

include hproper hle hscope

theorem primaryOf_eq_error_iff :
    primaryOf scope (query.passed validate position) position stage = .error fault ↔
      query.Unprovided position stage fault := by
  constructor
  · -- body, explicit input and what was passed on are looked at in this order
    intro h
    unfold primaryOf at h
    split at h
    · next hblank =>
      cases h
      exact .blankBody hblank
    · next hblank =>
      have hbody : Text.allBlank stage.pipeline = false := by simpa using hblank
      cases hname : stage.inputName with
      | some name =>
        cases hresolve : scope.resolve name with
        | some binding => simp [hname, hresolve] at h
        | none =>
          simp only [hname, hresolve, Except.error.injEq] at h
          subst h
          exact .unknownInput hbody hname
            ((resolve_eq_none_iff_not_knows hproper hle hscope).1 hresolve)
      | none =>
        cases hpassed : query.passed validate position with
        | some binding => simp [hname, hpassed] at h
        | none =>
          simp only [hname, hpassed, Except.error.injEq] at h
          subst h
          obtain ⟨hfirst, hseveral⟩ := (passed_eq_none_iff hproper).1 hpassed
          exact .noInput hbody hname hfirst hseveral
  · intro h
    unfold primaryOf
    cases h with
    | blankBody hblank => rw [if_pos hblank]
    | unknownInput hbody hname hunknown =>
      have hresolve := (resolve_eq_none_iff_not_knows hproper hle hscope).2 hunknown
      simp [hbody, hname, hresolve]
    | noInput hbody hname hfirst hseveral =>
      have hpassed : query.passed validate position = none :=
        (passed_eq_none_iff hproper).2 ⟨hfirst, hseveral⟩
      simp [hbody, hname, hpassed]

/-- The id of a stage is taken where a stage before has it for an alias. -/
theorem bind_ownId_eq_error_iff (hlimit : position < positionLimit) :
    scope.bind (.ownId (stageId position)) = .error fault ↔
      fault = .nameTaken (stageId position) ∧ query.HasAlias position (stageId position) := by
  rw [hscope.bind_eq_error_iff, ← knows_stageId_iff hproper hlimit, knows_iff hproper hle]
  refine and_congr_right fun _ => ⟨?_, ?_⟩
  · rintro ⟨other, hother, hname, -⟩
    exact ⟨other, hother, hname⟩
  · rintro ⟨other, hother, hname⟩
    exact ⟨other, hother, hname, ne_stage_of_mem_visible hother⟩

/-- Behind its id, an alias of the stage is taken where it was known before. -/
theorem bind_alias_eq_error_iff
    (hid : scope.bind (.ownId (stageId position)) = .ok behind) :
    behind.bind (.stage name (stageId position)) = .error fault ↔
      fault = .nameTaken name ∧ query.Knows position name := by
  rw [(hscope.bind hid).bind_eq_error_iff, knows_iff hproper hle]
  refine and_congr_right fun _ => ⟨?_, ?_⟩
  · rintro ⟨other, hother, hname, hne⟩
    rcases List.mem_append.1 hother with hvisible | hown
    · exact ⟨other, hvisible, hname⟩
    · -- the id as its own alias stands for the same stage
      cases List.mem_singleton.1 hown
      have hid : stageId position = name := hname
      exact absurd (congrArg (Binding.stage · (stageId position)) hid) hne
  · rintro ⟨other, hother, hname⟩
    exact ⟨other, List.mem_append_left _ hother, hname, ne_stage_of_mem_visible hother⟩

theorem fst_bindStage_eq_error_iff_clashes (hlimit : position < positionLimit) :
    (bindStage scope (stageId position) stage.aliasName).1 = .error fault ↔
      query.Clashes position stage fault := by
  have hown : ∀ any, scope.bind (.ownId (stageId position)) = .error any ↔
      any = .nameTaken (stageId position) ∧ query.HasAlias position (stageId position) :=
    fun _ => bind_ownId_eq_error_iff hproper hle hscope hlimit
  rw [fst_bindStage_eq_error_iff, hown]
  constructor
  · rintro (⟨rfl, hshadowed⟩ | ⟨behind, name, hid, halias, hbind⟩)
    · exact .ofId hshadowed
    · -- the id is bound before the alias, so it was free
      have hfree : ¬ query.HasAlias position (stageId position) := fun hshadowed => by
        cases hid.symm.trans ((hown _).2 ⟨rfl, hshadowed⟩)
      obtain ⟨rfl, hknown⟩ := (bind_alias_eq_error_iff hproper hle hscope hid).1 hbind
      exact .ofAlias hfree halias hknown
  · intro h
    cases h with
    | ofId hshadowed => exact .inl ⟨rfl, hshadowed⟩
    | @ofAlias name hfree halias hknown =>
      cases hid : scope.bind (.ownId (stageId position)) with
      | error any => exact absurd ((hown any).1 hid).2 hfree
      | ok behind =>
        have hbind := (bind_alias_eq_error_iff hproper hle hscope hid).2 ⟨rfl, hknown⟩
        exact .inr ⟨behind, name, rfl, halias, hbind⟩

/-- **Why a stage is not expanded**, in the scope of what is visible to it. -/
theorem fst_expandStage_eq_error_iff_refused (hlimit : position < positionLimit) :
    (expandStage scope (query.passed validate position) position stage).1 = .error fault ↔
      query.StageRefused position stage fault := by
  have hprimary : ∀ any,
      primaryOf scope (query.passed validate position) position stage = .error any ↔
        query.Unprovided position stage any :=
    fun _ => primaryOf_eq_error_iff hproper hle hscope
  have hprovided : (∃ primary, primaryOf scope (query.passed validate position) position stage =
      .ok primary) ↔ ∀ other, ¬ query.Unprovided position stage other := by
    simp only [← hprimary]
    cases primaryOf scope (query.passed validate position) position stage <;> simp
  rw [fst_expandStage_eq_error_iff, hprimary, hprovided,
    fst_bindStage_eq_error_iff_clashes hproper hle hscope hlimit, StageRefused]

end Stage

end Surface.Query

/-! ### A run over stages -/

section Run

variable {scope behind : Scope} {visible : List Binding} {passed : Option Binding} {start : Nat}
  {stage : Surface.Stage} {stages : List Surface.Stage} {fault : Fault}

/-- An expanded stage leaves the names it binds behind. -/
theorem holds_of_expandStage {expanded : Backend.Stage} (hscope : scope.Holds visible)
    (h : expandStage scope passed start stage = (.ok expanded, behind)) :
    expanded.id = stageId start ∧ behind.Holds (visible ++ boundBy start stage) := by
  rw [expandStage] at h
  cases hprimary : primaryOf scope passed start stage with
  | error _ => simp [hprimary] at h
  | ok primary =>
    rcases hbind : bindStage scope (stageId start) stage.aliasName with ⟨_ | _, _⟩
    · simp [hprimary, hbind] at h
    · simp only [hprimary, hbind, Prod.mk.injEq, Except.ok.injEq] at h
      obtain ⟨rfl, rfl⟩ := h
      exact ⟨rfl, hscope.bindAll (bindStage_eq_ok_iff.1 hbind)⟩

/-- A run fails with the first fault of its stages, where what one stage does is
known in every scope that the run can reach there. -/
theorem expandFrom_eq_error_iff {refused : Nat → Surface.Stage → Fault → Prop}
    (hscope : scope.Holds visible)
    (hstep : ∀ index stage scope', stages[index]? = some stage →
      scope'.Holds (visible ++ boundFrom start (stages.take index)) → ∀ any,
        (expandStage scope' (passedTo passed start index) (start + index) stage).1 = .error any ↔
          refused index stage any) :
    expandFrom scope passed start stages = .error fault ↔ FirstFault refused stages fault := by
  induction stages generalizing refused scope visible passed start with
  | nil => exact ⟨fun h => (by cases h), fun h => absurd h not_firstFault_nil⟩
  | cons stage rest ih =>
    have hfirst := hstep 0 stage scope rfl (by simpa [boundFrom] using hscope)
    simp only [passedTo, Nat.add_zero] at hfirst
    rw [firstFault_cons_iff, ← hfirst, expandFrom]
    rcases hstage : expandStage scope passed start stage with ⟨fault' | expanded, behind⟩
    · simp [hstage, ← hfirst]
    · have hunrefused : ∀ any, ¬ refused 0 stage any := fun any hany => by
        have herror := (hfirst any).2 hany
        rw [hstage] at herror
        cases herror
      -- the rest runs behind the stage, whose names join what was visible
      obtain ⟨hid, hbehind⟩ := holds_of_expandStage hscope hstage
      have hrest : expandFrom behind (passedOn expanded.id) (start + 1) rest = .error fault ↔
          FirstFault (fun index => refused (index + 1)) rest fault := by
        apply ih hbehind
        intro index stage' scope' hstage' hscope'
        have hnext := hstep (index + 1) stage' scope' hstage' (by
          rwa [List.take_succ_cons, boundFrom, ← List.append_assoc])
        rwa [hid, passedTo_passedOn, Nat.add_assoc, Nat.add_comm 1]
      dsimp only
      rw [← hrest]
      cases expandFrom behind (passedOn expanded.id) (start + 1) rest <;> simp [hunrefused]

end Run

/-! ### The whole query -/

namespace Surface.Query

variable {query : Query} {validate : Validator} {fault : Fault}

theorem scope_eq_error_iff_inputsRefused :
    query.inputs.scope validate = .error fault ↔ query.InputsRefused validate fault := by
  rw [Inputs.scope_eq_error_iff]
  constructor
  · rintro (⟨hempty, rfl⟩ | hfirst)
    · exact .noInputs hempty
    · exact .entry hfirst
  · rintro (hempty | hfirst)
    · exact .inl ⟨hempty, rfl⟩
    · exact .inr hfirst

/-- On inputs that can be declared, stages fail with the first fault of one. -/
theorem expandIn_eq_error_iff (hproper : query.inputs.Proper validate)
    (hcount : query.stages.length < positionLimit) :
    query.expandIn ⟨query.inputs.bound validate⟩ = .error fault ↔
      (query.stages = [] ∧ fault = .noStages) ∨
        FirstFault query.StageRefused query.stages fault := by
  have hrun : expandFrom ⟨query.inputs.bound validate⟩
      (Scope.mk (query.inputs.bound validate)).only? 0 query.stages = .error fault ↔
        FirstFault query.StageRefused query.stages fault := by
    apply expandFrom_eq_error_iff Inputs.holds_bound
    intro position stage scope hstage hscope any
    obtain ⟨hlt, -⟩ := List.getElem?_eq_some_iff.1 hstage
    rw [Nat.zero_add]
    exact fst_expandStage_eq_error_iff_refused hproper (Nat.le_of_lt hlt) hscope
      (Nat.lt_trans hlt hcount)
  -- without stages the run does nothing, and the fault is that there are none
  rw [← hrun, expandIn]
  cases hstages : query.stages with
  | nil => simp [expandFrom, eq_comm]
  | cons first rest =>
    rw [hstages] at hrun
    simp only [List.isEmpty_cons, Bool.false_eq_true, if_false, reduceCtorEq, false_and, false_or]
    cases expandFrom ⟨query.inputs.bound validate⟩
      (Scope.mk (query.inputs.bound validate)).only? 0 (first :: rest) <;> simp

end Surface.Query

/-- **Why a query does not expand**: the first reason that applies, and a query
expands where none does.  Positions are words, so there are fewer stages than
that. -/
theorem expandWith_eq_error_iff {query : Surface.Query} {validate : Validator} {fault : Fault}
    (hcount : query.stages.length < positionLimit) :
    query.expandWith validate = .error fault ↔ query.Refused validate fault := by
  have hinputs : ∀ any, query.inputs.scope validate = .error any ↔
      query.InputsRefused validate any :=
    fun _ => Surface.Query.scope_eq_error_iff_inputsRefused
  rw [Surface.Query.expandWith]
  cases hscope : query.inputs.scope validate with
  | error reason =>
    -- one reason to refuse the inputs rules out every later one
    have hreason := (hinputs reason).1 hscope
    rw [hscope] at hinputs
    show Except.error reason = .error fault ↔ _
    rw [Except.error.injEq, ← Except.error.injEq (ε := Fault) (α := Scope), hinputs]
    constructor
    · exact .inputs
    · intro h
      cases h with
      | inputs hrefused => exact hrefused
      | noStages hdeclared => exact absurd hreason (hdeclared reason)
      | stage hdeclared => exact absurd hreason (hdeclared reason)
  | ok scope =>
    obtain ⟨hproper, rfl⟩ := Inputs.scope_eq_ok_iff.1 hscope
    have hdeclared : ∀ any, ¬ query.InputsRefused validate any := fun any hrefused => by
      cases hscope.symm.trans ((hinputs any).2 hrefused)
    show query.expandIn ⟨query.inputs.bound validate⟩ = .error fault ↔ _
    rw [Surface.Query.expandIn_eq_error_iff hproper hcount]
    constructor
    · rintro (⟨hempty, rfl⟩ | hfirst)
      · exact .noStages hdeclared hempty
      · exact .stage hdeclared hfirst
    · intro h
      cases h with
      | inputs hrefused => exact absurd hrefused (hdeclared fault)
      | noStages _ hempty => exact .inl ⟨hempty, rfl⟩
      | stage _ hfirst => exact .inr hfirst

/-- The first stage takes the id of the second for its alias.  The second would also
take the name of the input. -/
def shadowing : Surface.Query where
  inputs := .ofList [("in", "7")]
  stages := [⟨some "stage-1", none, "filter true"⟩, ⟨some "in", none, "sort time"⟩]

/-- It is refused for the id, not for the alias. -/
theorem shadowing_refused :
    shadowing.stages.length < positionLimit ∧
      shadowing.Refused Dataset.bareId? (.nameTaken "stage-1") ∧
      ¬ shadowing.Refused Dataset.bareId? (.nameTaken "in") := by
  have hcount : shadowing.stages.length < positionLimit := by decide
  have hexpand : shadowing.expandWith Dataset.bareId? = .error (.nameTaken "stage-1") := by
    simp only [Surface.Query.expandWith, Surface.Query.expandIn, shadowing, expandFrom,
      expandStage, inputsOf, supplementalNames, sortedNames_eq_insertionSort]
    decide +kernel
  refine ⟨hcount, (expandWith_eq_error_iff hcount).1 hexpand, fun hrefused => ?_⟩
  have hother := (expandWith_eq_error_iff hcount).2 hrefused
  rw [hexpand] at hother
  exact absurd hother (by decide)

end StagedQuery
