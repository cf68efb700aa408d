/-
StagedQuery/Proofs/StageEffect.lean

What expanding one stage does to the scope, whether or not it succeeds.

Who drives the stages by hand holds the scope also behind a stage that failed, and
goes on with it.  A stage can fail in five places: its body is blank, its input is
unknown, there is nothing to start from, its id stands for something else, or its
alias does.  The first four leave the scope untouched; the last one is behind the id,
which stays bound.  The relation

    Effect scope passed position stage result behind

has a case for each way out, and `effect_expandStage` says that there is no other.
Nothing is assumed of the scope, the position or what is passed on: the id may be bound
already, to the stage itself or to something else, and a name that stands for the same
already is bound again without a trace (`Scope.added`).

The inputs are read before any of this happens.  What a stage lists behind its primary
input is what the names stood for in the scope it was given, so it sees its own id and
alias only if these were bound there.

Main statements: `accounted_expandStage`, what is left of one stage; and
`mem_bindings_run`, nothing else is ever bound along a run.
-/
import StagedQuery.Proofs.Persistence
import StagedQuery.Proofs.Recovery

namespace StagedQuery

/-! ### What binding adds -/

namespace Scope

/-- What binding a name adds: nothing, where the name is bound. -/
def added (scope : Scope) (binding : Binding) : List Binding :=
  if scope.resolve binding.name = none then [binding] else []

/-- What the names of a stage add: its id, then its alias to the scope with the id. -/
def addedBy (scope : Scope) (position : Nat) (stage : Surface.Stage) : List Binding :=
  scope.added (.ownId (stageId position)) ++
    match stage.aliasName with
    | none => []
    | some name =>
      (scope.after (.bind (.ownId (stageId position)))).added (.stage name (stageId position))

/-- The name is free or stands for the same already. -/
def Admits (scope : Scope) (binding : Binding) : Prop :=
  scope.resolve binding.name = none ∨ scope.resolve binding.name = some binding

variable {scope behind : Scope} {binding : Binding}

theorem bindings_after_bind (scope : Scope) (binding : Binding) :
    (scope.after (.bind binding)).bindings = scope.bindings ++ scope.added binding := by
  rw [after_bind, added]
  split
  · rfl
  · exact (List.append_nil _).symm

/-- The names of a stage, bound one after the other, add what they add. -/
theorem bindings_bindEach_boundBy (scope : Scope) (position : Nat) (stage : Surface.Stage) :
    (scope.bindEach (boundBy position stage)).bindings =
      scope.bindings ++ scope.addedBy position stage := by
  rw [addedBy, ← List.append_assoc, ← bindings_after_bind, boundBy]
  cases stage.aliasName with
  | none => exact (List.append_nil _).symm
  | some name => exact bindings_after_bind _ _

/-- Binding a name is refused where it stands for something else. -/
theorem bind_eq_error_iff {fault : Fault} :
    scope.bind binding = .error fault ↔
      ¬scope.Admits binding ∧ fault = .nameTaken binding.name := by
  rw [bind, Admits]
  cases scope.resolve binding.name with
  | none => simp
  | some bound =>
    by_cases hbound : bound = binding
    · simp [hbound]
    · simp [hbound, eq_comm (a := fault)]

theorem Admits.of_bind (h : scope.bind binding = .ok behind) : scope.Admits binding :=
  exists_bind_iff.1 ⟨behind, h⟩

end Scope

/-! ### One stage -/

variable {scope : Scope} {passed : Option Binding} {position : Nat} {stage : Surface.Stage}

/-- All that expanding a stage can do: what it answers, and the scope it leaves. -/
inductive Effect (scope : Scope) (passed : Option Binding) (position : Nat)
    (stage : Surface.Stage) : Except Fault Backend.Stage → Scope → Prop
  /-- The stage has no body or nothing to start from. -/
  | unprovided {fault} (hprimary : primaryOf scope passed position stage = .error fault) :
      Effect scope passed position stage (.error fault) scope
  /-- The id stands for something else. -/
  | idTaken (hid : ¬scope.Admits (.ownId (stageId position))) :
      Effect scope passed position stage (.error (.nameTaken (stageId position))) scope
  /-- The id is bound, the alias stands for something else. -/
  | aliasTaken {name} (halias : stage.aliasName = some name)
      (hid : scope.Admits (.ownId (stageId position)))
      (hname : ¬(scope.after (.bind (.ownId (stageId position)))).Admits
        (.stage name (stageId position))) :
      Effect scope passed position stage (.error (.nameTaken name))
        (scope.after (.bind (.ownId (stageId position))))
  /-- The stage is expanded on the scope it was given, and its names are bound. -/
  | expanded {primary} (hprimary : primaryOf scope passed position stage = .ok primary) :
      Effect scope passed position stage
        (.ok ⟨stageId position, stage.pipeline, inputsOf scope primary stage.pipeline⟩)
        (scope.bindEach (boundBy position stage))

/-- **Expanding a stage has one of these effects.** -/
theorem effect_expandStage (scope : Scope) (passed : Option Binding) (position : Nat)
    (stage : Surface.Stage) :
    Effect scope passed position stage (expandStage scope passed position stage).1
      (expandStage scope passed position stage).2 := by
  rw [expandStage]
  cases hprimary : primaryOf scope passed position stage with
  | error fault => exact .unprovided hprimary
  | ok primary =>
    simp only [bindStage]
    have hexpanded := Effect.expanded hprimary
    rw [boundBy] at hexpanded
    cases hid : scope.bind (.ownId (stageId position)) with
    | error fault =>
      obtain ⟨hrefused, rfl⟩ := Scope.bind_eq_error_iff.1 hid
      exact .idTaken hrefused
    | ok withId =>
      have hadmits := Scope.Admits.of_bind hid
      cases Scope.after_bind_of_ok hid
      cases halias : stage.aliasName with
      | none =>
        rw [halias] at hexpanded
        exact hexpanded
      | some name =>
        rw [halias] at hexpanded
        cases hname : (scope.after (.bind (.ownId (stageId position)))).bind
            (.stage name (stageId position)) with
        | error fault =>
          simp only [hname]
          obtain ⟨hrefused, rfl⟩ := Scope.bind_eq_error_iff.1 hname
          exact .aliasTaken halias hadmits hrefused
        | ok withAlias =>
          simp only [hname]
          cases Scope.after_bind_of_ok hname
          exact hexpanded

/-! ### What is left -/

/-- The fault is that of the alias: the id could be bound. -/
def AliasTaken (scope : Scope) (position : Nat) (stage : Surface.Stage) (fault : Fault) : Prop :=
  ∃ name, stage.aliasName = some name ∧ fault = .nameTaken name ∧
    scope.Admits (.ownId (stageId position))

/-- What a stage answers and the scope it leaves, told from the scope it was given. -/
structure Accounted (scope : Scope) (passed : Option Binding) (position : Nat)
    (stage : Surface.Stage) (result : Except Fault Backend.Stage) (behind : Scope) : Prop where
  /-- A success adds the id where that is free, then the alias where there is one
  that still is, and nothing else. -/
  bound : ∀ out, result = .ok out →
    behind.bindings = scope.bindings ++ scope.addedBy position stage
  /-- An alias that is refused leaves the id bound. -/
  aliasTaken : ∀ fault, result = .error fault → AliasTaken scope position stage fault →
    behind.bindings = scope.bindings ++ scope.added (.ownId (stageId position))
  /-- All other failures leave the scope alone. -/
  untouched : ∀ fault, result = .error fault → ¬AliasTaken scope position stage fault →
    behind = scope
  /-- The inputs are read off the scope that was given. -/
  inputs : ∀ out, result = .ok out → ∃ primary,
    primaryOf scope passed position stage = .ok primary ∧
      out.inputs = inputsOf scope primary stage.pipeline
  /-- Those behind the primary one are what their names stood for there. -/
  read : ∀ out, result = .ok out → ∀ input ∈ out.inputs.tail, ∃ binding,
    scope.resolve input.name = some binding ∧ binding.toInput = input
  /-- A name that was free there is not seen, be it the stage's own id or alias. -/
  unseen : ∀ out, result = .ok out → ∀ name, scope.resolve name = none →
    stage.inputName ≠ some name ∧ ∀ input ∈ out.inputs.tail, input.name ≠ name

/-- Having no body or nothing to start from is not a matter of names. -/
theorem ne_nameTaken_of_primaryOf {fault : Fault} {name : String}
    (h : primaryOf scope passed position stage = .error fault) : fault ≠ .nameTaken name := by
  rintro rfl
  unfold primaryOf at h
  split at h
  · cases h
  · split at h <;> split at h <;> cases h

/-- A stage that names an input starts from what that stands for. -/
theorem resolve_of_primaryOf {primary : Binding} {name : String}
    (h : primaryOf scope passed position stage = .ok primary)
    (hname : stage.inputName = some name) : scope.resolve name = some primary := by
  unfold primaryOf at h
  split at h
  · cases h
  · simp only [hname] at h
    cases hresolve : scope.resolve name with
    | none => simp [hresolve] at h
    | some binding => simpa [hresolve] using h

theorem exists_of_mem_tail_inputsOf {primary : Binding} {body : String} {input : Backend.Input}
    (h : input ∈ (inputsOf scope primary body).tail) :
    ∃ binding, scope.resolve input.name = some binding ∧ binding.toInput = input := by
  rw [inputsOf_eq, List.tail_cons, List.mem_map] at h
  obtain ⟨binding, hbinding, rfl⟩ := h
  obtain ⟨name, -, hresolve⟩ := List.mem_filterMap.1 hbinding
  refine ⟨binding, ?_, rfl⟩
  rwa [Binding.name_toInput, Scope.name_of_resolve hresolve]

theorem Effect.accounted {result : Except Fault Backend.Stage} {behind : Scope}
    (h : Effect scope passed position stage result behind) :
    Accounted scope passed position stage result behind := by
  cases h with
  | unprovided hprimary =>
    refine ⟨nofun, ?_, fun _ _ _ => rfl, nofun, nofun, nofun⟩
    rintro fault ⟨⟩ ⟨name, -, hfault, -⟩
    exact absurd hfault (ne_nameTaken_of_primaryOf hprimary)
  | idTaken hid =>
    refine ⟨nofun, ?_, fun _ _ _ => rfl, nofun, nofun, nofun⟩
    rintro fault ⟨⟩ ⟨name, -, -, hadmits⟩
    exact absurd hadmits hid
  | aliasTaken halias hid hname =>
    refine ⟨nofun, fun _ _ _ => Scope.bindings_after_bind _ _, ?_, nofun, nofun, nofun⟩
    rintro fault ⟨⟩ hother
    exact absurd ⟨_, halias, rfl, hid⟩ hother
  | expanded hprimary =>
    refine ⟨fun _ _ => Scope.bindings_bindEach_boundBy _ _ _, nofun, nofun, ?_, ?_, ?_⟩
    · rintro out ⟨⟩
      exact ⟨_, hprimary, rfl⟩
    · rintro out ⟨⟩ input hinput
      exact exists_of_mem_tail_inputsOf hinput
    · rintro out ⟨⟩ name hfree
      refine ⟨fun hname => ?_, ?_⟩
      · rw [resolve_of_primaryOf hprimary hname] at hfree
        cases hfree
      · rintro input hinput rfl
        obtain ⟨binding, hresolve, -⟩ := exists_of_mem_tail_inputsOf hinput
        rw [hresolve] at hfree
        cases hfree

/-- **What is left of one stage**, on whatever scope it is expanded and whatever comes
of it. -/
theorem accounted_expandStage (scope : Scope) (passed : Option Binding) (position : Nat)
    (stage : Surface.Stage) :
    Accounted scope passed position stage (expandStage scope passed position stage).1
      (expandStage scope passed position stage).2 :=
  (effect_expandStage scope passed position stage).accounted

/-- Two declared inputs. -/
def seeded : Scope :=
  ⟨[.dataset "in" "41", .dataset "spare" "7"]⟩

/-- They are joined by the id of a stage at position 3 that was refused. -/
def seededBehind : Scope :=
  ⟨seeded.bindings ++ [.ownId "stage-3"]⟩

/-- A stage that mentions the id it gets at position 3. -/
def selfJoin (name : String) : Surface.Stage :=
  ⟨some name, some "in", "join @stage-3"⟩

/-- Refused for its alias, the stage leaves its id behind.  Under another alias it sees
that id, which is not bound again. -/
theorem selfJoin_accounted :
    expandStage seeded none 3 (selfJoin "spare") = (.error (.nameTaken "spare"), seededBehind) ∧
      expandStage seededBehind none 3 (selfJoin "base") =
        (.ok ⟨"stage-3", "join @stage-3", [.dataset "in" "41", .ofStage "stage-3" "stage-3"]⟩,
          ⟨seededBehind.bindings ++ [.stage "base" "stage-3"]⟩) := by
  constructor
  · have hresult : (expandStage seeded none 3 (selfJoin "spare")).1 =
        .error (.nameTaken "spare") := by
      simp only [expandStage, inputsOf, supplementalNames, sortedNames_eq_insertionSort]
      decide +kernel
    have hbindings := (accounted_expandStage seeded none 3 (selfJoin "spare")).aliasTaken _
      hresult ⟨"spare", rfl, rfl, .inl (by decide +kernel)⟩
    have hadded : seeded.added (.ownId (stageId 3)) = [.ownId "stage-3"] := by decide +kernel
    rw [hadded] at hbindings
    exact Prod.ext hresult (congrArg Scope.mk hbindings)
  · have hresult : (expandStage seededBehind none 3 (selfJoin "base")).1 = .ok ⟨"stage-3",
        "join @stage-3", [.dataset "in" "41", .ofStage "stage-3" "stage-3"]⟩ := by
      simp only [expandStage, inputsOf, supplementalNames, sortedNames_eq_insertionSort]
      decide +kernel
    have hbindings := (accounted_expandStage seededBehind none 3 (selfJoin "base")).bound _ hresult
    have hadded : seededBehind.addedBy 3 (selfJoin "base") = [.stage "base" "stage-3"] := by
      rw [Scope.addedBy, Scope.after_bind]
      decide +kernel
    rw [hadded] at hbindings
    exact Prod.ext hresult (congrArg Scope.mk hbindings)

/-! ### A run of steps -/

namespace Scope

/-- What a step may bind, whatever the scope. -/
def Step.offers : Step → List Binding
  | .bind binding => [binding]
  | .stage _ position stage => boundBy position stage

variable {binding : Binding} {step : Step}

theorem mem_offers_of_mem_attempts (h : binding ∈ scope.attempts step) :
    binding ∈ step.offers := by
  cases step with
  | bind bound => exact h
  | stage passed position stage =>
    rw [attempts] at h
    split at h
    · cases h
    · split at h
      · exact mem_boundBy.2 (.inl (List.mem_singleton.1 h))
      · exact h

theorem mem_of_mem_bindEach {bindings : List Binding}
    (h : binding ∈ (scope.bindEach bindings).bindings) :
    binding ∈ scope.bindings ∨ binding ∈ bindings := by
  induction bindings generalizing scope with
  | nil => exact .inl h
  | cons first rest ih =>
    rcases ih h with hafter | hrest
    · rw [bindings_after_bind, added, List.mem_append] at hafter
      refine hafter.imp id fun hadded => ?_
      split at hadded
      · rw [List.mem_singleton.1 hadded]
        exact List.mem_cons_self
      · cases hadded
    · exact .inr (List.mem_cons_of_mem _ hrest)

/-- **Nothing else is bound along a run**, whatever fails on the way: what is bound at
its end was bound at its start, or one of its steps binds it. -/
theorem mem_bindings_run {steps : List Step} (h : binding ∈ (scope.run steps).bindings) :
    binding ∈ scope.bindings ∨ ∃ step ∈ steps, binding ∈ step.offers := by
  induction steps generalizing scope with
  | nil => exact .inl h
  | cons first rest ih =>
    rcases ih h with hafter | ⟨step, hstep, hoffers⟩
    · rw [after_eq_bindEach] at hafter
      refine (mem_of_mem_bindEach hafter).imp id fun hattempts => ?_
      exact ⟨first, List.mem_cons_self, mem_offers_of_mem_attempts hattempts⟩
    · exact .inr ⟨step, List.mem_cons_of_mem _ hstep, hoffers⟩

end Scope

end StagedQuery
