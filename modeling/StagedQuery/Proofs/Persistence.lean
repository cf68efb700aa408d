/-
StagedQuery/Proofs/Persistence.lean

What is bound stays bound.

A scope is driven by steps: binding one name, or expanding a stage in whatever state
the caller chooses.  A step that fails leaves a scope behind as well, and a run may go
on from there (`Scope.run`).  All that a step does to the scope is to try bindings,
one after the other (`after_eq_bindEach`), and a binding that is tried is put at the
end or changes nothing.  So along every run, with whatever failures in it,

    scope.bindings <+: (scope.run steps).bindings,

no name is bound twice, and a name that stands for something goes on to stand for it.

Main statement: `coherent_run`.
-/
import StagedQuery.Proofs.Expansion
import StagedQuery.Session

namespace StagedQuery

namespace Scope

/-! ### Steps -/

/-- What a scope can be put through. -/
inductive Step where
  /-- Bind one name. -/
  | bind (binding : Binding)
  /-- Expand a stage at a position, where `passed` was passed on to it. -/
  | stage (passed : Option Binding) (position : Nat) (stage : Surface.Stage)

/-- The scope that a step leaves, whether or not it succeeds. -/
def after (scope : Scope) : Step → Scope
  | .bind binding => (Session.step ⟨scope, none⟩ (.bind binding)).2.scope
  | .stage passed position stage => (Session.step ⟨scope, passed⟩ (.stage position stage)).2.scope

/-- The scope that steps leave one after the other. -/
def run (scope : Scope) (steps : List Step) : Scope :=
  steps.foldl after scope

/-- Where runs start: nothing is bound, or inputs that could be declared. -/
inductive Initial : Scope → Prop
  | empty : Initial .empty
  | declared {inputs : Inputs} {validate : Validator} {scope : Scope}
      (hscope : inputs.scope validate = .ok scope) : Initial scope

/-- Try to bind names one after the other. -/
def bindEach (scope : Scope) (bindings : List Binding) : Scope :=
  bindings.foldl (fun scope binding => scope.after (.bind binding)) scope

/-- The bindings that a step tries, in order: those of a stage only where it has
something to start from, and its alias only behind its id. -/
def attempts (scope : Scope) : Step → List Binding
  | .bind binding => [binding]
  | .stage passed position stage =>
    match primaryOf scope passed position stage with
    | .error _ => []
    | .ok _ =>
      match scope.bind (.ownId (stageId position)) with
      | .error _ => [.ownId (stageId position)]
      | .ok _ => boundBy position stage

variable {scope behind : Scope} {binding : Binding} {name : String}

/-! ### One step -/

/-- A name that is free is bound at the end; otherwise nothing changes. -/
theorem after_bind (scope : Scope) (binding : Binding) :
    scope.after (.bind binding) =
      if scope.resolve binding.name = none then scope.push binding else scope := by
  rw [after, Session.step, bind]
  cases scope.resolve binding.name with
  | none => rfl
  | some bound => by_cases hbound : bound = binding <;> simp [hbound]

theorem after_bind_of_ok (h : scope.bind binding = .ok behind) :
    scope.after (.bind binding) = behind := by
  rw [after, Session.step, h]

theorem after_bind_of_error {fault : Fault} (h : scope.bind binding = .error fault) :
    scope.after (.bind binding) = scope := by
  rw [after, Session.step, h]

theorem after_stage (scope : Scope) (passed : Option Binding) (position : Nat)
    (stage : Surface.Stage) :
    scope.after (.stage passed position stage) = (expandStage scope passed position stage).2 := by
  rw [after, Session.step]
  rcases expandStage scope passed position stage with ⟨fault | expanded, behind⟩ <;> rfl

/-- **Trying bindings is all that a step does to a scope.** -/
theorem after_eq_bindEach (scope : Scope) (step : Step) :
    scope.after step = scope.bindEach (scope.attempts step) := by
  cases step with
  | bind binding => rfl
  | stage passed position stage =>
    rw [after_stage, expandStage, attempts]
    cases primaryOf scope passed position stage with
    | error fault => rfl
    | ok primary =>
      simp only [bindStage]
      cases hid : scope.bind (.ownId (stageId position)) with
      | error fault => exact (after_bind_of_error hid).symm
      | ok withId =>
        have hafter := after_bind_of_ok hid
        cases halias : stage.aliasName with
        | none => simp [bindEach, boundBy, halias, hafter]
        | some name =>
          cases hname : withId.bind (.stage name (stageId position)) with
          | error fault =>
            simp [bindEach, boundBy, halias, hafter, hname, after_bind_of_error hname]
          | ok withAlias =>
            simp [bindEach, boundBy, halias, hafter, hname, after_bind_of_ok hname]

theorem run_append (scope : Scope) (steps others : List Step) :
    scope.run (steps ++ others) = (scope.run steps).run others :=
  List.foldl_append

/-- Names that are distinct are bound one behind the other. -/
theorem bindEach_eq_append {bindings : List Binding}
    (h : (Scope.mk (scope.bindings ++ bindings)).Distinct) :
    scope.bindEach bindings = ⟨scope.bindings ++ bindings⟩ := by
  induction bindings generalizing scope with
  | nil => simp [bindEach]
  | cons binding rest ih =>
    have hfree : scope.resolve binding.name = none := by
      refine resolve_eq_none_iff.2 fun earlier hearlier => ?_
      exact (List.pairwise_append.1 h).2.2 earlier hearlier binding List.mem_cons_self
    have hpush : scope.after (.bind binding) = scope.push binding := by
      rw [after_bind, if_pos hfree]
    rw [List.append_cons] at h ⊢
    rw [← ih h, bindEach, List.foldl_cons, hpush]
    rfl

/-- A scope is what comes of its own bindings. -/
theorem Distinct.run_bindings (h : scope.Distinct) :
    Scope.empty.run (scope.bindings.map .bind) = scope := by
  rw [run, List.foldl_map]
  exact bindEach_eq_append h

/-! ### Nothing is lost -/

theorem bindings_prefix_after_bind (scope : Scope) (binding : Binding) :
    scope.bindings <+: (scope.after (.bind binding)).bindings := by
  rw [after_bind]
  split
  · exact List.prefix_append _ _
  · exact List.prefix_refl _

theorem bindings_prefix_bindEach (scope : Scope) (bindings : List Binding) :
    scope.bindings <+: (scope.bindEach bindings).bindings := by
  induction bindings generalizing scope with
  | nil => exact List.prefix_refl _
  | cons binding rest ih => exact (bindings_prefix_after_bind scope binding).trans (ih _)

theorem bindings_prefix_after (scope : Scope) (step : Step) :
    scope.bindings <+: (scope.after step).bindings := by
  rw [after_eq_bindEach]
  exact bindings_prefix_bindEach scope _

/-- **Every run only appends.** -/
theorem bindings_prefix_run (scope : Scope) (steps : List Step) :
    scope.bindings <+: (scope.run steps).bindings := by
  induction steps generalizing scope with
  | nil => exact List.prefix_refl _
  | cons step rest ih => exact (bindings_prefix_after scope step).trans (ih _)

/-- A name that is bound is found at the same binding, whatever is appended. -/
theorem resolve_of_prefix (hbegins : scope.bindings <+: behind.bindings)
    (h : scope.resolve name = some binding) : behind.resolve name = some binding := by
  obtain ⟨appended, happended⟩ := hbegins
  rw [resolve, ← happended, List.find?_append]
  rw [resolve] at h
  rw [h]
  rfl

/-! ### No name twice -/

theorem Distinct.after_bind (h : scope.Distinct) (binding : Binding) :
    (scope.after (.bind binding)).Distinct := by
  have hholds : scope.Holds scope.bindings := ⟨h, fun _ => Iff.rfl⟩
  cases hbind : scope.bind binding with
  | error fault => rwa [after_bind_of_error hbind]
  | ok behind =>
    rw [after_bind_of_ok hbind]
    exact (hholds.bind hbind).distinct

theorem Distinct.bindEach (h : scope.Distinct) (bindings : List Binding) :
    (scope.bindEach bindings).Distinct := by
  induction bindings generalizing scope with
  | nil => exact h
  | cons binding rest ih => exact ih (h.after_bind binding)

theorem Distinct.run (h : scope.Distinct) (steps : List Step) : (scope.run steps).Distinct := by
  induction steps generalizing scope with
  | nil => exact h
  | cons step rest ih =>
    refine ih ?_
    rw [after_eq_bindEach]
    exact h.bindEach _

theorem Initial.distinct (h : scope.Initial) : scope.Distinct := by
  cases h with
  | empty => exact List.Pairwise.nil
  | declared hscope =>
    rw [(Inputs.scope_eq_ok_iff.1 hscope).2]
    exact Inputs.holds_bound.distinct

/-! ### Wherever a run leads -/

theorem exists_bind_iff :
    (∃ behind, scope.bind binding = .ok behind) ↔
      scope.resolve binding.name = none ∨ scope.resolve binding.name = some binding := by
  constructor
  · rintro ⟨behind, hbind⟩
    exact (bind_eq_ok_iff.1 hbind).imp And.left And.left
  · rintro (hfree | hbound)
    · exact ⟨_, bind_eq_ok_iff.2 (.inl ⟨hfree, rfl⟩)⟩
    · exact ⟨_, bind_eq_ok_iff.2 (.inr ⟨hbound, rfl⟩)⟩

theorem mem_sortedNames_iff_resolve :
    name ∈ scope.sortedNames ↔ ∃ binding, scope.resolve name = some binding := by
  rw [mem_sortedNames, ← Option.isSome_iff_exists, Option.isSome_iff_ne_none, ne_eq,
    resolve_eq_none_iff]
  simp

/-- What holds of a scope wherever a run has led. -/
structure Coherent (scope : Scope) : Prop where
  /-- No name is bound twice. -/
  distinct : scope.Distinct
  /-- A step appends, whether or not it succeeds. -/
  appends : ∀ step, scope.bindings <+: (scope.after step).bindings
  /-- A name that stands for something still does so behind every later step. -/
  persists : ∀ steps name binding, scope.resolve name = some binding →
    (scope.run steps).resolve name = some binding
  /-- A name can be bound where it is free or stands for the same already. -/
  binds : ∀ binding, (∃ behind, scope.bind binding = .ok behind) ↔
    scope.resolve binding.name = none ∨ scope.resolve binding.name = some binding
  /-- Where it stands for something, trying to bind it changes nothing. -/
  keeps : ∀ binding, scope.resolve binding.name ≠ none → scope.after (.bind binding) = scope
  /-- The sorted names increase. -/
  increasing : scope.sortedNames.Pairwise (· < ·)
  /-- They are the names that stand for something. -/
  sorted : ∀ name, name ∈ scope.sortedNames ↔ ∃ binding, scope.resolve name = some binding

theorem Distinct.coherent (h : scope.Distinct) : scope.Coherent where
  distinct := h
  appends := bindings_prefix_after scope
  persists steps _ _ hresolve := resolve_of_prefix (bindings_prefix_run scope steps) hresolve
  binds _ := exists_bind_iff
  keeps binding hbound := by rw [Scope.after_bind, if_neg hbound]
  increasing := h.increasing_sortedNames
  sorted _ := mem_sortedNames_iff_resolve

/-- **Every run leads to a coherent scope**, whatever failed on the way. -/
theorem coherent_run {start : Scope} (hstart : start.Initial) (steps : List Step) :
    (start.run steps).Coherent :=
  (hstart.distinct.run steps).coherent

end Scope

end StagedQuery
