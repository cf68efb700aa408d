/-
StagedQuery/Proofs/IndexedScope.lean

A scope with the place of every name at hand.

A scope finds a name by going through its bindings.  An indexed scope keeps an index
beside them that gives the place of a name, and finds a name by two looks: one at the
index, one at the place.  It stands for a scope as long as its two parts agree, and
nothing in its type says that they do: the place that the index gives may be that of
another name, or none at all.  A look at a place that is not there has no outcome, so
every operation answers an `Option`.

The index and the bindings are in step where the index gives each name its place among
the bindings,

    table.index[name]? = table.scope.position? name.

In step, each operation has an outcome, that of the same operation on the scope, and
leaves the two in step.  There is one lemma for each operation: `InStep.bind` and
`InStep.expandStage` are those of the two steps, and `InStep.run` follows.

Main statement: `names_persist`.
-/
import StagedQuery.Proofs.Persistence

namespace StagedQuery

/-- Bindings in the order they were made, and an index from names to places. -/
structure IndexedScope where
  /-- The bindings. -/
  bindings : List Binding := []
  /-- The place of each bound name. -/
  index : Std.HashMap String Nat := ∅

namespace IndexedScope

/-- No name is bound. -/
def empty : IndexedScope := {}

/-- The scope it stands for. -/
def scope (table : IndexedScope) : Scope := ⟨table.bindings⟩

/-- The binding of a name. -/
def resolve (table : IndexedScope) (name : String) : Option (Option Binding) :=
  match table.index[name]? with
  | none => some none
  | some place => table.bindings[place]?.map some

/-- Bind a name, unless it stands for something else already; the outcome, and what is
left behind. -/
def bind (table : IndexedScope) (binding : Binding) : Option (Except Fault Unit × IndexedScope) :=
  match table.index[binding.name]? with
  | none =>
    some (.ok (), ⟨table.bindings ++ [binding],
      table.index.insert binding.name table.bindings.length⟩)
  | some place =>
    table.bindings[place]?.map fun bound =>
      if bound = binding then (.ok (), table) else (.error (.nameTaken binding.name), table)

/-- The binding a stage starts from: its explicit input, or what was passed on. -/
def primaryOf (table : IndexedScope) (passed : Option Binding) (position : Nat)
    (stage : Surface.Stage) : Option (Except Fault Binding) :=
  if Text.allBlank stage.pipeline then some (.error (.blankBody position))
  else
    match stage.inputName with
    | some name =>
      match table.resolve name with
      | none => none
      | some (some binding) => some (.ok binding)
      | some none => some (.error (.unknownInput position name))
    | none =>
      match passed with
      | some binding => some (.ok binding)
      | none => some (.error (.noInput position))

/-- All inputs of a stage with this primary input and body. -/
def inputsOf (table : IndexedScope) (primary : Binding) (body : String) :
    Option (List Backend.Input) :=
  ((supplementalNames table.scope primary body).mapM table.resolve).map fun found =>
    primary.toInput :: found.filterMap (·.map Binding.toInput)

/-- Bind the id of a stage, then its alias if it has one. -/
def bindStage (table : IndexedScope) (id : String) (aliasName : Option String) :
    Option (Except Fault Unit × IndexedScope) :=
  match table.bind (.ownId id) with
  | none => none
  | some (.error fault, behind) => some (.error fault, behind)
  | some (.ok (), withId) =>
    match aliasName with
    | none => some (.ok (), withId)
    | some name => withId.bind (.stage name id)

/-- Expand the stage at a position, and answer what is left behind. -/
def expandStage (table : IndexedScope) (passed : Option Binding) (position : Nat)
    (stage : Surface.Stage) : Option (Except Fault Backend.Stage × IndexedScope) :=
  match table.primaryOf passed position stage with
  | none => none
  | some (.error fault) => some (.error fault, table)
  | some (.ok primary) =>
    let id := stageId position
    match table.inputsOf primary stage.pipeline, table.bindStage id stage.aliasName with
    | some inputs, some (outcome, behind) =>
      some (outcome.map fun _ => ⟨id, stage.pipeline, inputs⟩, behind)
    | _, _ => none

/-- What a step leaves, whether or not it succeeds. -/
def after (table : IndexedScope) : Scope.Step → Option IndexedScope
  | .bind binding => (table.bind binding).map (·.2)
  | .stage passed position stage => (table.expandStage passed position stage).map (·.2)

/-- What steps leave one after the other. -/
def run (table : IndexedScope) : List Scope.Step → Option IndexedScope
  | [] => some table
  | step :: rest =>
    match table.after step with
    | none => none
    | some behind => behind.run rest

end IndexedScope

/-! ### Places -/

namespace Scope

variable {scope : Scope} {name : String} {place : Nat}

/-- At the place of a name stands its binding. -/
theorem getElem?_of_position? (h : scope.position? name = some place) :
    ∃ binding, scope.bindings[place]? = some binding ∧ scope.resolve name = some binding := by
  obtain ⟨hlt, hname, hbefore⟩ := List.findIdx?_eq_some_iff_getElem.1 h
  refine ⟨scope.bindings[place], List.getElem?_eq_getElem hlt, ?_⟩
  exact List.find?_eq_some_iff_getElem.2
    ⟨hname, place, hlt, rfl, fun earlier hearlier => by simpa using hbefore earlier hearlier⟩

theorem position?_eq_none_iff : scope.position? name = none ↔ scope.resolve name = none := by
  rw [position?, resolve, List.findIdx?_eq_none_iff, List.find?_eq_none]
  simp

/-- A binding at the end takes no name its place. -/
theorem position?_push (binding : Binding) (name : String) :
    (scope.push binding).position? name =
      (scope.position? name).or
        (if binding.name = name then some scope.bindings.length else none) := by
  rw [position?, push, List.findIdx?_append, List.findIdx?_singleton, position?]
  by_cases hname : binding.name = name <;> simp [hname]

/-- Where no name is bound twice, a name is at every place where it stands. -/
theorem Distinct.position?_eq_some_iff (h : scope.Distinct) :
    scope.position? name = some place ↔
      ∃ binding, scope.bindings[place]? = some binding ∧ binding.name = name := by
  constructor
  · intro hplace
    obtain ⟨binding, hbinding, hresolve⟩ := getElem?_of_position? hplace
    exact ⟨binding, hbinding, name_of_resolve hresolve⟩
  · rintro ⟨binding, hbinding, rfl⟩
    obtain ⟨hlt, rfl⟩ := List.getElem?_eq_some_iff.1 hbinding
    refine List.findIdx?_eq_some_iff_getElem.2 ⟨hlt, by simp, fun earlier hearlier => ?_⟩
    simpa using List.pairwise_iff_getElem.1 h earlier place (Nat.lt_trans hearlier hlt) hlt hearlier

end Scope

namespace IndexedScope

variable {table : IndexedScope}

/-! ### In step -/

/-- The index gives each name its place. -/
def InStep (table : IndexedScope) : Prop :=
  ∀ name, table.index[name]? = table.scope.position? name

theorem inStep_empty : empty.InStep :=
  fun _ => Std.HashMap.getElem?_empty

namespace InStep

/-- In step, no look goes wrong, and the scope answers the same. -/
theorem resolve_eq (h : table.InStep) (name : String) :
    table.resolve name = some (table.scope.resolve name) := by
  rw [resolve, h name]
  cases hplace : table.scope.position? name with
  | none => rw [Scope.position?_eq_none_iff.1 hplace]
  | some place =>
    obtain ⟨binding, hbinding, hresolve⟩ := Scope.getElem?_of_position? hplace
    rw [hresolve]
    exact congrArg (Option.map some) hbinding

/-- A new name joins the index with the place at the end. -/
theorem push (h : table.InStep) {binding : Binding}
    (hfree : table.scope.resolve binding.name = none) :
    InStep ⟨table.bindings ++ [binding],
      table.index.insert binding.name table.bindings.length⟩ := by
  intro name
  show (table.index.insert binding.name table.bindings.length)[name]? =
    (table.scope.push binding).position? name
  rw [Std.HashMap.getElem?_insert, Scope.position?_push, h name]
  by_cases hname : binding.name = name
  · subst hname
    rw [Scope.position?_eq_none_iff.2 hfree]
    simp [scope]
  · simp [hname]

/-- **Trying a binding keeps the index in step**, and does what it does to the scope;
where the name is bound, nothing at all changes. -/
theorem bind (h : table.InStep) (binding : Binding) :
    ∃ behind, table.bind binding = some ((table.scope.bind binding).map fun _ => (), behind) ∧
      behind.InStep ∧ behind.scope = table.scope.after (.bind binding) ∧
      (table.scope.resolve binding.name ≠ none → behind = table) := by
  rw [Scope.after_bind, IndexedScope.bind, h binding.name, Scope.bind]
  cases hplace : table.scope.position? binding.name with
  | none =>
    have hfree := Scope.position?_eq_none_iff.1 hplace
    simp only [hfree, if_true]
    exact ⟨_, rfl, h.push hfree, rfl, fun hbound => absurd rfl hbound⟩
  | some place =>
    obtain ⟨bound, hbound, hresolve⟩ := Scope.getElem?_of_position? hplace
    have hlook : table.bindings[place]? = some bound := hbound
    refine ⟨table, ?_, h, by simp [hresolve], fun _ => rfl⟩
    by_cases hsame : bound = binding <;> simp [hlook, hresolve, hsame, Except.map]

theorem primaryOf_eq (h : table.InStep) (passed : Option Binding) (position : Nat)
    (stage : Surface.Stage) :
    table.primaryOf passed position stage =
      some (StagedQuery.primaryOf table.scope passed position stage) := by
  unfold primaryOf StagedQuery.primaryOf
  split
  · rfl
  · cases stage.inputName with
    | none => cases passed <;> rfl
    | some name =>
      simp only [h.resolve_eq]
      cases table.scope.resolve name <;> rfl

theorem inputsOf_eq (h : table.InStep) (primary : Binding) (body : String) :
    table.inputsOf primary body = some (StagedQuery.inputsOf table.scope primary body) := by
  have hlook : table.resolve = fun name => pure (table.scope.resolve name) := funext h.resolve_eq
  rw [inputsOf, StagedQuery.inputsOf, hlook, List.mapM_pure]
  show some (primary.toInput :: List.filterMap _ (List.map _ _)) = _
  rw [List.filterMap_map]
  rfl

theorem bindStage (h : table.InStep) (id : String) (aliasName : Option String) :
    ∃ behind, table.bindStage id aliasName =
        some ((StagedQuery.bindStage table.scope id aliasName).1, behind) ∧
      behind.InStep ∧ behind.scope = (StagedQuery.bindStage table.scope id aliasName).2 := by
  obtain ⟨withId, hbind, hwithId, hscope, -⟩ := h.bind (.ownId id)
  rw [IndexedScope.bindStage, StagedQuery.bindStage, hbind]
  cases hid : table.scope.bind (.ownId id) with
  | error fault =>
    rw [Scope.after_bind_of_error hid] at hscope
    exact ⟨withId, rfl, hwithId, hscope⟩
  | ok behind =>
    rw [Scope.after_bind_of_ok hid] at hscope
    subst hscope
    cases aliasName with
    | none => exact ⟨withId, rfl, hwithId, rfl⟩
    | some name =>
      -- the alias is tried on what the id left
      obtain ⟨withAlias, halias, hwithAlias, hscope', -⟩ := hwithId.bind (.stage name id)
      simp only [Except.map, halias]
      cases hname : withId.scope.bind (.stage name id) with
      | error fault =>
        rw [Scope.after_bind_of_error hname] at hscope'
        exact ⟨withAlias, rfl, hwithAlias, hscope'⟩
      | ok behind =>
        rw [Scope.after_bind_of_ok hname] at hscope'
        exact ⟨withAlias, rfl, hwithAlias, hscope'⟩

/-- **Expanding a stage keeps the index in step**, and does what it does on the scope. -/
theorem expandStage (h : table.InStep) (passed : Option Binding) (position : Nat)
    (stage : Surface.Stage) :
    ∃ behind, table.expandStage passed position stage =
        some ((StagedQuery.expandStage table.scope passed position stage).1, behind) ∧
      behind.InStep ∧
      behind.scope = (StagedQuery.expandStage table.scope passed position stage).2 := by
  rw [IndexedScope.expandStage, StagedQuery.expandStage, h.primaryOf_eq]
  cases StagedQuery.primaryOf table.scope passed position stage with
  | error fault => exact ⟨table, rfl, h, rfl⟩
  | ok primary =>
    obtain ⟨behind, hbind, hbehind, hscope⟩ := h.bindStage (stageId position) stage.aliasName
    simp only [h.inputsOf_eq, hbind]
    rcases hscope' : StagedQuery.bindStage table.scope (stageId position) stage.aliasName with
      ⟨fault | _, left⟩
    · rw [hscope'] at hscope
      exact ⟨behind, rfl, hbehind, hscope⟩
    · rw [hscope'] at hscope
      exact ⟨behind, rfl, hbehind, hscope⟩

theorem after (h : table.InStep) (step : Scope.Step) :
    ∃ behind, table.after step = some behind ∧ behind.InStep ∧
      behind.scope = table.scope.after step := by
  cases step with
  | bind binding =>
    obtain ⟨behind, hbind, hbehind, hscope, -⟩ := h.bind binding
    exact ⟨behind, by rw [IndexedScope.after, hbind, Option.map_some], hbehind, hscope⟩
  | stage passed position stage =>
    obtain ⟨behind, hstage, hbehind, hscope⟩ := h.expandStage passed position stage
    refine ⟨behind, by rw [IndexedScope.after, hstage, Option.map_some], hbehind, ?_⟩
    rw [hscope, Scope.after_stage]

/-- So does every run. -/
theorem run (h : table.InStep) (steps : List Scope.Step) :
    ∃ behind, table.run steps = some behind ∧ behind.InStep ∧
      behind.scope = table.scope.run steps := by
  induction steps generalizing table with
  | nil => exact ⟨table, rfl, h, rfl⟩
  | cons step rest ih =>
    obtain ⟨between, hstep, hbetween, hscope⟩ := h.after step
    obtain ⟨behind, hrest, hbehind, hscope'⟩ := ih hbetween
    refine ⟨behind, ?_, hbehind, ?_⟩
    · rw [IndexedScope.run, hstep]
      exact hrest
    · rw [hscope', hscope]
      rfl

end InStep

/-- The indexed scope stands for the scope. -/
structure Mirrors (table : IndexedScope) (scope : Scope) : Prop where
  /-- It has the same bindings in the same order. -/
  scope_eq : table.scope = scope
  /-- The index gives a name the place at which it stands, and no other place. -/
  index_iff : ∀ (name : String) (place : Nat), table.index[name]? = some place ↔
    ∃ binding : Binding, table.bindings[place]? = some binding ∧ binding.name = name
  /-- No look for a name goes wrong, and it finds what the scope does. -/
  resolves : ∀ name, table.resolve name = some (scope.resolve name)
  /-- Nor does binding one, which does what it does to the scope; where the name is
  bound already, what is left is the very same. -/
  binds : ∀ binding, ∃ behind,
    table.bind binding = some ((scope.bind binding).map fun _ => (), behind) ∧
      behind.scope = scope.after (.bind binding) ∧
      (scope.resolve binding.name ≠ none → behind = table)
  /-- Nor does expanding a stage. -/
  expands : ∀ passed position stage, ∃ behind,
    table.expandStage passed position stage =
        some ((StagedQuery.expandStage scope passed position stage).1, behind) ∧
      behind.scope = (StagedQuery.expandStage scope passed position stage).2

theorem InStep.mirrors (h : table.InStep) (hdistinct : table.scope.Distinct) :
    table.Mirrors table.scope where
  scope_eq := rfl
  index_iff name place := by
    rw [h name]
    exact hdistinct.position?_eq_some_iff
  resolves := h.resolve_eq
  binds binding := by
    obtain ⟨behind, hbind, -, hscope, hsame⟩ := h.bind binding
    exact ⟨behind, hbind, hscope, hsame⟩
  expands passed position stage := by
    obtain ⟨behind, hstage, -, hscope⟩ := h.expandStage passed position stage
    exact ⟨behind, hstage, hscope⟩

end IndexedScope

/-! ### Runs -/

/-- **Names persist.**  Wherever steps lead from no names or from declared inputs,
whatever fails on the way, the scope is coherent; and the same steps on an indexed scope,
behind those that bind the names of the start, have an outcome, which stands for it. -/
theorem names_persist {start : Scope} (hstart : start.Initial) (steps : List Scope.Step) :
    (start.run steps).Coherent ∧
      ∃ table, IndexedScope.empty.run (start.bindings.map .bind ++ steps) = some table ∧
        table.Mirrors (start.run steps) := by
  have hcoherent := Scope.coherent_run hstart steps
  obtain ⟨table, htable, hinStep, hscope⟩ :=
    IndexedScope.inStep_empty.run (start.bindings.map .bind ++ steps)
  -- the names of the start are distinct, so binding them again gives the start
  have hrun : table.scope = start.run steps := by
    rw [hscope, Scope.run_append]
    exact congrArg (Scope.run · _) hstart.distinct.run_bindings
  refine ⟨hcoherent, table, htable, ?_⟩
  rw [← hrun] at hcoherent ⊢
  exact hinStep.mirrors hcoherent.distinct

/-- A stage with an alias, an attempt to take the alias for a dataset, the same stage
again with the name of an input for its alias, and the first alias again. -/
def contested : List Scope.Step :=
  [.stage none 0 ⟨some "base", some "in", "filter true"⟩, .bind (.dataset "base" "9"),
    .stage (some (.dataset "x" "1")) 0 ⟨some "in", none, "sort time"⟩,
    .bind (.stage "base" "stage-0")]

/-- The names of the first stage are bound, and stay what they are. -/
theorem contested_persists :
    Scope.Initial ⟨[.dataset "in" "7"]⟩ ∧
      (Scope.run ⟨[.dataset "in" "7"]⟩ contested).Coherent ∧
      ∃ table, IndexedScope.empty.run (.bind (.dataset "in" "7") :: contested) = some table ∧
        table.Mirrors ⟨[.dataset "in" "7", .ownId "stage-0", .stage "base" "stage-0"]⟩ := by
  have hscope : (Inputs.ofList [("in", "7")]).scope Dataset.bareId? =
      .ok ⟨[.dataset "in" "7"]⟩ := by decide +kernel
  have hrun : Scope.run ⟨[.dataset "in" "7"]⟩ contested =
      ⟨[.dataset "in" "7", .ownId "stage-0", .stage "base" "stage-0"]⟩ := by decide +kernel
  obtain ⟨hcoherent, table, htable, hmirrors⟩ := names_persist (.declared hscope) contested
  rw [hrun] at hmirrors
  exact ⟨.declared hscope, hcoherent, table, htable, hmirrors⟩

end StagedQuery
