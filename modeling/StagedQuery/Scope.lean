/-
StagedQuery/Scope.lean

The names that are visible at a stage, and what each stands for.

A scope only grows: a name is bound once and never gets another target, so what
a stage sees are the names bound before it.  Binding a name again to what it
stands for already changes nothing; binding it to anything else is refused.

The bindings are a plain list in the order they were made, which is the view all
statements are about.  `resolve` finds the binding of a name, `position?` its
place, `sortedNames` all names in code-point order.
-/
import StagedQuery.Backend
import StagedQuery.Fault

namespace StagedQuery

/-- What a name can stand for. -/
inductive Target where
  /-- The dataset with this bare id. -/
  | dataset (id : String)
  /-- The output of the stage with this id. -/
  | stage (id : String)
  deriving DecidableEq, Repr

/-- A name together with what it stands for. -/
structure Binding where
  /-- The name. -/
  name : String
  /-- What it stands for. -/
  target : Target
  deriving DecidableEq, Repr

namespace Binding

/-- A name for a dataset. -/
def dataset (name id : String) : Binding :=
  ⟨name, .dataset id⟩

/-- A name for the output of a stage. -/
def stage (name id : String) : Binding :=
  ⟨name, .stage id⟩

/-- The output of a stage under its own id. -/
def ownId (id : String) : Binding :=
  stage id id

/-- The binding as an input of a backend stage. -/
def toInput (binding : Binding) : Backend.Input :=
  match binding.target with
  | .dataset id => .dataset binding.name id
  | .stage id => .ofStage binding.name id

end Binding

/-- The names bound so far, in the order they were bound. -/
structure Scope where
  /-- The bindings. -/
  bindings : List Binding := []
  deriving DecidableEq, Repr

namespace Scope

/-- No name is bound. -/
def empty : Scope := ⟨[]⟩

instance : Inhabited Scope := ⟨empty⟩

/-- The binding of a name. -/
def resolve (scope : Scope) (name : String) : Option Binding :=
  scope.bindings.find? fun binding => binding.name = name

/-- The place of a name among the bindings. -/
def position? (scope : Scope) (name : String) : Option Nat :=
  scope.bindings.findIdx? fun binding => binding.name = name

/-- Bind a name at the end. -/
def push (scope : Scope) (binding : Binding) : Scope :=
  ⟨scope.bindings ++ [binding]⟩

/-- Bind a name, unless it stands for something else already. -/
def bind (scope : Scope) (binding : Binding) : Except Fault Scope :=
  match scope.resolve binding.name with
  | none => .ok (scope.push binding)
  | some bound => if bound = binding then .ok scope else .error (.nameTaken binding.name)

/-- Every bound name, in code-point order. -/
def sortedNames (scope : Scope) : List String :=
  (scope.bindings.map (·.name)).mergeSort fun a b => decide (a ≤ b)

/-- The only binding, if there is exactly one. -/
def only? (scope : Scope) : Option Binding :=
  match scope.bindings with
  | [binding] => some binding
  | _ => none

/-- How many names are bound. -/
def size (scope : Scope) : Nat :=
  scope.bindings.length

/-- Whether no name is bound. -/
def isEmpty (scope : Scope) : Bool :=
  scope.bindings.isEmpty

end Scope

end StagedQuery
