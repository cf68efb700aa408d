/-
StagedQuery/Proofs/StageInputs.lean

The inputs an expanded stage lists.  Behind its primary input come the
supplemental ones, and these depend on three things only: which bindings are
visible, what the primary input is called, and what the body mentions.  The
predicate

    Supplements visible primary body binding

says of one binding that it is among them.  Since supplemental inputs stand in
strictly increasing order of their names, the predicate determines the list: two
stages with the same supplements list the same inputs (`supplementals_congr`),
whatever the scopes are that these are read from.
-/
import StagedQuery.Expansion
import StagedQuery.Proofs.Scope

namespace StagedQuery

open Scope

variable {scope : Scope} {visible : List Binding} {primary binding : Binding} {body : String}

/-! ### The names of a scope -/

theorem mem_sortedNames {name : String} :
    name ∈ scope.sortedNames ↔ ∃ binding ∈ scope.bindings, binding.name = name := by
  simp [sortedNames]

/-- The order is that of any other way to sort; this one can be followed on
given names. -/
theorem sortedNames_eq_insertionSort (scope : Scope) :
    scope.sortedNames = (scope.bindings.map (·.name)).insertionSort (· ≤ ·) := by
  rw [sortedNames, ← List.mergeSort_eq_insertionSort]

/-- The names of a scope are in order, also where one of them is bound twice. -/
theorem pairwise_sortedNames (scope : Scope) : scope.sortedNames.Pairwise (· ≤ ·) := by
  have hle : scope.sortedNames.Pairwise fun a b => decide (a ≤ b) = true := by
    apply List.pairwise_mergeSort
    · intro a b c hab hbc
      simp only [decide_eq_true_eq] at hab hbc ⊢
      exact String.le_trans hab hbc
    · intro a b
      simpa using String.le_total a b
  exact hle.imp fun hab => of_decide_eq_true hab

/-- They increase strictly where no name is bound twice. -/
theorem Scope.Distinct.increasing_sortedNames (h : scope.Distinct) :
    scope.sortedNames.Pairwise (· < ·) := by
  have hne : scope.sortedNames.Pairwise (· ≠ ·) := by
    have hnames : (scope.bindings.map (·.name)).Nodup := List.pairwise_map.2 h
    exact (List.mergeSort_perm _ _).nodup_iff.2 hnames
  exact ((pairwise_sortedNames scope).and hne).imp fun hab => Std.lt_of_le_of_ne hab.1 hab.2

/-! ### Supplemental inputs -/

/-- The binding is listed behind the primary one: it is visible under another
name than that one's, and the body mentions it. -/
structure Supplements (visible : List Binding) (primary : Binding) (body : String)
    (binding : Binding) : Prop where
  /-- The binding is visible. -/
  visible : binding ∈ visible
  /-- Only the name of the primary input counts, not what it stands for. -/
  other : binding.name ≠ primary.name
  /-- The empty name is never found in a body. -/
  nonempty : binding.name ≠ ""
  /-- The body mentions the name. -/
  mentioned : Text.mentions body binding.name = true

/-- The bindings behind the primary one of a stage. -/
def supplementals (scope : Scope) (primary : Binding) (body : String) : List Binding :=
  (supplementalNames scope primary body).filterMap scope.resolve

theorem inputsOf_eq (scope : Scope) (primary : Binding) (body : String) :
    inputsOf scope primary body =
      primary.toInput :: (supplementals scope primary body).map Binding.toInput := by
  rw [inputsOf, supplementals, List.map_filterMap]

theorem mem_supplementalNames {name : String} :
    name ∈ supplementalNames scope primary body ↔
      (∃ binding ∈ scope.bindings, binding.name = name) ∧ name ≠ primary.name ∧ name ≠ "" ∧
        Text.mentions body name = true := by
  rw [supplementalNames, Text.mem_mentioned, List.mem_filter, mem_sortedNames, decide_eq_true_eq,
    and_assoc]

theorem mem_supplementals (h : scope.Holds visible) :
    binding ∈ supplementals scope primary body ↔ Supplements visible primary body binding := by
  simp only [supplementals, List.mem_filterMap, mem_supplementalNames, h.resolve_eq_some_iff]
  constructor
  · rintro ⟨name, ⟨-, hother, hnonempty, hmentioned⟩, hvisible, rfl⟩
    exact ⟨hvisible, hother, hnonempty, hmentioned⟩
  · intro hs
    have hbound : binding ∈ scope.bindings := (h.mem_iff binding).2 hs.visible
    exact ⟨binding.name, ⟨⟨binding, hbound, rfl⟩, hs.other, hs.nonempty, hs.mentioned⟩,
      hs.visible, rfl⟩

/-- Each name that is found is bound, so the supplemental inputs go by these names. -/
theorem map_name_supplementals (scope : Scope) (primary : Binding) (body : String) :
    (supplementals scope primary body).map (·.name) = supplementalNames scope primary body := by
  have hsame : ∀ name ∈ supplementalNames scope primary body,
      (scope.resolve name).map (·.name) = some name := by
    intro name hname
    obtain ⟨⟨bound, hbound, rfl⟩, -⟩ := mem_supplementalNames.1 hname
    cases hresolve : scope.resolve bound.name with
    | none => exact absurd rfl (resolve_eq_none_iff.1 hresolve bound hbound)
    | some found => exact congrArg some (name_of_resolve hresolve)
  rw [supplementals, List.map_filterMap, List.filterMap_congr hsame, List.filterMap_some]

/-- The supplemental inputs are ordered as the names of the scope are. -/
theorem pairwise_supplementals {R : String → String → Prop} (h : scope.sortedNames.Pairwise R) :
    (supplementals scope primary body).Pairwise fun a b => R a.name b.name := by
  have hnames : (supplementalNames scope primary body).Pairwise R := (h.filter _).filter _
  rw [← map_name_supplementals] at hnames
  exact List.pairwise_map.1 hnames

theorem increasing_supplementals (h : scope.Distinct) :
    (supplementals scope primary body).Pairwise fun a b => a.name < b.name :=
  pairwise_supplementals h.increasing_sortedNames

/-- The supplemental inputs are determined by what supplements the stage. -/
theorem supplementals_congr {scope' : Scope} {visible' : List Binding} {primary' : Binding}
    (h : scope.Holds visible) (h' : scope'.Holds visible')
    (same : ∀ binding, Supplements visible primary body binding ↔
      Supplements visible' primary' body binding) :
    supplementals scope primary body = supplementals scope' primary' body := by
  apply eq_of_increasing_names Binding.name (increasing_supplementals h.distinct)
    (increasing_supplementals h'.distinct)
  intro binding
  rw [mem_supplementals h, mem_supplementals h', same]

/-! ### All inputs -/

theorem head?_inputsOf : (inputsOf scope primary body).head? = some primary.toInput := rfl

/-- Every input of a stage is the primary one or supplements it. -/
theorem mem_inputsOf (h : scope.Holds visible) {input : Backend.Input} :
    input ∈ inputsOf scope primary body ↔
      ∃ binding, binding.toInput = input ∧
        (binding = primary ∨ Supplements visible primary body binding) := by
  rw [inputsOf_eq, List.mem_cons, List.mem_map]
  constructor
  · rintro (rfl | ⟨binding, hbinding, rfl⟩)
    · exact ⟨primary, rfl, .inl rfl⟩
    · exact ⟨binding, rfl, .inr ((mem_supplementals h).1 hbinding)⟩
  · rintro ⟨binding, rfl, rfl | hs⟩
    · exact .inl rfl
    · exact .inr ⟨binding, (mem_supplementals h).2 hs, rfl⟩

end StagedQuery
