/-
StagedQuery/Proofs/Scope.lean

What a scope holds.  A scope is only ever built by `bind`, so no name occurs in
it twice, and everything a later pass asks of it depends on the bindings alone,
not on the order in which they came.  The relation

    scope.Holds bindings

says just that: names are distinct, and the bindings of the scope are the listed
ones.  The list may repeat itself and is in any order; this is the view in which
scopes are described from here on, since a list of declarations, ids and aliases
is easily written down where the scope itself is the outcome of a run.

Main statements: `Holds.bindAll`, binding a list of names appends it to the view;
`Holds.exists_bindAll`, this succeeds where no name gets two targets; and
`Holds.resolve_eq_some_iff`, looking a name up finds the binding in the view.
-/
import Mathlib.Data.List.Sort
import StagedQuery.Scope

namespace StagedQuery

/-! ### Names with one target -/

/-- No name is given two targets. -/
def SingleTarget (bindings : List Binding) : Prop :=
  ∀ binding ∈ bindings, ∀ other ∈ bindings, binding.name = other.name → binding = other

theorem SingleTarget.mono {bindings others : List Binding} (h : SingleTarget bindings)
    (hsub : ∀ binding ∈ others, binding ∈ bindings) : SingleTarget others :=
  fun binding hbinding other hother => h binding (hsub binding hbinding) other (hsub other hother)

/-- Lists that increase by name are determined by what they hold. -/
theorem eq_of_increasing_names {α : Type*} (name : α → String) {entries others : List α}
    (h : entries.Pairwise fun a b => name a < name b)
    (h' : others.Pairwise fun a b => name a < name b)
    (same : ∀ entry, entry ∈ entries ↔ entry ∈ others) : entries = others := by
  have irrefl : Std.Irrefl fun a b : α => name a < name b :=
    ⟨fun a => String.lt_irrefl (name a)⟩
  have perm : entries.Perm others := (List.perm_ext_iff_of_nodup h.nodup h'.nodup).2 same
  refine perm.eq_of_pairwise (fun a b _ _ hab hba => ?_) h h'
  exact absurd (String.lt_trans hab hba) (String.lt_irrefl _)

namespace Scope

/-! ### One name -/

/-- No name is bound twice. -/
def Distinct (scope : Scope) : Prop :=
  scope.bindings.Pairwise fun a b => a.name ≠ b.name

theorem Distinct.singleTarget {scope : Scope} (h : scope.Distinct) :
    SingleTarget scope.bindings := by
  intro binding hbinding other hother
  refine List.Pairwise.forall_of_forall_of_flip (R := fun a b => a.name = b.name → a = b)
    (fun _ _ _ => rfl) (h.imp fun hne hname => absurd hname hne)
    (h.imp fun hne hname => absurd hname.symm hne) hbinding hother

theorem resolve_eq_none_iff {scope : Scope} {name : String} :
    scope.resolve name = none ↔ ∀ binding ∈ scope.bindings, binding.name ≠ name := by
  simp [resolve]

theorem name_of_resolve {scope : Scope} {name : String} {binding : Binding}
    (h : scope.resolve name = some binding) : binding.name = name := by
  simpa using List.find?_some h

theorem mem_of_resolve {scope : Scope} {name : String} {binding : Binding}
    (h : scope.resolve name = some binding) : binding ∈ scope.bindings :=
  List.mem_of_find?_eq_some h

/-- Binding one name leaves the others free. -/
theorem resolve_push_eq_none {scope : Scope} {binding : Binding} {name : String}
    (h : scope.resolve name = none) (hne : binding.name ≠ name) :
    (scope.push binding).resolve name = none := by
  apply resolve_eq_none_iff.2
  intro other hother
  rcases List.mem_append.1 hother with hold | hnew
  · exact resolve_eq_none_iff.1 h other hold
  · rwa [List.mem_singleton.1 hnew]

/-- All that binding a name can do. -/
theorem bind_eq_ok_iff {scope behind : Scope} {binding : Binding} :
    scope.bind binding = .ok behind ↔
      (scope.resolve binding.name = none ∧ behind = scope.push binding) ∨
        (scope.resolve binding.name = some binding ∧ behind = scope) := by
  rw [bind]
  cases h : scope.resolve binding.name with
  | none => simp [eq_comm]
  | some bound =>
    by_cases hbound : bound = binding
    · simp [hbound, eq_comm]
    · simp [hbound]

theorem only?_eq_some_iff {scope : Scope} {binding : Binding} :
    scope.only? = some binding ↔ scope.bindings = [binding] := by
  rw [only?]
  split
  · next only hbindings => simp [hbindings, eq_comm]
  · next hmany => simpa using hmany binding

theorem only?_eq_none_iff {scope : Scope} :
    scope.only? = none ↔ scope.bindings.length ≠ 1 := by
  rw [only?]
  split
  · next only hbindings => simp [hbindings]
  · next hmany =>
    simp only [true_iff, ne_eq, List.length_eq_one_iff]
    rintro ⟨only, hbindings⟩
    exact hmany only hbindings

/-! ### The view -/

/-- The scope binds each name at most once, and binds exactly what is listed. -/
structure Holds (scope : Scope) (bindings : List Binding) : Prop where
  /-- No name is bound twice. -/
  distinct : scope.Distinct
  /-- What is bound is what is listed. -/
  mem_iff : ∀ binding, binding ∈ scope.bindings ↔ binding ∈ bindings

variable {scope behind : Scope} {bindings : List Binding}

theorem Holds.singleTarget (h : scope.Holds bindings) : SingleTarget bindings :=
  h.distinct.singleTarget.mono fun binding => (h.mem_iff binding).2

theorem Holds.congr (h : scope.Holds bindings) {others : List Binding}
    (same : ∀ binding, binding ∈ bindings ↔ binding ∈ others) : scope.Holds others :=
  ⟨h.distinct, fun binding => (h.mem_iff binding).trans (same binding)⟩

theorem Holds.resolve_eq_some_iff (h : scope.Holds bindings) {name : String}
    {binding : Binding} :
    scope.resolve name = some binding ↔ binding ∈ bindings ∧ binding.name = name := by
  constructor
  · intro hresolve
    exact ⟨(h.mem_iff binding).1 (mem_of_resolve hresolve), name_of_resolve hresolve⟩
  · rintro ⟨hbinding, rfl⟩
    have hmem := (h.mem_iff binding).2 hbinding
    cases hresolve : scope.resolve binding.name with
    | none => exact absurd rfl (resolve_eq_none_iff.1 hresolve binding hmem)
    | some bound =>
      exact congrArg some
        (h.distinct.singleTarget bound (mem_of_resolve hresolve) binding hmem
          (name_of_resolve hresolve))

/-- The only binding of a scope is all it holds. -/
theorem Holds.only?_eq_some_iff (h : scope.Holds bindings) {binding : Binding} :
    scope.only? = some binding ↔ ∀ other, other ∈ bindings ↔ other = binding := by
  obtain ⟨entries⟩ := scope
  have hentries : ∀ other, other ∈ entries ↔ other ∈ bindings := h.mem_iff
  have hdistinct : entries.Pairwise fun a b => a.name ≠ b.name := h.distinct
  simp only [← hentries]
  match entries, hdistinct with
  | [], _ => exact ⟨nofun, fun same => absurd ((same binding).2 rfl) List.not_mem_nil⟩
  | [only], _ => simp [only?, eq_comm]
  | first :: second :: rest, hdistinct =>
    refine ⟨nofun, fun same => ?_⟩
    have hfirst := (same first).1 List.mem_cons_self
    have hsecond := (same second).1 (List.mem_cons_of_mem _ List.mem_cons_self)
    have hne := (List.pairwise_cons.1 hdistinct).1 second List.mem_cons_self
    exact absurd (congrArg Binding.name (hfirst.trans hsecond.symm)) hne

theorem Holds.bind {binding : Binding} (h : scope.Holds bindings)
    (hbind : scope.bind binding = .ok behind) : behind.Holds (bindings ++ [binding]) := by
  rcases bind_eq_ok_iff.1 hbind with ⟨hfree, rfl⟩ | ⟨hbound, rfl⟩
  · refine ⟨List.pairwise_append.2 ⟨h.distinct, List.pairwise_singleton _ _, ?_⟩, ?_⟩
    · intro earlier hearlier new hnew
      rw [List.mem_singleton.1 hnew]
      exact resolve_eq_none_iff.1 hfree earlier hearlier
    · intro other
      simp [push, h.mem_iff]
  · -- bound already: the view lists it twice
    refine h.congr fun other => ?_
    rw [List.mem_append, List.mem_singleton]
    refine ⟨Or.inl, ?_⟩
    rintro (hother | rfl)
    · exact hother
    · exact (h.resolve_eq_some_iff.1 hbound).1

theorem Holds.exists_bind {binding : Binding} (h : scope.Holds bindings)
    (hsingle : SingleTarget (bindings ++ [binding])) :
    ∃ behind, scope.bind binding = .ok behind := by
  cases hresolve : scope.resolve binding.name with
  | none => exact ⟨_, bind_eq_ok_iff.2 (.inl ⟨hresolve, rfl⟩)⟩
  | some bound =>
    obtain ⟨hbound, hname⟩ := h.resolve_eq_some_iff.1 hresolve
    have heq : bound = binding :=
      hsingle bound (List.mem_append_left _ hbound) binding
        (List.mem_append_right _ List.mem_cons_self) hname
    exact ⟨_, bind_eq_ok_iff.2 (.inr ⟨heq ▸ hresolve, rfl⟩)⟩

/-- Binding a name is refused where it stands for something else. -/
theorem Holds.bind_eq_error_iff {binding : Binding} {fault : Fault} (h : scope.Holds bindings) :
    scope.bind binding = .error fault ↔
      fault = .nameTaken binding.name ∧
        ∃ other ∈ bindings, other.name = binding.name ∧ other ≠ binding := by
  rw [Scope.bind]
  cases hresolve : scope.resolve binding.name with
  | none =>
    refine ⟨nofun, ?_⟩
    rintro ⟨-, other, hother, hname, -⟩
    exact absurd hname (resolve_eq_none_iff.1 hresolve other ((h.mem_iff other).2 hother))
  | some bound =>
    obtain ⟨hbound, hname⟩ := h.resolve_eq_some_iff.1 hresolve
    by_cases hsame : bound = binding
    · -- the name has one target, so nothing else goes by it
      simp only [hsame, if_true, reduceCtorEq, false_iff]
      rintro ⟨-, other, hother, hother', hne⟩
      exact hne ((h.singleTarget other hother bound hbound (hother'.trans hname.symm)).trans hsame)
    · simp only [hsame, if_false, Except.error.injEq]
      exact ⟨fun heq => ⟨heq.symm, bound, hbound, hname, hsame⟩, fun hfault => hfault.1.symm⟩

/-! ### Several names -/

/-- Bind one name after the other. -/
def bindAll (scope : Scope) : List Binding → Except Fault Scope
  | [] => .ok scope
  | binding :: rest =>
    match scope.bind binding with
    | .error fault => .error fault
    | .ok behind => behind.bindAll rest

theorem bindAll_cons_eq_ok_iff {binding : Binding} {rest : List Binding} :
    scope.bindAll (binding :: rest) = .ok behind ↔
      ∃ between, scope.bind binding = .ok between ∧ between.bindAll rest = .ok behind := by
  rw [bindAll]
  cases scope.bind binding <;> simp

theorem Holds.bindAll {new : List Binding} (h : scope.Holds bindings)
    (hbind : scope.bindAll new = .ok behind) : behind.Holds (bindings ++ new) := by
  induction new generalizing scope bindings with
  | nil =>
    cases hbind
    rwa [List.append_nil]
  | cons binding rest ih =>
    obtain ⟨between, hfirst, hrest⟩ := bindAll_cons_eq_ok_iff.1 hbind
    have := ih (h.bind hfirst) hrest
    rwa [List.append_assoc] at this

/-- Names can be bound where none of them, nor any bound before, gets two
targets. -/
theorem Holds.exists_bindAll {new : List Binding} (h : scope.Holds bindings)
    (hsingle : SingleTarget (bindings ++ new)) : ∃ behind, scope.bindAll new = .ok behind := by
  induction new generalizing scope bindings with
  | nil => exact ⟨scope, rfl⟩
  | cons binding rest ih =>
    rw [List.append_cons] at hsingle
    obtain ⟨between, hfirst⟩ := h.exists_bind
      (hsingle.mono fun other => List.mem_append_left _)
    obtain ⟨behind, hrest⟩ := ih (h.bind hfirst) hsingle
    exact ⟨behind, bindAll_cons_eq_ok_iff.2 ⟨between, hfirst, hrest⟩⟩

end Scope

end StagedQuery
