/-
StagedQuery/Proofs/Declaration.lean

When inputs can be declared, and what scope they give.

Declared names are distinct, so that the binding of one never fails on account
of another: nothing can go wrong but what `Declarable` rules out of each entry
on its own, and `EntryRefused` tells apart.  The scope is then the list of all
entries, in order, each standing for the dataset whose id the validator gave.

Main statements: `Inputs.scope_eq_ok_iff`, and `Inputs.scope_eq_error_iff` on the
inputs that cannot be declared.
-/
import StagedQuery.Declaration
import StagedQuery.Proofs.FirstFault
import StagedQuery.Proofs.Scope

namespace StagedQuery

/-! ### One entry -/

/-- Nothing is wrong with an entry: its name is not kept for stages, its
reference is not blank, and the validator accepts it. -/
structure Declarable (validate : Validator) (entry : String × String) : Prop where
  /-- The name is not of the form of a stage id. -/
  free : StageId.hasForm entry.1 = false
  /-- There is a reference. -/
  nonblank : Text.allBlank entry.2 = false
  /-- The reference is one to a dataset. -/
  accepted : (validate entry.2).isSome = true

/-- Why an entry cannot be declared: the first reason that applies. -/
inductive EntryRefused (validate : Validator) (entry : String × String) : Fault → Prop
  | reserved {position : Nat} (hlimit : position < positionLimit)
      (hname : entry.1 = stageId position) :
      EntryRefused validate entry (.reservedName entry.1)
  | blank (hfree : ¬ ∃ position < positionLimit, entry.1 = stageId position)
      (hblank : Text.allBlank entry.2 = true) :
      EntryRefused validate entry (.blankReference entry.1)
  | rejected (hfree : ¬ ∃ position < positionLimit, entry.1 = stageId position)
      (hnonblank : Text.allBlank entry.2 = false) (hrejected : validate entry.2 = none) :
      EntryRefused validate entry (.badReference entry.1 entry.2)

theorem exists_entryRefused {validate : Validator} {entry : String × String}
    (h : ¬ Declarable validate entry) : ∃ fault, EntryRefused validate entry fault := by
  by_cases hform : StageId.hasForm entry.1 = true
  · obtain ⟨position, hlimit, hname⟩ := StageId.hasForm_iff.1 hform
    exact ⟨_, .reserved hlimit hname⟩
  have hfree : ¬ ∃ position < positionLimit, entry.1 = stageId position :=
    fun hname => hform (StageId.hasForm_iff.2 hname)
  cases hblank : Text.allBlank entry.2 with
  | true => exact ⟨_, .blank hfree hblank⟩
  | false =>
    cases hvalid : validate entry.2 with
    | none => exact ⟨_, .rejected hfree hblank hvalid⟩
    | some id => exact absurd ⟨by simpa using hform, hblank, by simp [hvalid]⟩ h

/-- An entry can be declared where there is no reason to refuse it. -/
theorem declarable_iff {validate : Validator} {entry : String × String} :
    Declarable validate entry ↔ ∀ fault, ¬ EntryRefused validate entry fault := by
  constructor
  · intro h fault hrefused
    cases hrefused with
    | reserved hlimit hname => exact StageId.ne_of_hasForm_eq_false h.free hlimit hname
    | blank _ hblank => cases h.nonblank.symm.trans hblank
    | rejected _ _ hrejected =>
      have haccepted := h.accepted
      rw [hrejected] at haccepted
      cases haccepted
  · intro h
    by_contra hentry
    obtain ⟨fault, hrefused⟩ := exists_entryRefused hentry
    exact h fault hrefused

/-- What the validator is asked about an entry that is looked at: its reference,
where nothing rules the entry out before. -/
def askedOf (entry : String × String) : List String :=
  if StageId.hasForm entry.1 || Text.allBlank entry.2 then [] else [entry.2]

/-- What an entry binds, where the validator accepts its reference. -/
def entryBinding? (validate : Validator) (entry : String × String) : Option Binding :=
  (validate entry.2).map (Binding.dataset entry.1)

theorem entryBinding?_eq_some_iff {validate : Validator} {entry : String × String}
    {binding : Binding} :
    entryBinding? validate entry = some binding ↔
      ∃ id, validate entry.2 = some id ∧ binding = .dataset entry.1 id := by
  simp [entryBinding?, eq_comm]

/-! ### All entries -/

/-- What declared inputs bind, in their order. -/
def Inputs.bound (inputs : Inputs) (validate : Validator) : List Binding :=
  inputs.entries.filterMap (entryBinding? validate)

namespace Inputs

variable {inputs : Inputs} {validate : Validator} {binding : Binding}

theorem mem_bound :
    binding ∈ inputs.bound validate ↔
      ∃ name reference id, (name, reference) ∈ inputs.entries ∧
        validate reference = some id ∧ binding = .dataset name id := by
  simp only [bound, List.mem_filterMap, entryBinding?_eq_some_iff]
  constructor
  · rintro ⟨⟨name, reference⟩, hentry, id, hid, rfl⟩
    exact ⟨name, reference, id, hentry, hid, rfl⟩
  · rintro ⟨name, reference, id, hentry, hid, rfl⟩
    exact ⟨(name, reference), hentry, id, hid, rfl⟩

theorem increasing_bound : (inputs.bound validate).Pairwise fun a b => a.name < b.name := by
  apply inputs.increasing.filterMap
  intro entry entry' hlt a ha b hb
  obtain ⟨id, -, rfl⟩ := entryBinding?_eq_some_iff.1 ha
  obtain ⟨id', -, rfl⟩ := entryBinding?_eq_some_iff.1 hb
  exact hlt

/-- The declared names are distinct, so what they bind is a scope. -/
theorem holds_bound : (Scope.mk (inputs.bound validate)).Holds (inputs.bound validate) := by
  refine ⟨increasing_bound.imp fun {a b} hlt hname => ?_, fun _ => Iff.rfl⟩
  exact String.lt_irrefl b.name (hname ▸ hlt)

/-- Nothing is wrong with the declared inputs. -/
structure Proper (inputs : Inputs) (validate : Validator) : Prop where
  /-- Something is declared. -/
  nonempty : inputs.entries ≠ []
  /-- Nothing is wrong with any entry. -/
  declarable : ∀ entry ∈ inputs.entries, Declarable validate entry

end Inputs

/-- Where nothing is wrong with the inputs, each of them is bound. -/
theorem Inputs.Proper.length_bound {inputs : Inputs} {validate : Validator}
    (h : inputs.Proper validate) : (inputs.bound validate).length = inputs.entries.length := by
  rw [Inputs.bound, List.filterMap_length_eq_length]
  intro entry hentry
  rw [entryBinding?, Option.isSome_map]
  exact (h.declarable entry hentry).accepted

/-- The only binding is that of the only declared input. -/
theorem Inputs.Proper.only?_eq_some_iff {inputs : Inputs} {validate : Validator}
    {binding : Binding} (h : inputs.Proper validate) :
    (Scope.mk (inputs.bound validate)).only? = some binding ↔
      ∃ name reference id, inputs.entries = [(name, reference)] ∧
        validate reference = some id ∧ binding = .dataset name id := by
  rw [Scope.only?_eq_some_iff]
  show inputs.bound validate = [binding] ↔ _
  constructor
  · intro hbound
    have hlength := h.length_bound
    rw [hbound, List.length_singleton] at hlength
    obtain ⟨⟨name, reference⟩, hentries⟩ := List.length_eq_one_iff.1 hlength.symm
    have hbinding : binding ∈ inputs.bound validate := hbound ▸ List.mem_singleton_self binding
    obtain ⟨name', reference', id, hentry, hid, rfl⟩ := Inputs.mem_bound.1 hbinding
    rw [hentries, List.mem_singleton] at hentry
    cases hentry
    exact ⟨name, reference, id, hentries, hid, rfl⟩
  · rintro ⟨name, reference, id, hentries, hid, rfl⟩
    simp [Inputs.bound, hentries, entryBinding?, hid]

/-! ### Declaring them -/

section Entries

variable {validate : Validator} {scope behind : Scope} {entry : String × String}
  {rest entries : List (String × String)} {fault : Fault}

/-- Declaring stops at an entry that is refused. -/
theorem declareEntries_of_refused (h : EntryRefused validate entry fault) :
    declareEntries validate scope (entry :: rest) = (.error fault, askedOf entry) := by
  obtain ⟨name, reference⟩ := entry
  rw [declareEntries, askedOf]
  cases h with
  | reserved hlimit hname =>
    have hform := StageId.hasForm_iff.2 ⟨_, hlimit, hname⟩
    rw [if_pos hform, if_pos (by simp [hform])]
  | blank hfree hblank =>
    have hform : ¬ StageId.hasForm name = true := fun hform => hfree (StageId.hasForm_iff.1 hform)
    rw [if_neg hform, if_pos hblank, if_pos (by simp [hblank])]
  | rejected hfree hnonblank hrejected =>
    have hform : ¬ StageId.hasForm name = true := fun hform => hfree (StageId.hasForm_iff.1 hform)
    rw [if_neg hform, if_neg (by simp [hnonblank]), hrejected, if_neg (by simp [hform, hnonblank])]

/-- An entry under a free name is bound where nothing is wrong with it, and
declaring goes on. -/
theorem declareEntries_of_declarable (h : Declarable validate entry)
    (hname : scope.resolve entry.1 = none) :
    ∃ binding, entryBinding? validate entry = some binding ∧ ∀ rest,
      declareEntries validate scope (entry :: rest) =
        ((declareEntries validate (scope.push binding) rest).1,
          entry.2 :: (declareEntries validate (scope.push binding) rest).2) := by
  obtain ⟨name, reference⟩ := entry
  obtain ⟨id, hid⟩ := Option.isSome_iff_exists.1 h.accepted
  have hbind : scope.bind (.dataset name id) = .ok (scope.push (.dataset name id)) :=
    Scope.bind_eq_ok_iff.2 (.inl ⟨hname, rfl⟩)
  refine ⟨.dataset name id, entryBinding?_eq_some_iff.2 ⟨id, hid, rfl⟩, fun rest => ?_⟩
  rw [declareEntries, if_neg (by simp [h.free]), if_neg (by simp [h.nonblank]), hid]
  simp only [hbind]

/-- The names that follow lie beyond the one bound, so they stay free. -/
theorem free_of_push {binding : Binding} (hincreasing : Increasing (entry :: rest))
    (hfree : ∀ entry' ∈ entry :: rest, scope.resolve entry'.1 = none)
    (hbinding : entryBinding? validate entry = some binding) :
    ∀ entry' ∈ rest, (scope.push binding).resolve entry'.1 = none := by
  intro entry' hmem
  obtain ⟨id, -, rfl⟩ := entryBinding?_eq_some_iff.1 hbinding
  have hlt : entry.1 < entry'.1 := lt_of_mem_rest hincreasing hmem
  refine Scope.resolve_push_eq_none (hfree _ (List.mem_cons_of_mem _ hmem)) fun hsame => ?_
  have hname : entry.1 = entry'.1 := hsame
  exact String.lt_irrefl _ (hname ▸ hlt)

/-- Entries under names that are free are bound one behind the other, where
nothing is wrong with any of them. -/
theorem declareEntries_eq_ok_iff (hincreasing : Increasing entries)
    (hfree : ∀ entry ∈ entries, scope.resolve entry.1 = none) :
    (declareEntries validate scope entries).1 = .ok behind ↔
      (∀ entry ∈ entries, Declarable validate entry) ∧
        behind = ⟨scope.bindings ++ entries.filterMap (entryBinding? validate)⟩ := by
  induction entries generalizing scope with
  | nil => simp [declareEntries, eq_comm]
  | cons entry rest ih =>
    rw [List.forall_mem_cons]
    by_cases hentry : Declarable validate entry
    · obtain ⟨binding, hbinding, hrun⟩ :=
        declareEntries_of_declarable hentry (hfree _ List.mem_cons_self)
      rw [hrun, ih hincreasing.rest (free_of_push hincreasing hfree hbinding),
        List.filterMap_cons_some hbinding]
      simp [hentry, Scope.push]
    · obtain ⟨fault, hrefused⟩ := exists_entryRefused hentry
      rw [declareEntries_of_refused hrefused]
      exact ⟨fun h => (by cases h), fun h => absurd h.1.1 hentry⟩

/-- Entries under names that are free are refused with the fault of the first one
with which anything is wrong. -/
theorem declareEntries_eq_error_iff (hincreasing : Increasing entries)
    (hfree : ∀ entry ∈ entries, scope.resolve entry.1 = none) :
    (declareEntries validate scope entries).1 = .error fault ↔
      FirstFault (fun _ => EntryRefused validate) entries fault := by
  induction entries generalizing scope with
  | nil => simp [declareEntries, not_firstFault_nil]
  | cons entry rest ih =>
    rw [firstFault_cons_iff]
    by_cases hentry : Declarable validate entry
    · have hnone := declarable_iff.1 hentry
      obtain ⟨binding, hbinding, hrun⟩ :=
        declareEntries_of_declarable hentry (hfree _ List.mem_cons_self)
      rw [hrun, ih hincreasing.rest (free_of_push hincreasing hfree hbinding)]
      exact ⟨fun hrest => .inr ⟨hnone, hrest⟩, fun h => (h.resolve_left (hnone fault)).2⟩
    · obtain ⟨fault', hrefused⟩ := exists_entryRefused hentry
      constructor
      · intro herror
        rw [declareEntries_of_refused hrefused, Except.error.injEq] at herror
        exact .inl (herror ▸ hrefused)
      · rintro (hrefused' | ⟨hnone, -⟩)
        · rw [declareEntries_of_refused hrefused']
        · exact absurd hrefused (hnone fault')

end Entries

namespace Inputs

variable {inputs : Inputs} {validate : Validator}

/-- **Inputs can be declared where nothing is wrong with any of them**, and they
then bind what the validator says. -/
theorem scope_eq_ok_iff {scope : Scope} :
    inputs.scope validate = .ok scope ↔
      inputs.Proper validate ∧ scope = ⟨inputs.bound validate⟩ := by
  rw [Inputs.scope, declare]
  split
  · next hempty =>
    refine ⟨nofun, fun h => absurd ?_ h.1.nonempty⟩
    simpa [isEmpty] using hempty
  · next hnonempty =>
    rw [declareEntries_eq_ok_iff inputs.increasing fun _ _ => rfl]
    constructor
    · rintro ⟨hentries, rfl⟩
      exact ⟨⟨by simpa [isEmpty] using hnonempty, hentries⟩, rfl⟩
    · rintro ⟨hproper, rfl⟩
      exact ⟨hproper.declarable, rfl⟩

/-- **Why inputs cannot be declared**: there are none, or else the first with which
anything is wrong. -/
theorem scope_eq_error_iff {fault : Fault} :
    inputs.scope validate = .error fault ↔
      (inputs.entries = [] ∧ fault = .noInputs) ∨
        FirstFault (fun _ => EntryRefused validate) inputs.entries fault := by
  rw [Inputs.scope, declare, isEmpty]
  cases hentries : inputs.entries with
  | nil => simp [not_firstFault_nil, eq_comm]
  | cons first rest =>
    have hincreasing : Increasing (first :: rest) := hentries ▸ inputs.increasing
    simpa using declareEntries_eq_error_iff hincreasing fun _ _ => rfl

end Inputs

end StagedQuery
