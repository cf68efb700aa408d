/-
StagedQuery/Proofs/Asking.lean

What the validator is asked when inputs are declared.

A run over the entries passes those with which nothing is wrong, asking about each
one's reference and binding its name, and stops at the first other one:

    declareEntries (before ++ rest)
      = the run over rest, behind what `before` binds, asking about `before` first.

Names increase, so the first such entry is the one with the least name, and the
entries before it are those with lesser names.  About the entry itself the validator
is asked only where it is the validator that refuses it.

Main statement: `declare_outcome`, with what is bound, which fault is answered and
which references are asked about; and that no name is ever found taken on the way.
-/
import StagedQuery.Proofs.Declaration

namespace StagedQuery

section Entries

variable {validate : Validator} {scope : Scope} {before rest : List (String × String)}
  {entry : String × String}

/-! ### Runs over entries -/

/-- **Entries with which nothing is wrong are passed**: each is asked about and bound,
and the rest is declared behind them. -/
theorem declareEntries_append (hincreasing : Increasing (before ++ rest))
    (hfree : ∀ entry ∈ before ++ rest, scope.resolve entry.1 = none)
    (hbefore : ∀ entry ∈ before, Declarable validate entry) :
    declareEntries validate scope (before ++ rest) =
      ((declareEntries validate ⟨scope.bindings ++ before.filterMap (entryBinding? validate)⟩
          rest).1,
        before.map (·.2) ++
          (declareEntries validate ⟨scope.bindings ++ before.filterMap (entryBinding? validate)⟩
            rest).2) := by
  induction before generalizing scope with
  | nil => simp
  | cons first before ih =>
    obtain ⟨hfirst, hbefore⟩ := List.forall_mem_cons.1 hbefore
    obtain ⟨binding, hbinding, hrun⟩ :=
      declareEntries_of_declarable hfirst (hfree _ List.mem_cons_self)
    have hpush : (scope.push binding).bindings ++ before.filterMap (entryBinding? validate) =
        scope.bindings ++ (first :: before).filterMap (entryBinding? validate) := by
      rw [List.filterMap_cons_some hbinding, Scope.push, List.append_assoc,
        List.singleton_append]
    rw [List.cons_append, hrun,
      ih hincreasing.rest (free_of_push hincreasing hfree hbinding) hbefore, hpush,
      List.map_cons, List.cons_append]

/-- Entries with lesser names are those before. -/
theorem filter_lt_eq (hincreasing : Increasing (before ++ entry :: rest)) :
    (before ++ entry :: rest).filter (fun other => decide (other.1 < entry.1)) = before := by
  obtain ⟨-, hbehind, hbefore⟩ := List.pairwise_append.1 hincreasing
  have hkept : before.filter (fun other => decide (other.1 < entry.1)) = before :=
    List.filter_eq_self.2 fun other hother =>
      decide_eq_true (hbefore other hother entry List.mem_cons_self)
  have hdropped : (entry :: rest).filter (fun other => decide (other.1 < entry.1)) = [] := by
    refine List.filter_eq_nil_iff.2 fun other hother hlt => ?_
    have hlt := of_decide_eq_true hlt
    rcases List.mem_cons.1 hother with rfl | hother
    · exact String.lt_irrefl _ hlt
    · exact String.lt_irrefl _ (String.lt_trans hlt (lt_of_mem_rest hbehind hother))
  rw [List.filter_append, hkept, hdropped, List.append_nil]

end Entries

namespace Inputs

variable {inputs : Inputs} {validate : Validator} {entry : String × String} {fault : Fault}

/-! ### The least entry that is refused -/

/-- The entry is refused with this fault, and has the least name of all that are
refused. -/
structure LeastRefused (inputs : Inputs) (validate : Validator) (entry : String × String)
    (fault : Fault) : Prop where
  /-- It is declared. -/
  mem : entry ∈ inputs.entries
  /-- It is refused. -/
  refused : EntryRefused validate entry fault
  /-- Nothing is wrong with those of lesser names. -/
  least : ∀ other ∈ inputs.entries, other.1 < entry.1 → Declarable validate other

/-- The entries before the least that is refused are those of lesser names. -/
theorem LeastRefused.exists_split (h : inputs.LeastRefused validate entry fault) :
    ∃ before rest, inputs.entries = before ++ entry :: rest ∧
      before = inputs.entries.filter (fun other => decide (other.1 < entry.1)) ∧
      ∀ other ∈ before, Declarable validate other := by
  obtain ⟨before, rest, hentries⟩ := List.append_of_mem h.mem
  have hincreasing : Increasing (before ++ entry :: rest) := hentries ▸ inputs.increasing
  have hbefore := filter_lt_eq hincreasing
  rw [← hentries] at hbefore
  refine ⟨before, rest, hentries, hbefore.symm, fun other hother => ?_⟩
  rw [← hbefore] at hother
  obtain ⟨hmem, hlt⟩ := List.mem_filter.1 hother
  exact h.least other hmem (of_decide_eq_true hlt)

/-- The first entry that is refused is the least. -/
theorem firstFault_iff_leastRefused :
    FirstFault (fun _ => EntryRefused validate) inputs.entries fault ↔
      ∃ entry, inputs.LeastRefused validate entry fault := by
  have hlt := List.pairwise_iff_getElem.1 inputs.increasing
  constructor
  · rintro ⟨index, entry, hentry, hrefused, hbefore⟩
    refine ⟨entry, List.mem_of_getElem? hentry, hrefused, fun other hother hother' => ?_⟩
    obtain ⟨earlier, hearlier, rfl⟩ := List.mem_iff_getElem.1 hother
    obtain ⟨hindex, rfl⟩ := List.getElem?_eq_some_iff.1 hentry
    -- a lesser name stands earlier
    have hle : earlier < index := by
      rcases Nat.lt_trichotomy earlier index with h | rfl | h
      · exact h
      · exact absurd hother' (String.lt_irrefl _)
      · exact absurd (String.lt_trans hother' (hlt _ _ hindex hearlier h)) (String.lt_irrefl _)
    exact declarable_iff.2 (hbefore earlier hle _ (List.getElem?_eq_getElem hearlier))
  · rintro ⟨entry, h⟩
    obtain ⟨before, rest, hentries, -, hbefore⟩ := h.exists_split
    refine ⟨before.length, entry, by rw [hentries]; simp, h.refused, ?_⟩
    intro earlier hearlier other hother
    rw [hentries, List.getElem?_append_left hearlier] at hother
    exact declarable_iff.1 (hbefore other (List.mem_of_getElem? hother))

/-! ### Which references are asked about -/

theorem asked_of_empty (h : inputs.entries = []) : inputs.asked validate = [] := by
  rw [asked, declare, if_pos (by simp [isEmpty, h])]

theorem declare_of_nonempty (h : inputs.entries ≠ []) :
    inputs.declare validate = declareEntries validate .empty inputs.entries := by
  rw [declare, if_neg (by simpa [isEmpty] using h)]

/-- Where nothing is wrong, all references are asked about, in order. -/
theorem Proper.asked_eq (h : inputs.Proper validate) :
    inputs.asked validate = inputs.entries.map (·.2) := by
  have hincreasing : Increasing (inputs.entries ++ []) := by
    rw [List.append_nil]
    exact inputs.increasing
  have hrun : declareEntries validate .empty (inputs.entries ++ []) = _ :=
    declareEntries_append hincreasing (fun _ _ => rfl) h.declarable
  rw [List.append_nil] at hrun
  rw [asked, declare_of_nonempty h.nonempty, hrun, declareEntries, List.append_nil]

/-- Else those of lesser names than the least that is refused, and then its own if it
was the validator that refused it. -/
theorem LeastRefused.asked_eq (h : inputs.LeastRefused validate entry fault) :
    inputs.asked validate =
      (inputs.entries.filter (fun other => decide (other.1 < entry.1))).map (·.2) ++
        askedOf entry := by
  obtain ⟨before, rest, hentries, hbefore, hdeclarable⟩ := h.exists_split
  have hincreasing : Increasing (before ++ entry :: rest) := hentries ▸ inputs.increasing
  have hnonempty : inputs.entries ≠ [] := List.ne_nil_of_mem h.mem
  rw [asked, declare_of_nonempty hnonempty, ← hbefore, hentries,
    declareEntries_append hincreasing (fun _ _ => rfl) hdeclarable,
    declareEntries_of_refused h.refused]

/-! ### What is bound on the way -/

/-- Each name is free when its turn comes. -/
theorem bind_eq_push {before rest : List (String × String)} {scope : Scope}
    (hentries : inputs.entries = before ++ entry :: rest)
    (hscope : (declareEntries validate .empty before).1 = .ok scope) (id : String) :
    scope.bind (.dataset entry.1 id) = .ok (scope.push (.dataset entry.1 id)) := by
  have hincreasing : Increasing (before ++ entry :: rest) := hentries ▸ inputs.increasing
  obtain ⟨hbefore, -, hlt⟩ := List.pairwise_append.1 hincreasing
  obtain ⟨-, rfl⟩ := (declareEntries_eq_ok_iff hbefore fun _ _ => rfl).1 hscope
  refine Scope.bind_eq_ok_iff.2 (.inl ⟨Scope.resolve_eq_none_iff.2 ?_, rfl⟩)
  intro binding hbinding hname
  obtain ⟨other, hother, hbound⟩ := List.mem_filterMap.1 hbinding
  obtain ⟨id', -, rfl⟩ := entryBinding?_eq_some_iff.1 hbound
  have hless := hlt other hother entry List.mem_cons_self
  have hsame : other.1 = entry.1 := hname
  exact String.lt_irrefl _ (hsame ▸ hless)

/-- What is bound of proper inputs, entry by entry. -/
theorem Proper.forall₂_bound (h : inputs.Proper validate) :
    List.Forall₂ (fun entry binding => ∃ id, validate entry.2 = some id ∧
      binding = Binding.dataset entry.1 id) inputs.entries (inputs.bound validate) := by
  have hdeclarable := h.declarable
  rw [bound]
  generalize inputs.entries = entries at hdeclarable ⊢
  induction entries with
  | nil => exact .nil
  | cons entry rest ih =>
    obtain ⟨hentry, hrest⟩ := List.forall_mem_cons.1 hdeclarable
    obtain ⟨id, hid⟩ := Option.isSome_iff_exists.1 hentry.accepted
    rw [List.filterMap_cons_some (entryBinding?_eq_some_iff.2 ⟨id, hid, rfl⟩)]
    exact .cons ⟨id, hid, rfl⟩ (ih hrest)

end Inputs

/-- **Declaring inputs.**  It succeeds where there are any and nothing is wrong with one;
the names are then bound in their order to what the validator gave.  Else the fault is
that of the least name with which anything is wrong.  The validator is asked about the
references of the names before that one, each once and in order, and about that one's
if its name is free and its reference is not blank.  Binding itself never fails. -/
theorem declare_outcome (inputs : Inputs) (validate : Validator) :
    ((∃ scope, inputs.scope validate = .ok scope) ↔
        inputs.entries ≠ [] ∧ ∀ entry ∈ inputs.entries,
          (¬ ∃ position < positionLimit, entry.1 = stageId position) ∧
            Text.allBlank entry.2 = false ∧ ∃ id, validate entry.2 = some id) ∧
      (∀ scope, inputs.scope validate = .ok scope →
        List.Forall₂ (fun entry binding => ∃ id, validate entry.2 = some id ∧
            binding = Binding.dataset entry.1 id) inputs.entries scope.bindings ∧
          (scope.bindings.Pairwise fun a b => a.name < b.name) ∧
          inputs.asked validate = inputs.entries.map (·.2)) ∧
      (∀ fault, inputs.scope validate = .error fault ↔
        (inputs.entries = [] ∧ fault = .noInputs) ∨
          ∃ entry, inputs.LeastRefused validate entry fault) ∧
      (inputs.entries = [] → inputs.asked validate = []) ∧
      (∀ entry fault, inputs.LeastRefused validate entry fault →
        inputs.asked validate =
          (inputs.entries.filter (fun other => decide (other.1 < entry.1))).map (·.2) ++
            if StageId.hasForm entry.1 || Text.allBlank entry.2 then [] else [entry.2]) ∧
      ∀ before entry rest, inputs.entries = before ++ entry :: rest →
        ∀ scope, (declareEntries validate .empty before).1 = .ok scope → ∀ id,
          scope.bind (.dataset entry.1 id) = .ok (scope.push (.dataset entry.1 id)) := by
  refine ⟨?_, fun scope hscope => ?_, fun fault => ?_, Inputs.asked_of_empty,
    fun entry fault h => h.asked_eq, fun before entry rest hentries scope hscope id =>
      Inputs.bind_eq_push hentries hscope id⟩
  · constructor
    · rintro ⟨scope, hscope⟩
      obtain ⟨hproper, -⟩ := Inputs.scope_eq_ok_iff.1 hscope
      refine ⟨hproper.nonempty, fun entry hentry => ?_⟩
      have h := hproper.declarable entry hentry
      refine ⟨fun hname => ?_, h.nonblank, Option.isSome_iff_exists.1 h.accepted⟩
      have hform := StageId.hasForm_iff.2 hname
      rw [h.free] at hform
      cases hform
    · rintro ⟨hnonempty, hentries⟩
      refine ⟨_, Inputs.scope_eq_ok_iff.2 ⟨⟨hnonempty, fun entry hentry => ?_⟩, rfl⟩⟩
      obtain ⟨hfree, hnonblank, haccepted⟩ := hentries entry hentry
      have hform : ¬ StageId.hasForm entry.1 = true := fun h => hfree (StageId.hasForm_iff.1 h)
      exact ⟨by simpa using hform, hnonblank, Option.isSome_iff_exists.2 haccepted⟩
  · obtain ⟨hproper, rfl⟩ := Inputs.scope_eq_ok_iff.1 hscope
    exact ⟨hproper.forall₂_bound, Inputs.increasing_bound, hproper.asked_eq⟩
  · rw [Inputs.scope_eq_error_iff, Inputs.firstFault_iff_leastRefused]

/-- Something is wrong with two of three names; the lesser of the two is `b`. -/
def spoiled : Inputs :=
  .ofList [("stage-0", "3"), ("b", " "), ("a", "o:::dataset:41/2")]

/-- The first fault is that of `b`, and only the reference of `a` was asked about. -/
theorem spoiled_outcome :
    spoiled.LeastRefused Dataset.bareId? ("b", " ") (.blankReference "b") ∧
      spoiled.scope Dataset.bareId? = .error (.blankReference "b") ∧
      spoiled.asked Dataset.bareId? = ["o:::dataset:41/2"] := by
  have hfree : ¬ ∃ position < positionLimit, "b" = stageId position := fun hname =>
    absurd (StageId.hasForm_iff.2 hname) (by decide)
  have hleast : ∀ other ∈ spoiled.entries, other.1 < "b" →
      Declarable Dataset.bareId? other := by
    intro other hother hlt
    have hcases : other = ("a", "o:::dataset:41/2") ∨ other = ("b", " ") ∨
        other = ("stage-0", "3") := by
      have hentries : spoiled.entries =
          [("a", "o:::dataset:41/2"), ("b", " "), ("stage-0", "3")] := by decide +kernel
      simpa [hentries] using hother
    rcases hcases with rfl | rfl | rfl
    · exact ⟨by decide +kernel, by decide +kernel, by decide +kernel⟩
    · exact absurd hlt (by decide)
    · exact absurd hlt (by decide)
  have hrefused : spoiled.LeastRefused Dataset.bareId? ("b", " ") (.blankReference "b") :=
    ⟨by decide +kernel, .blank hfree (by decide +kernel), hleast⟩
  obtain ⟨-, -, hfault, -, hasked, -⟩ := declare_outcome spoiled Dataset.bareId?
  refine ⟨hrefused, (hfault _).2 (.inr ⟨_, hrefused⟩), ?_⟩
  rw [hasked _ _ hrefused]
  decide +kernel

end StagedQuery
