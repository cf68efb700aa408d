/-
StagedQuery/Proofs/Reexpansion.lean

A recovered query expanded again.

Let `surface` be recovered from a stored query that is in order.  What is visible
in it is read off the stored query: the datasets used, the stages under the ids
of their positions, and the stages under the other names they are used by
(`Recovers.mem_visible`).  Each of its stages then starts from what the stored
one started from, save that a stage continuing from the one before it may call
that one by its new id (`restart`, `Recovers.starts`).

Whether the query expands is thus a question about names alone: it does where
what is visible gives no name two targets (`Recovers.exists_expandWith`).
-/
import StagedQuery.Proofs.Expansion
import StagedQuery.Proofs.Recovery
import StagedQuery.Proofs.Occurrence

namespace StagedQuery

open Backend

variable {stored : Backend.Query} {surface : Surface.Query} {validate : Validator}
  {position : Nat} {stage : Backend.Stage} {input : Input} {binding : Binding}

/-- What a stage starts from when it is expanded again. -/
def Binding.restart (primary : Binding) (body : String) : Nat → Binding
  | 0 => primary
  | previous + 1 =>
    if primary.continues body previous = true then .ownId (stageId previous) else primary

/-- A stage starts from the same dataset or stage again. -/
theorem Binding.target_restart (primary : Binding) (body : String) (position : Nat) :
    (primary.restart body position).target = primary.target := by
  cases position with
  | zero => rfl
  | succ previous =>
    rw [restart]
    split
    · next hcontinues =>
      have htarget : primary.target = .stage (stageId previous) := by
        simp only [continues, Bool.and_eq_true, decide_eq_true_eq] at hcontinues
        exact hcontinues.1
      exact htarget.symm
    · rfl

/-- What its place does not imply is named, and keeps its name. -/
theorem Binding.restart_of_not_implied {primary : Binding} {declared : Inputs} {body : String}
    (h : ¬ primary.Implied declared body position) :
    primary.restart body position = primary := by
  cases position with
  | zero => rfl
  | succ previous => exact if_neg h

/-- The validator takes the bare ids a stored query uses for what they are. -/
def Backend.Query.Accepted (stored : Backend.Query) (validate : Validator) : Prop :=
  ∀ name id, stored.Uses (.dataset name id) → validate id = some id

namespace Backend.Query.Recovers

/-! ### What is visible -/

theorem mem_bound (hr : Recovers stored surface)
    (hval : stored.Accepted validate) :
    binding ∈ surface.inputs.bound validate ↔
      ∃ name id, binding = .dataset name id ∧ stored.Uses (.dataset name id) := by
  rw [Inputs.mem_bound]
  constructor
  · rintro ⟨name, reference, id, hentry, hid, rfl⟩
    have huses := (hr.inputs name reference).1 hentry
    cases hid.symm.trans (hval name reference huses)
    exact ⟨name, reference, rfl, huses⟩
  · rintro ⟨name, id, rfl, huses⟩
    exact ⟨name, id, id, (hr.inputs name id).2 huses, hval name id huses, rfl⟩

/-- Recovered inputs can be declared where nothing is wrong with any name and bare
id used. -/
theorem proper (hr : Recovers stored surface) (hcondense : stored.condense = .ok surface)
    (hdeclarable : ∀ name id, stored.Uses (.dataset name id) → Declarable validate (name, id)) :
    surface.inputs.Proper validate := by
  obtain ⟨-, -, hnonempty, -⟩ := condense_eq_ok_iff.1 hcondense
  exact ⟨hnonempty, fun entry hentry => hdeclarable _ _ ((hr.inputs _ _).1 hentry)⟩

/-- **What is visible in a recovered query** are the datasets used, and the stages
before under their ids and the names they are used by. -/
theorem mem_visible (hr : Recovers stored surface)
    (hval : stored.Accepted validate)
    (hle : position ≤ stored.stages.length) :
    binding ∈ surface.visible validate position ↔
      (∃ name id, binding = .dataset name id ∧ stored.Uses (.dataset name id)) ∨
        ∃ name, ∃ earlier < position, binding = .stage name (stageId earlier) ∧
          (name = stageId earlier ∨ stored.Uses binding) := by
  obtain ⟨name, id | id⟩ := binding
  · show Binding.dataset name id ∈ _ ↔ _
    rw [Surface.Query.mem_visible_dataset, hr.mem_bound hval]
    constructor
    · exact .inl
    · rintro (hdataset | ⟨_, _, _, heq, _⟩)
      · exact hdataset
      · cases heq
  · show Binding.stage name id ∈ _ ↔ _
    rw [Surface.Query.mem_visible_stage]
    constructor
    · rintro ⟨earlier, hlt, condensed, hcondensed, rfl, hname⟩
      refine .inr ⟨name, earlier, hlt, rfl, ?_⟩
      obtain ⟨condensed', hcondensed', -, halias, -⟩ :=
        hr.stages (List.getElem?_eq_getElem (Nat.lt_of_lt_of_le hlt hle))
      cases hcondensed.symm.trans hcondensed'
      exact hname.imp_right fun hsome => ((halias name).1 hsome).2
    · rintro (⟨_, _, heq, _⟩ | ⟨_, earlier, hlt, heq, hname⟩)
      · cases heq
      · cases heq
        obtain ⟨condensed, hcondensed, -, halias, -⟩ :=
          hr.stages (List.getElem?_eq_getElem (Nat.lt_of_lt_of_le hlt hle))
        refine ⟨earlier, hlt, condensed, hcondensed, rfl, ?_⟩
        -- another name that is used is the alias of the stage
        by_cases hown : name = stageId earlier
        · exact .inl hown
        · exact .inr ((halias name).2 ⟨hown, hname.resolve_left hown⟩)

/-- What an input stands for is visible to its stage. -/
theorem visible_of_stands (hr : Recovers stored surface)
    (hval : stored.Accepted validate)
    (hstage : stored.stages[position]? = some stage) (hinput : input ∈ stage.inputs)
    (hstands : stored.Stands position input binding) :
    binding ∈ surface.visible validate position := by
  obtain ⟨hlt, -⟩ := List.getElem?_eq_some_iff.1 hstage
  have huses := uses_of_stands hstage hinput hstands
  apply (hr.mem_visible hval (Nat.le_of_lt hlt)).2
  cases hstands with
  | dataset => exact .inl ⟨_, _, rfl, huses⟩
  | stage hearlier => exact .inr ⟨_, _, hearlier, rfl, .inr huses⟩

/-! ### What stages start from -/

/-- The one dataset declared is the one the first stage started from. -/
theorem only?_eq (hr : Recovers stored surface)
    (hval : stored.Accepted validate)
    (hsize : surface.inputs.size = 1) {name id : String}
    (huses : stored.Uses (.dataset name id)) :
    (Scope.mk (surface.inputs.bound validate)).only? = some (.dataset name id) := by
  apply (Inputs.holds_bound.only?_eq_some_iff).2
  obtain ⟨entry, hentries⟩ := List.length_eq_one_iff.1 hsize
  have hentry : ∀ name id, stored.Uses (.dataset name id) → (name, id) = entry := by
    intro name id huses
    have hmem := (hr.inputs name id).2 huses
    rwa [hentries, List.mem_singleton] at hmem
  intro other
  rw [hr.mem_bound hval]
  constructor
  · rintro ⟨name', id', rfl, huses'⟩
    have heq := (hentry _ _ huses').trans (hentry _ _ huses).symm
    cases heq
    rfl
  · rintro rfl
    exact ⟨_, _, rfl, huses⟩

/-- What the place of a stage implies is passed on to it. -/
theorem passed_of_implied (hr : Recovers stored surface)
    (hval : stored.Accepted validate)
    (huses : stored.Uses binding) (hstands : stored.Stands position input binding) {body : String}
    (himplied : binding.Implied surface.inputs body position) :
    surface.passed validate position = some (binding.restart body position) := by
  cases position with
  | zero =>
    obtain ⟨id, rfl⟩ := hstands.exists_dataset
    exact hr.only?_eq hval himplied huses
  | succ previous =>
    have hcontinues : binding.continues body previous = true := himplied
    rw [Surface.Query.passed_succ, Binding.restart, if_pos hcontinues]

/-- **A recovered stage starts from what the stored one started from.** -/
theorem starts (hr : Recovers stored surface)
    (hval : stored.Accepted validate)
    (hstage : stored.stages[position]? = some stage) (hprimary : stage.primary? = some input)
    (hstands : stored.Stands position input binding) :
    ∃ condensed, surface.stages[position]? = some condensed ∧
      condensed.pipeline = stage.pipeline ∧
      Starts (surface.visible validate position) (surface.passed validate position) condensed
        (binding.restart stage.pipeline position) := by
  obtain ⟨condensed, hcondensed, hpipeline, -, hname⟩ := hr.stages hstage
  refine ⟨condensed, hcondensed, hpipeline, ?_⟩
  have hinput : input ∈ stage.inputs := List.mem_of_mem_head? hprimary
  -- the name is left out just where what is passed on is the same
  rcases hname hprimary hstands with ⟨himplied, hnone⟩ | ⟨hnot, hsome⟩
  · have huses := uses_of_stands hstage hinput hstands
    exact Starts.passed hnone (hr.passed_of_implied hval huses hstands himplied)
  · rw [Binding.restart_of_not_implied hnot]
    exact Starts.named hsome (hr.visible_of_stands hval hstage hinput hstands)

/-- A recovered query expands where nothing is wrong with its inputs, no body is
blank and no name gets two targets. -/
theorem exists_expandWith (hr : Recovers stored surface) (horderly : stored.Orderly)
    (hval : stored.Accepted validate)
    (hproper : surface.inputs.Proper validate)
    (hnonblank : ∀ stage ∈ stored.stages, Text.allBlank stage.pipeline = false)
    (hsingle : SingleTarget (surface.visible validate stored.stages.length)) :
    ∃ again, surface.expandWith validate = .ok again := by
  rw [← hr.length] at hsingle
  apply Surface.Query.exists_expandWith hproper ?_ hsingle
  · intro position condensed hcondensed
    obtain ⟨hlt, -⟩ := List.getElem?_eq_some_iff.1 hcondensed
    rw [hr.length] at hlt
    have hstage := List.getElem?_eq_getElem hlt
    obtain ⟨input, hprimary, hinput⟩ := horderly.shaped.exists_primary hstage
    obtain ⟨binding, hstands⟩ := horderly.stands hstage input hinput
    obtain ⟨condensed', hcondensed', hpipeline, hstarts⟩ := hr.starts hval hstage hprimary hstands
    cases hcondensed.symm.trans hcondensed'
    exact ⟨hpipeline ▸ hnonblank _ (List.mem_of_getElem? hstage), _, hstarts⟩
  · intro hempty
    have hlength : stored.stages.length = 0 := by rw [← hr.length, hempty, List.length_nil]
    have houtput := horderly.shaped.output
    rw [List.length_eq_zero_iff.1 hlength] at houtput
    cases houtput

/-- Where a recovered query expands, so does each of its stages, from what the
stored one started from. -/
theorem expands {again : Backend.Query} (hr : Recovers stored surface)
    (hval : stored.Accepted validate)
    (hm : surface.Meaning validate again)
    (hstage : stored.stages[position]? = some stage) (hprimary : stage.primary? = some input)
    (hstands : stored.Stands position input binding) :
    ∃ condensed expanded, condensed.pipeline = stage.pipeline ∧
      again.stages[position]? = some expanded ∧
      Expands (surface.visible validate position) (surface.passed validate position) position
        condensed (binding.restart stage.pipeline position) expanded := by
  obtain ⟨condensed, hcondensed, hpipeline, hstarts⟩ := hr.starts hval hstage hprimary hstands
  obtain ⟨primary, expanded, hexpanded, hexpands⟩ := hm.expands hcondensed
  obtain ⟨hlt, -⟩ := List.getElem?_eq_some_iff.1 hcondensed
  have hsingle := hm.singleTarget (Nat.le_of_lt hlt)
  cases Starts.unique hsingle hexpands.starts hstarts
  exact ⟨condensed, expanded, hpipeline, hexpanded, hexpands⟩

end Backend.Query.Recovers

end StagedQuery
