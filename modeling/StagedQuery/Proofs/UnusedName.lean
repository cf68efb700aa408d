/-
StagedQuery/Proofs/UnusedName.lean

A name that nothing asks for changes nothing.

A query that declares one more input, or gives a stage an alias it did not have, binds
one more name.  At every position it sees what it saw before, and from some position on
the new binding beside it:

    binding ∈ wider.visible validate position ↔
      binding ∈ query.visible validate position ∨ since ≤ position ∧ binding = extra

(`Widens`).  The name was free, so no other name is resolved in another way and none is
refused; no stage starts from the new binding, since it has started from another; and no
body from there on mentions it, so that it is among no supplemental inputs, wherever its
place in the order of names would be.  So the wider query expands to the same
(`Widens.expandWith_eq`).

Main statement: `expandWith_unused`, for an input and for an alias.
-/
import StagedQuery.Proofs.ImpliedInput

namespace StagedQuery

namespace Surface.Query

/-! ### One more binding -/

/-- The name is empty, or no stage from a position on mentions it. -/
def Unmentioned (query : Query) (name : String) (since : Nat) : Prop :=
  name = "" ∨ ∀ position stage, since ≤ position → query.stages[position]? = some stage →
    Text.mentions stage.pipeline name = false

/-- The wider query binds `extra` beside all that the query binds, and it is seen from a
position on; nothing asks for it. -/
structure Widens (wider query : Query) (validate : Validator) (extra : Binding) (since : Nat) :
    Prop where
  /-- The inputs of the wider query can be declared. -/
  proper : wider.inputs.Proper validate
  /-- There are as many stages. -/
  length : wider.stages.length = query.stages.length
  /-- They name the same inputs and have the same bodies. -/
  stages : ∀ {position : Nat} {stage : Stage}, query.stages[position]? = some stage →
    ∃ stage', wider.stages[position]? = some stage' ∧ stage'.inputName = stage.inputName ∧
      stage'.pipeline = stage.pipeline
  /-- What is seen is what was seen, and the new binding. -/
  visible : ∀ {position : Nat} {binding : Binding}, position ≤ query.stages.length →
    (binding ∈ wider.visible validate position ↔
      binding ∈ query.visible validate position ∨ since ≤ position ∧ binding = extra)
  /-- To a stage that names no input the same is passed on. -/
  passed : ∀ {position : Nat} {stage : Stage}, query.stages[position]? = some stage →
    stage.inputName = none → wider.passed validate position = query.passed validate position
  /-- Nothing else has the name. -/
  free : ∀ binding ∈ query.visible validate query.stages.length,
    binding.name = extra.name → binding = extra
  /-- No body that sees the new binding mentions it. -/
  unmentioned : query.Unmentioned extra.name since

namespace Widens

variable {wider query : Query} {validate : Validator} {extra primary binding : Binding}
  {since position : Nat} {stage stage' : Stage} {stored : Backend.Query}

/-- Still no name has two targets. -/
theorem singleTarget (h : wider.Widens query validate extra since)
    (hm : query.Meaning validate stored) :
    SingleTarget (wider.visible validate wider.stages.length) := by
  rw [h.length]
  intro binding hbinding other hother hname
  rcases (h.visible (Nat.le_refl _)).1 hbinding with hold | ⟨-, rfl⟩ <;>
    rcases (h.visible (Nat.le_refl _)).1 hother with hold' | ⟨-, rfl⟩
  · exact hm.single binding hold other hold' hname
  · exact h.free binding hold hname
  · exact (h.free other hold' hname.symm).symm
  · rfl

/-- A stage starts from what it started from. -/
theorem starts (h : wider.Widens query validate extra since)
    (hstage : query.stages[position]? = some stage) (hinput : stage'.inputName = stage.inputName)
    (hstarts : Starts (query.visible validate position) (query.passed validate position) stage
      primary) :
    Starts (wider.visible validate position) (wider.passed validate position) stage' primary := by
  obtain ⟨hlt, -⟩ := List.getElem?_eq_some_iff.1 hstage
  rcases hstarts with ⟨hname, hvisible⟩ | ⟨hname, hpassed⟩
  · exact .named (hinput.trans hname) ((h.visible (Nat.le_of_lt hlt)).2 (.inl hvisible))
  · exact .passed (hinput.trans hname) ((h.passed hstage hname).trans hpassed)

/-- The new binding supplements no stage. -/
theorem supplements_iff (h : wider.Widens query validate extra since)
    (hstage : query.stages[position]? = some stage) :
    Supplements (query.visible validate position) primary stage.pipeline binding ↔
      Supplements (wider.visible validate position) primary stage.pipeline binding := by
  obtain ⟨hlt, -⟩ := List.getElem?_eq_some_iff.1 hstage
  have hvisible : binding ∈ wider.visible validate position ↔
      binding ∈ query.visible validate position ∨ since ≤ position ∧ binding = extra :=
    h.visible (Nat.le_of_lt hlt)
  constructor
  · rintro ⟨hold, hother, hnonempty, hmentioned⟩
    exact ⟨hvisible.2 (.inl hold), hother, hnonempty, hmentioned⟩
  · rintro ⟨hseen, hother, hnonempty, hmentioned⟩
    rcases hvisible.1 hseen with hold | ⟨hsince, rfl⟩
    · exact ⟨hold, hother, hnonempty, hmentioned⟩
    · rcases h.unmentioned with hempty | hunmentioned
      · exact absurd hempty hnonempty
      · rw [hunmentioned position stage hsince hstage] at hmentioned
        cases hmentioned

/-- Every stage has one at its position that says the same. -/
theorem exists_stage (h : wider.Widens query validate extra since)
    (hstage' : wider.stages[position]? = some stage') :
    ∃ stage, query.stages[position]? = some stage ∧ stage'.inputName = stage.inputName ∧
      stage'.pipeline = stage.pipeline := by
  obtain ⟨hlt, -⟩ := List.getElem?_eq_some_iff.1 hstage'
  rw [h.length] at hlt
  have hstage := List.getElem?_eq_getElem hlt
  obtain ⟨other, hother, hsame⟩ := h.stages hstage
  cases hstage'.symm.trans hother
  exact ⟨_, hstage, hsame⟩

/-- What a stage is expanded to in either query is the same. -/
theorem expanded_eq {primary' : Binding} {expanded expanded' : Backend.Stage}
    (h : wider.Widens query validate extra since) (hm : query.Meaning validate stored)
    (hstage : query.stages[position]? = some stage) (hinput : stage'.inputName = stage.inputName)
    (hbody : stage'.pipeline = stage.pipeline)
    (hexpands : Expands (query.visible validate position) (query.passed validate position)
      position stage primary expanded)
    (hexpands' : Expands (wider.visible validate position) (wider.passed validate position)
      position stage' primary' expanded') : expanded' = expanded := by
  obtain ⟨hlt, -⟩ := List.getElem?_eq_some_iff.1 hstage
  have hsingle : SingleTarget (wider.visible validate position) :=
    (h.singleTarget hm).mono fun _ hseen =>
      mem_visible_of_le (h.length.symm ▸ Nat.le_of_lt hlt) hseen
  -- both start from one binding, and none but the old ones supplement them
  cases hexpands'.starts.unique hsingle (h.starts hstage hinput hexpands.starts)
  obtain ⟨scope, hscope, rfl⟩ := hexpands.exists_eq
  obtain ⟨scope', hscope', rfl⟩ := hexpands'.exists_eq
  rw [hbody, inputsOf_eq, inputsOf_eq,
    supplementals_congr hscope hscope' fun _ => h.supplements_iff hstage]

/-- **The wider query expands to the same.** -/
theorem expandWith_eq (h : wider.Widens query validate extra since)
    (hexpand : query.expandWith validate = .ok stored) : wider.expandWith validate = .ok stored := by
  have hm := meaning_of_expandWith hexpand
  have hnonempty : wider.stages ≠ [] := by
    rw [← List.length_pos_iff, h.length, List.length_pos_iff]
    exact hm.nonempty
  obtain ⟨stored', hexpand'⟩ := exists_expandWith h.proper hnonempty (h.singleTarget hm) (by
    intro position stage' hstage'
    obtain ⟨stage, hstage, hinput, hbody⟩ := h.exists_stage hstage'
    obtain ⟨primary, _, -, hexpands⟩ := hm.expands hstage
    exact ⟨hbody ▸ hexpands.nonblank, primary, h.starts hstage hinput hexpands.starts⟩)
  have hm' := meaning_of_expandWith hexpand'
  have hstages : stored'.stages = stored.stages := by
    apply eq_of_getElem?_eq (hm'.length.trans h.length) hm.length
    intro position stage hstage
    obtain ⟨stage', hstage', hinput, hbody⟩ := h.stages hstage
    obtain ⟨primary, expanded, hexpanded, hexpands⟩ := hm.expands hstage
    obtain ⟨primary', expanded', hexpanded', hexpands'⟩ := hm'.expands hstage'
    rw [hexpanded, hexpanded', h.expanded_eq hm hstage hinput hbody hexpands hexpands']
  have houtput : stored'.output = stored.output := by
    rw [hm'.output, hm.output, h.length]
  rw [hexpand', Backend.Query.ext houtput hstages]

end Widens

end Surface.Query

/-! ### One more input -/

namespace Inputs

variable {inputs : Inputs} {validate : Validator} {name reference : String}

/-- A name that was not declared joins the others. -/
theorem mem_insert_of_undeclared {entry : String × String} (h : inputs.contains name = false) :
    entry ∈ (inputs.insert name reference).entries ↔
      entry = (name, reference) ∨ entry ∈ inputs.entries := by
  refine mem_insert_of_get?_eq_none (get?_eq_none_iff.2 fun other hentry => ?_)
  cases h.symm.trans (contains_iff.2 ⟨other, hentry⟩)

theorem Proper.insert (h : inputs.Proper validate) (hundeclared : inputs.contains name = false)
    (hentry : Declarable validate (name, reference)) :
    (inputs.insert name reference).Proper validate where
  nonempty := List.ne_nil_of_mem ((mem_insert_of_undeclared hundeclared).2 (.inl rfl))
  declarable := by
    intro entry hmem
    rcases (mem_insert_of_undeclared hundeclared).1 hmem with rfl | hold
    · exact hentry
    · exact h.declarable entry hold

/-- It is bound beside them. -/
theorem mem_bound_insert {id : String} {binding : Binding}
    (hundeclared : inputs.contains name = false) (hid : validate reference = some id) :
    binding ∈ (inputs.insert name reference).bound validate ↔
      binding ∈ inputs.bound validate ∨ binding = .dataset name id := by
  simp only [bound, List.mem_filterMap, mem_insert_of_undeclared hundeclared,
    entryBinding?_eq_some_iff]
  constructor
  · rintro ⟨entry, rfl | hold, other, hother, rfl⟩
    · cases hid.symm.trans hother
      exact .inr rfl
    · exact .inl ⟨entry, hold, other, hother, rfl⟩
  · rintro (⟨entry, hold, other, hother, rfl⟩ | rfl)
    · exact ⟨entry, .inr hold, other, hother, rfl⟩
    · exact ⟨(name, reference), .inl rfl, id, hid, rfl⟩

end Inputs

namespace Surface.Query

variable {query : Query} {validate : Validator} {position : Nat} {stage : Stage} {name : String}
  {binding : Binding} {stored : Backend.Query}

/-- A name that is neither declared nor an alias is the id of a stage at most. -/
theorem eq_ownId_of_mem_visible (hundeclared : query.inputs.contains name = false)
    (halias : ∀ stage ∈ query.stages, stage.aliasName ≠ some name)
    (h : binding ∈ query.visible validate query.stages.length) (hname : binding.name = name) :
    ∃ earlier < query.stages.length, name = stageId earlier ∧
      binding = .ownId (stageId earlier) := by
  cases (mem_visible_iff_sees (Nat.le_refl _)).1 h with
  | declared hentry _ =>
    cases hname
    cases hundeclared.symm.trans (Inputs.contains_iff.2 ⟨_, hentry⟩)
  | ofId hlt => exact ⟨_, hlt, hname.symm, rfl⟩
  | ofAlias _ hstage hown =>
    cases hname
    exact absurd hown (halias _ (List.mem_of_getElem? hstage))

/-- An unused input widens a query whose first stage names its input. -/
theorem widens_declare {reference id : String} {first : Stage} (hm : query.Meaning validate stored)
    (hcount : query.stages.length < positionLimit) (hfirst : query.stages[0]? = some first)
    (hnamed : first.inputName.isSome = true) (hnonblank : Text.allBlank reference = false)
    (hid : validate reference = some id) (hform : StageId.hasForm name = false)
    (hundeclared : query.inputs.contains name = false)
    (halias : ∀ stage ∈ query.stages, stage.aliasName ≠ some name)
    (hunmentioned : query.Unmentioned name 0) :
    (query.declare name reference).Widens query validate (.dataset name id) 0 where
  proper := hm.proper.insert hundeclared ⟨hform, hnonblank, Option.isSome_of_eq_some hid⟩
  length := rfl
  stages hstage := ⟨_, hstage, rfl, rfl⟩
  visible := by
    intro position binding _
    have hbound : binding ∈ (query.declare name reference).inputs.bound validate ↔ _ :=
      Inputs.mem_bound_insert hundeclared hid
    rw [mem_visible, mem_visible, hbound]
    simp only [Nat.zero_le, true_and]
    exact or_right_comm
  passed := by
    intro position stage hstage hinput
    cases position with
    | zero =>
      cases hfirst.symm.trans hstage
      rw [hinput] at hnamed
      cases hnamed
    | succ previous => rw [passed_succ, passed_succ]
  free := by
    intro binding hseen hname
    obtain ⟨earlier, hlt, hown, -⟩ := eq_ownId_of_mem_visible hundeclared halias hseen hname
    exact absurd hown (StageId.ne_of_hasForm_eq_false hform (Nat.lt_trans hlt hcount))
  unmentioned := hunmentioned

/-! ### One more alias -/

/-- The query with an alias for the stage at a position. -/
def withAlias (query : Query) (position : Nat) (name : String) : Query :=
  query.modifyStage position (·.withAlias name)

theorem getElem?_withAlias {other : Nat} :
    (query.withAlias position name).stages[other]? =
      query.stages[other]?.map fun stage =>
        if position = other then stage.withAlias name else stage := by
  rw [withAlias, modifyStage, List.getElem?_modify]
  rfl

/-- Behind its stage the alias is seen beside all that was. -/
theorem sees_withAlias_iff {later : Nat} (hstage : query.stages[position]? = some stage)
    (hnone : stage.aliasName = none) :
    (query.withAlias position name).Sees validate later binding ↔
      query.Sees validate later binding ∨
        position + 1 ≤ later ∧ binding = .stage name (stageId position) := by
  constructor
  · intro hsees
    cases hsees with
    | declared hentry hid => exact .inl (.declared hentry hid)
    | ofId hlt => exact .inl (.ofId hlt)
    | @ofAlias earlier _ _ hlt hstage' hown =>
      rw [getElem?_withAlias] at hstage'
      obtain ⟨before, hbefore, rfl⟩ := Option.map_eq_some_iff.1 hstage'
      by_cases hsame : position = earlier
      · subst hsame
        rw [if_pos rfl] at hown
        cases hown
        exact .inr ⟨hlt, rfl⟩
      · rw [if_neg hsame] at hown
        exact .inl (.ofAlias hlt hbefore hown)
  · rintro (hsees | ⟨hlt, rfl⟩)
    · cases hsees with
      | declared hentry hid => exact .declared hentry hid
      | ofId hlt => exact .ofId hlt
      | @ofAlias earlier before _ hlt hbefore hown =>
        -- the stage had no alias, so this is that of another
        have hne : position ≠ earlier := by
          rintro rfl
          cases hstage.symm.trans hbefore
          cases hnone.symm.trans hown
        have hkept : (query.withAlias position name).stages[earlier]? = some before := by
          rw [getElem?_withAlias, hbefore, Option.map_some, if_neg hne]
        exact .ofAlias hlt hkept hown
    · have hnamed : (query.withAlias position name).stages[position]? =
          some (stage.withAlias name) := by
        rw [getElem?_withAlias, hstage, Option.map_some, if_pos rfl]
      exact .ofAlias hlt hnamed rfl

/-- An unused alias widens a query. -/
theorem widens_withAlias (hm : query.Meaning validate stored)
    (hstage : query.stages[position]? = some stage) (hnone : stage.aliasName = none)
    (hundeclared : query.inputs.contains name = false)
    (halias : ∀ stage ∈ query.stages, stage.aliasName ≠ some name)
    (hid : ∀ other < query.stages.length, other ≠ position → name ≠ stageId other)
    (hunmentioned : query.Unmentioned name (position + 1)) :
    (query.withAlias position name).Widens query validate (.stage name (stageId position))
      (position + 1) where
  proper := hm.proper
  length := List.length_modify _ _ _
  stages := by
    intro other stage' hstage'
    rw [getElem?_withAlias, hstage', Option.map_some]
    refine ⟨_, rfl, ?_, ?_⟩ <;> split <;> rfl
  visible := by
    intro later binding hle
    have hle' : later ≤ (query.withAlias position name).stages.length := by
      rwa [withAlias, modifyStage, List.length_modify]
    rw [mem_visible_iff_sees hle, mem_visible_iff_sees hle']
    exact sees_withAlias_iff hstage hnone
  passed := fun _ _ => rfl
  free := by
    intro binding hseen hname
    obtain ⟨earlier, hlt, hown, rfl⟩ := eq_ownId_of_mem_visible hundeclared halias hseen hname
    by_cases hsame : earlier = position
    · rw [← hsame, hown]
      rfl
    · exact absurd hown (hid earlier hlt hsame)
  unmentioned := hunmentioned

end Surface.Query

/-- **Unused names are inert.**  A query that expands does so to the same when one more
input is declared, where its first stage names its input, or when a stage without an alias
gets one: as long as the name is new and is not mentioned where it would be seen.  An
alias may be the id of its own stage.  Positions are words, so there are fewer stages than
that. -/
theorem expandWith_unused {query : Surface.Query} {validate : Validator} {stored : Backend.Query}
    (h : query.expandWith validate = .ok stored) :
    (∀ first name reference, query.stages.length < positionLimit →
      query.stages[0]? = some first → first.inputName.isSome = true →
      Text.allBlank reference = false → (validate reference).isSome = true →
      StageId.hasForm name = false → query.inputs.contains name = false →
      (∀ stage ∈ query.stages, stage.aliasName ≠ some name) → query.Unmentioned name 0 →
        (query.declare name reference).expandWith validate = .ok stored) ∧
    ∀ position stage name, query.stages[position]? = some stage → stage.aliasName = none →
      query.inputs.contains name = false →
      (∀ other ∈ query.stages, other.aliasName ≠ some name) →
      (∀ other < query.stages.length, other ≠ position → name ≠ stageId other) →
      query.Unmentioned name (position + 1) →
        (query.withAlias position name).expandWith validate = .ok stored := by
  have hm := Surface.Query.meaning_of_expandWith h
  constructor
  · intro first name reference hcount hfirst hnamed hnonblank haccepted hform hundeclared halias
      hunmentioned
    obtain ⟨id, hid⟩ := Option.isSome_iff_exists.1 haccepted
    have hwidens := Surface.Query.widens_declare hm hcount hfirst hnamed hnonblank hid hform
      hundeclared halias hunmentioned
    exact hwidens.expandWith_eq h
  · intro position stage name hstage hnone hundeclared halias hid hunmentioned
    have hwidens := Surface.Query.widens_withAlias hm hstage hnone hundeclared halias hid
      hunmentioned
    exact hwidens.expandWith_eq h

/-- Beside the names of the example, one that begins with an alias of it can be declared,
and its second stage take the id of a position that it does not have. -/
theorem joined_unused :
    joined.expandWith Dataset.bareId? = .ok joinedStored ∧
      joined.Unmentioned "base2" 0 ∧
      (joined.declare "base2" "o:::dataset:5").expandWith Dataset.bareId? = .ok joinedStored ∧
      joined.Unmentioned "stage-7" 2 ∧
      (joined.withAlias 1 "stage-7").expandWith Dataset.bareId? = .ok joinedStored := by
  have hbodies : ∀ name, (∀ stage ∈ joined.stages, Text.mentions stage.pipeline name = false) →
      ∀ since, joined.Unmentioned name since :=
    fun name hnone since => .inr fun _ stage _ hstage => hnone stage (List.mem_of_getElem? hstage)
  have hbase := hbodies "base2" (by decide) 0
  have hlater := hbodies "stage-7" (by decide) 2
  obtain ⟨hinput, halias⟩ := expandWith_unused expand_joined
  refine ⟨expand_joined, hbase, ?_, hlater, ?_⟩
  · exact hinput _ _ _ (by decide) rfl rfl (by decide +kernel) (by decide +kernel)
      (by decide +kernel) (by decide +kernel) (by decide) hbase
  · exact halias 1 _ _ rfl rfl (by decide +kernel) (by decide) (by decide +kernel) hlater

end StagedQuery
