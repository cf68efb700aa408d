/-
StagedQuery/Proofs/Authored.lean

Stored queries that others wrote.

Such a query gives its stages ids of its own choice, and refers to each by its
id.  When it is condensed and expanded, the ids change to those of the positions,
and an id that was used for reference is kept as an alias.  Aliases are bound in
one scope with the new ids.  An old id may look like a new one, as when a stage
was taken out and the ids behind it no longer match their positions; as an alias
of one stage it then stands in the way of the id of another.

This is the only thing that can go wrong: the query expands again, each stage
starting from what it started from, just where no id that is used is the new id
of another stage (`exists_expand_condensed_iff`).
-/
import StagedQuery.Proofs.Dataset
import StagedQuery.Proofs.Naming
import StagedQuery.Proofs.Reexpansion

namespace StagedQuery

open Backend

namespace Backend.Query

/-- A query that refers to each stage by its id, and gives names of their own to
datasets. -/
structure Authored (stored : Query) : Prop where
  /-- Every stage has a body. -/
  nonblank : ∀ stage ∈ stored.stages, Text.allBlank stage.pipeline = false
  /-- Every input has one target. -/
  target : ∀ stage ∈ stored.stages, ∀ input ∈ stage.inputs,
    (input.datasetId.isSome = true ∧ input.stageId = none) ∨
      (input.datasetId = none ∧ input.stageId.isSome = true)
  /-- A dataset has a number, and no name in the form of a stage id. -/
  dataset : ∀ stage ∈ stored.stages, ∀ input ∈ stage.inputs, ∀ id, input.datasetId = some id →
    StageId.hasForm input.name = false ∧ Dataset.isNumber id.toList = true
  /-- Nor is it called like a stage is going to be.  This says more than that only where
  there are more stages than words. -/
  unlike : ∀ stage ∈ stored.stages, ∀ input ∈ stage.inputs, input.datasetId.isSome = true →
    ∀ position < stored.stages.length, input.name ≠ stageId position
  /-- A stage is an earlier one, and is called by its id. -/
  stage : ∀ {position : Nat} {stage : Stage}, stored.stages[position]? = some stage →
    ∀ input ∈ stage.inputs, ∀ id, input.stageId = some id →
      input.name = id ∧ ∃ earlier < position, ∃ target : Stage,
        stored.stages[earlier]? = some target ∧ target.id = id

/-- No id by which some input refers to a stage is the id of another position. -/
def Separate (stored : Query) : Prop :=
  ∀ (position : Nat) (target : Stage), stored.stages[position]? = some target →
    (∃ stage ∈ stored.stages, ∃ input ∈ stage.inputs, input.stageId = some target.id) →
      ∀ other < stored.stages.length, target.id = stageId other → other = position

/-- Every stage starts from the same dataset, or from the stage at the same
position. -/
def SameStarts (stored again : Query) : Prop :=
  ∀ (position : Nat) (stage : Stage), stored.stages[position]? = some stage →
    ∃ (stage' : Stage) (input input' : Input), again.stages[position]? = some stage' ∧
      stage.primary? = some input ∧ stage'.primary? = some input' ∧
      ((∃ id, input.datasetId = some id ∧ input'.datasetId = some id) ∨
        ∃ (earlier : Nat) (target target' : Stage), stored.stages[earlier]? = some target ∧
          again.stages[earlier]? = some target' ∧
          input.stageId = some target.id ∧ input'.stageId = some target'.id)

variable {stored : Query} {surface : Surface.Query} {position : Nat} {input : Input}
  {stage : Stage}

/-- Of the binding a stage starts from when it is expanded again only the target
counts. -/
theorem start_of_target_eq {again : Query} {validate : Validator}
    (hm : surface.Meaning validate again) (hlength : surface.stages.length = stored.stages.length)
    {binding started : Binding} (hstands : stored.Stands position input binding)
    (htarget : started.target = binding.target) :
    (∃ id, input.datasetId = some id ∧ started.toInput.datasetId = some id) ∨
      ∃ (earlier : Nat) (target target' : Stage), stored.stages[earlier]? = some target ∧
        again.stages[earlier]? = some target' ∧
        input.stageId = some target.id ∧ started.toInput.stageId = some target'.id := by
  obtain ⟨name', target'⟩ := started
  cases htarget
  cases hstands with
  | dataset => exact .inl ⟨_, rfl, rfl⟩
  | stage hlt htarget =>
    next earlier target =>
    -- the stage at that position has its new id
    have hlater : earlier < again.stages.length := by
      rw [hm.length, hlength]
      exact (List.getElem?_eq_some_iff.1 htarget).1
    have htarget' := List.getElem?_eq_getElem hlater
    refine .inr ⟨earlier, target, _, htarget, htarget', rfl, ?_⟩
    rw [hm.id_eq htarget']
    rfl

namespace Authored

/-! ### Authored queries are in order -/

/-- Every input stands for something. -/
theorem exists_stands (h : stored.Authored) (hstage : stored.stages[position]? = some stage)
    (hinput : input ∈ stage.inputs) : ∃ binding, stored.Stands position input binding := by
  refine exists_stands_of_target (h.target stage (List.mem_of_getElem? hstage) input hinput) ?_
  intro id hid
  exact (h.stage hstage input hinput id hid).2

/-- A stage is used by its own id. -/
theorem id_of_uses (h : stored.Authored) {name : String}
    (huses : stored.Uses (.stage name (stageId position))) :
    ∃ target, stored.stages[position]? = some target ∧ name = target.id := by
  obtain ⟨later, stage, hstage, input, hinput, hstands⟩ := huses
  obtain ⟨-, target, htarget, rfl⟩ := stands_stage_iff.1 hstands
  exact ⟨target, htarget, (h.stage hstage _ hinput _ rfl).1⟩

/-- A dataset that is used has a number and a name that can be declared. -/
theorem dataset_of_uses (h : stored.Authored) {name id : String}
    (huses : stored.Uses (.dataset name id)) :
    StageId.hasForm name = false ∧ Dataset.isNumber id.toList = true := by
  obtain ⟨position, stage, hstage, hinput⟩ := mem_allInputs.1 (uses_dataset_iff.1 huses)
  exact h.dataset stage (List.mem_of_getElem? hstage) _ hinput id rfl

/-- Its name is not the new id of any stage. -/
theorem ne_stageId_of_uses (h : stored.Authored) {name id : String}
    (huses : stored.Uses (.dataset name id)) (hlt : position < stored.stages.length) :
    name ≠ stageId position := by
  obtain ⟨_, stage, hstage, hinput⟩ := mem_allInputs.1 (uses_dataset_iff.1 huses)
  exact h.unlike stage (List.mem_of_getElem? hstage) _ hinput rfl position hlt

/-- A stage that is used is at some position, and used by its own id. -/
theorem exists_target (h : stored.Authored) {name id : String}
    (huses : stored.Uses (.stage name id)) :
    ∃ (position : Nat) (target : Stage), stored.stages[position]? = some target ∧
      id = stageId position ∧ name = target.id := by
  obtain ⟨position, target, htarget, rfl⟩ := exists_target_of_uses huses
  obtain ⟨target', htarget', hname⟩ := h.id_of_uses huses
  cases htarget.symm.trans htarget'
  exact ⟨position, target, htarget, rfl, hname⟩

/-- A query that is condensed gives no name to a dataset and to a stage. -/
theorem not_uses_stage (h : stored.Authored) (hcondense : stored.condense = .ok surface)
    {name id other : String} (huses : stored.Uses (.dataset name id)) :
    ¬ stored.Uses (.stage name other) := by
  intro huses'
  obtain ⟨position, target, htarget, rfl, -⟩ := h.exists_target huses'
  have hrefers := refers_of_uses_stage htarget huses'
  cases (refers_of_uses_dataset huses).eq_dataset hcondense hrefers

/-- What is used stands for one thing, by its name. -/
theorem eq_of_name_eq (h : stored.Authored) (hcondense : stored.condense = .ok surface)
    {binding other : Binding} (huses : stored.Uses binding) (huses' : stored.Uses other)
    (hname : binding.name = other.name) : binding = other := by
  obtain ⟨hshaped, -, -, -⟩ := condense_eq_ok_iff.1 hcondense
  obtain ⟨name, id | id⟩ := binding <;> obtain ⟨name', id' | id'⟩ := other <;> cases hname
  · have hrefers := refers_of_uses_dataset huses'
    cases (refers_of_uses_dataset huses).eq_dataset hcondense hrefers
    rfl
  · exact absurd huses' (h.not_uses_stage hcondense huses)
  · exact absurd huses (h.not_uses_stage hcondense huses')
  · -- both names are ids, and an id is that of one stage
    obtain ⟨position, target, htarget, rfl, hid⟩ := h.exists_target huses
    obtain ⟨position', target', htarget', rfl, hid'⟩ := h.exists_target huses'
    cases hshaped.position_unique htarget htarget' (hid.symm.trans hid')
    rfl

/-- **An authored query that is condensed is in order.** -/
theorem orderly (h : stored.Authored) (hcondense : stored.condense = .ok surface) :
    stored.Orderly := by
  obtain ⟨hshaped, -, -, -⟩ := condense_eq_ok_iff.1 hcondense
  refine ⟨hshaped, fun hstage input hinput => h.exists_stands hstage hinput,
    h.eq_of_name_eq hcondense, ?_, ?_⟩
  · -- every name of a stage is its id
    intro position name other huses huses' _ _
    obtain ⟨target, htarget, hname⟩ := h.id_of_uses huses
    obtain ⟨target', htarget', hname'⟩ := h.id_of_uses huses'
    cases htarget.symm.trans htarget'
    exact hname.trans hname'.symm
  · intro position stage hstage huses
    obtain ⟨target, htarget, hname⟩ := h.id_of_uses huses
    cases hstage.symm.trans htarget
    exact hname.symm

/-! ### Expanding it -/

theorem accepted (h : stored.Authored) : stored.Accepted Dataset.bareId? := by
  intro name id huses
  exact Dataset.bareId?_of_isNumber (h.dataset_of_uses huses).2

theorem declarable_of_uses (h : stored.Authored) (name id : String)
    (huses : stored.Uses (.dataset name id)) : Declarable Dataset.bareId? (name, id) := by
  obtain ⟨hform, hnumber⟩ := h.dataset_of_uses huses
  refine ⟨hform, Dataset.allBlank_eq_false_of_isNumber hnumber, ?_⟩
  rw [Dataset.bareId?_of_isNumber hnumber]
  rfl

/-- A stage is used where some input refers to it. -/
theorem uses_id_iff (h : stored.Authored) (horderly : stored.Orderly) {target : Stage}
    (htarget : stored.stages[position]? = some target) :
    stored.Uses (.stage target.id (stageId position)) ↔
      ∃ stage ∈ stored.stages, ∃ input ∈ stage.inputs, input.stageId = some target.id := by
  constructor
  · intro huses
    obtain ⟨later, -, stage, hstage, hinput⟩ := (uses_stage_iff htarget).1 huses
    exact ⟨stage, List.mem_of_getElem? hstage, _, hinput, rfl⟩
  · rintro ⟨stage, hmem, input, hinput, hid⟩
    obtain ⟨later, hstage⟩ := List.mem_iff_getElem?.1 hmem
    obtain ⟨earlier, -, target', htarget', hid', huses⟩ :=
      horderly.stage_of_stageId hstage hinput hid
    cases horderly.shaped.position_unique htarget htarget' hid'.symm
    rwa [(h.stage hstage input hinput _ hid).1] at huses

/-- An id in use that is the new id of another stage gets two targets. -/
theorem separate_of_singleTarget (h : stored.Authored) (horderly : stored.Orderly)
    (hr : stored.Recovers surface)
    (hsingle : SingleTarget (surface.visible Dataset.bareId? stored.stages.length)) :
    stored.Separate := by
  intro position target htarget hrefers other hlt hid
  have huses := (h.uses_id_iff horderly htarget).2 hrefers
  obtain ⟨hposition, -⟩ := List.getElem?_eq_some_iff.1 htarget
  have hold : Binding.stage target.id (stageId position) ∈ surface.visible _ _ :=
    (hr.mem_visible h.accepted (Nat.le_refl _)).2
      (.inr ⟨_, position, hposition, rfl, .inr huses⟩)
  have hnew : Binding.ownId (stageId other) ∈ surface.visible _ _ :=
    (hr.mem_visible h.accepted (Nat.le_refl _)).2
      (.inr ⟨_, other, hlt, rfl, .inl rfl⟩)
  exact (Binding.stage_inj.1 (hsingle _ hold _ hnew hid)).2.symm

/-- An id in use that is new is that of the stage that has it already. -/
theorem position_eq_of_uses (h : stored.Authored) (horderly : stored.Orderly)
    (hseparate : stored.Separate) {earlier : Nat} (hlt : earlier < stored.stages.length)
    (huses : stored.Uses (.stage (stageId earlier) (stageId position))) : earlier = position := by
  obtain ⟨target, htarget, hid⟩ := h.id_of_uses huses
  rw [hid] at huses
  have hrefers := (h.uses_id_iff horderly htarget).1 huses
  exact hseparate position target htarget hrefers earlier hlt hid.symm

/-- Where the ids in use are separate from the new ids, no name gets two
targets. -/
theorem singleTarget_of_separate (h : stored.Authored) (horderly : stored.Orderly)
    (hr : stored.Recovers surface) (hseparate : stored.Separate) :
    SingleTarget (surface.visible Dataset.bareId? stored.stages.length) := by
  intro binding hbinding other hother hname
  have hbinding := (hr.mem_visible h.accepted (Nat.le_refl _)).1 hbinding
  have hother := (hr.mem_visible h.accepted (Nat.le_refl _)).1 hother
  rcases hbinding with ⟨name, id, rfl, huses⟩ | ⟨name, earlier, hlt, rfl, hcalled⟩ <;>
    rcases hother with ⟨name', id', rfl, huses'⟩ | ⟨name', earlier', hlt', rfl, hcalled'⟩
  · exact horderly.single huses huses' hname
  · rcases hcalled' with rfl | huses'
    · exact absurd hname (h.ne_stageId_of_uses huses hlt')
    · exact horderly.single huses huses' hname
  · rcases hcalled with rfl | huses
    · exact absurd hname.symm (h.ne_stageId_of_uses huses' hlt)
    · exact horderly.single huses huses' hname
  · -- two stages: each name is an own id or one in use
    have hsame : name = name' := hname
    subst hsame
    rcases hcalled with hnew | huses
    · rcases hcalled' with hnew' | huses'
      · cases stageId_inj.1 (hnew.symm.trans hnew')
        rfl
      · subst hnew
        cases h.position_eq_of_uses horderly hseparate hlt huses'
        rfl
    · rcases hcalled' with hnew' | huses'
      · subst hnew'
        cases h.position_eq_of_uses horderly hseparate hlt' huses
        rfl
      · exact horderly.single huses huses' rfl

/-- Where the recovered query expands, every stage starts from what it started
from. -/
theorem sameStarts (h : stored.Authored) (horderly : stored.Orderly)
    (hr : stored.Recovers surface) {again : Query} (hagain : surface.expand = .ok again) :
    stored.SameStarts again := by
  have hm := Surface.Query.meaning_of_expandWith hagain
  intro position stage hstage
  obtain ⟨input, hprimary, hinput⟩ := horderly.shaped.exists_primary hstage
  obtain ⟨binding, hstands⟩ := h.exists_stands hstage hinput
  obtain ⟨condensed, stage', -, hstage', hexpands⟩ :=
    hr.expands h.accepted hm hstage hprimary hstands
  have htarget := binding.target_restart stage.pipeline position
  exact ⟨stage', input, _, hstage', hprimary, hexpands.primary?_eq,
    start_of_target_eq hm hr.length hstands htarget⟩

end Authored

/-- **When an authored query survives being condensed and expanded**: just where
no id that is used to refer to a stage is the new id of another. -/
theorem exists_expand_condensed_iff (h : stored.Authored)
    (hcondense : stored.condense = .ok surface) :
    (∃ again, surface.expand = .ok again ∧ stored.SameStarts again) ↔ stored.Separate := by
  have horderly := h.orderly hcondense
  have hr := horderly.recovers hcondense
  constructor
  · rintro ⟨again, hagain, -⟩
    have hm := Surface.Query.meaning_of_expandWith hagain
    apply h.separate_of_singleTarget horderly hr
    rw [← hr.length]
    exact hm.single
  · intro hseparate
    have hsingle := h.singleTarget_of_separate horderly hr hseparate
    have hproper := hr.proper hcondense h.declarable_of_uses
    obtain ⟨again, hagain⟩ :=
      hr.exists_expandWith horderly h.accepted hproper h.nonblank hsingle
    exact ⟨again, hagain, h.sameStarts horderly hr hagain⟩

/-! ### Two queries -/

/-- A query is authored, with its inputs checked one by one. -/
theorem Authored.of_checks (hcount : stored.stages.length ≤ positionLimit)
    (hnonblank : ∀ stage ∈ stored.stages, Text.allBlank stage.pipeline = false)
    (htarget : ∀ stage ∈ stored.stages, ∀ input ∈ stage.inputs,
      (input.datasetId.isSome = true ∧ input.stageId = none) ∨
        (input.datasetId = none ∧ input.stageId.isSome = true))
    (hdataset : ∀ stage ∈ stored.stages, ∀ input ∈ stage.inputs, ∀ id ∈ input.datasetId,
      StageId.hasForm input.name = false ∧ Dataset.isNumber id.toList = true)
    (hstage : ∀ entry ∈ stored.stages.zipIdx, ∀ input ∈ entry.1.inputs, ∀ id ∈ input.stageId,
      input.name = id ∧ ∃ earlier < entry.2, ∃ target ∈ stored.stages[earlier]?,
        target.id = id) : stored.Authored := by
  refine ⟨hnonblank, htarget, hdataset, ?_, ?_⟩
  · intro stage hmem input hinput hsome position hlt
    obtain ⟨id, hid⟩ := Option.isSome_iff_exists.1 hsome
    obtain ⟨hform, -⟩ := hdataset stage hmem input hinput id hid
    exact StageId.ne_of_hasForm_eq_false hform (Nat.lt_of_lt_of_le hlt hcount)
  · intro position stage hposition input hinput id hid
    exact hstage (stage, position) (List.mem_zipIdx_iff_getElem?.2 hposition) input hinput id hid

/-- A query with ids of its own. -/
def titled : Query where
  output := "final"
  stages :=
    [⟨"raw", "filter true", [.dataset "in" "1"]⟩,
      ⟨"shaped", "make_col a:1", [.ofStage "raw" "raw"]⟩,
      ⟨"final", "union @raw", [.ofStage "shaped" "shaped", .ofStage "raw" "raw"]⟩]

theorem titled_authored : titled.Authored := by
  apply Authored.of_checks <;> decide +kernel

/-- What it is condensed to. -/
def titledCondensed : Surface.Query where
  inputs := .ofList [("in", "1")]
  stages :=
    [⟨some "raw", none, "filter true"⟩, ⟨some "shaped", none, "make_col a:1"⟩,
      ⟨none, none, "union @raw"⟩]

theorem condense_titled : titled.condense = .ok titledCondensed := by
  decide +kernel

/-- Its ids are unlike new ones, so it survives. -/
theorem titled_survives :
    titled.Authored ∧ ∃ surface again, titled.condense = .ok surface ∧
      surface.expand = .ok again ∧ titled.SameStarts again := by
  have hseparate : titled.Separate := by
    have hids : ∀ target ∈ titled.stages, ∀ other < titled.stages.length,
        target.id ≠ stageId other := by
      decide +kernel
    intro position target htarget _ other hlt hid
    exact absurd hid (hids target (List.mem_of_getElem? htarget) other hlt)
  obtain ⟨again, hagain, hsame⟩ :=
    (exists_expand_condensed_iff titled_authored condense_titled).2 hseparate
  exact ⟨titled_authored, _, again, condense_titled, hagain, hsame⟩

/-- A query whose first stage was taken out, with the ids of before. -/
def shifted : Query where
  output := "stage-2"
  stages :=
    [⟨"stage-1", "filter true", [.dataset "in" "1"]⟩,
      ⟨"stage-2", "make_col a:1", [.ofStage "stage-1" "stage-1"]⟩]

/-- The id of its first stage is the new id of its second, and as an alias of the
first it keeps the second from being bound. -/
theorem shifted_lost :
    shifted.Authored ∧ ∃ surface, shifted.condense = .ok surface ∧
      surface.expand = .error (.nameTaken "stage-1") := by
  have hauthored : shifted.Authored := by
    apply Authored.of_checks <;> decide +kernel
  have hcondense : shifted.condense = .ok
      ⟨.ofList [("in", "1")],
        [⟨some "stage-1", none, "filter true"⟩, ⟨none, none, "make_col a:1"⟩]⟩ := by
    decide +kernel
  exact ⟨hauthored, _, hcondense, by decide +kernel⟩

end Backend.Query

end StagedQuery
