/-
StagedQuery/Proofs/WellFormed.lean

What every expanded query keeps to.

A stored query may be anything that its format allows.  Expansion makes much less
of it: `Backend.Query.WellFormed` lists what each outcome keeps to, whatever the
surface query and the validator were.  Within a stage this says that inputs are
told apart and have one target each; across stages, that references to stages
point backwards and that a name means the same everywhere.

The conditions are about the stored query alone, and two things follow from them
without a look at where it came from: no stage depends on itself, through however
many others (`WellFormed.acyclic`), and the query is condensed
(`WellFormed.exists_condense`).

Main statement: `wellFormed_of_expandWith`.
-/
import Mathlib.Logic.Relation
import StagedQuery.Proofs.Naming

namespace StagedQuery

open Backend

namespace Backend

/-- The input has a target, and just one. -/
inductive Input.Targeted : Input → Prop
  | dataset {name id : String} : Targeted ⟨name, some id, none⟩
  | stage {name id : String} : Targeted ⟨name, none, some id⟩

namespace Query

/-- The stage with the one id has an input for the stage with the other. -/
def Reads (stored : Query) (id target : String) : Prop :=
  ∃ stage ∈ stored.stages, stage.id = id ∧ ∃ input ∈ stage.inputs, input.stageId = some target

/-- What every expanded query keeps to. -/
structure WellFormed (stored : Query) : Prop extends stored.WellShaped where
  /-- Every input has one target. -/
  targeted : ∀ stage ∈ stored.stages, ∀ input ∈ stage.inputs, input.Targeted
  /-- References to stages point backwards. -/
  backward : ∀ {position : Nat} {stage : Stage}, stored.stages[position]? = some stage →
    ∀ input ∈ stage.inputs, ∀ {id : String}, input.stageId = some id →
      ∃ earlier < position, ∃ target : Stage,
        stored.stages[earlier]? = some target ∧ target.id = id
  /-- A stage has no two inputs of one name. -/
  named : ∀ stage ∈ stored.stages, (stage.inputs.map (·.name)).Nodup
  /-- The first stage starts from a dataset. -/
  rooted : ∃ (first : Stage) (input : Input), stored.stages[0]? = some first ∧
    first.primary? = some input ∧ input.datasetId.isSome = true
  /-- A name has one target, wherever it stands. -/
  single : ∀ {name : String} {target other : Target}, stored.Refers name target →
    stored.Refers name other → target = other

variable {stored : Query} {id target : String} {position : Nat} {stage : Stage}

/-! ### No cycles -/

/-- What a stage reads is before it. -/
theorem WellFormed.lt_of_reads (h : stored.WellFormed) (hreads : stored.Reads stage.id target)
    (hstage : stored.stages[position]? = some stage) :
    ∃ earlier < position, ∃ read, stored.stages[earlier]? = some read ∧ read.id = target := by
  obtain ⟨reader, hreader, hid, input, hinput, htarget⟩ := hreads
  obtain ⟨position', hposition'⟩ := List.mem_iff_getElem?.1 hreader
  cases h.position_unique hposition' hstage hid
  exact h.backward hposition' input hinput htarget

/-- So is what it reads through others. -/
theorem WellFormed.lt_of_transGen (h : stored.WellFormed)
    (hreads : Relation.TransGen stored.Reads stage.id target)
    (hstage : stored.stages[position]? = some stage) :
    ∃ earlier < position, ∃ read, stored.stages[earlier]? = some read ∧ read.id = target := by
  -- positions fall with every step of the path
  induction hreads with
  | single hreads => exact h.lt_of_reads hreads hstage
  | tail _ hreads ih =>
    obtain ⟨middle, hmiddle, read, hread, rfl⟩ := ih
    obtain ⟨earlier, hearlier, found⟩ := h.lt_of_reads hreads hread
    exact ⟨earlier, Nat.lt_trans hearlier hmiddle, found⟩

/-- **No stage depends on itself.** -/
theorem WellFormed.acyclic (h : stored.WellFormed) (id : String) :
    ¬ Relation.TransGen stored.Reads id id := by
  intro hcycle
  obtain ⟨next, ⟨reader, hreader, rfl, -⟩, -⟩ := Relation.TransGen.head'_iff.1 hcycle
  obtain ⟨position, hposition⟩ := List.mem_iff_getElem?.1 hreader
  obtain ⟨earlier, hlt, read, hread, hid⟩ := h.lt_of_transGen hcycle hposition
  exact absurd (h.position_unique hread hposition hid) (Nat.ne_of_lt hlt)

/-! ### Condensing -/

/-- **A well-formed query is condensed.** -/
theorem WellFormed.exists_condense (h : stored.WellFormed) :
    ∃ surface, stored.condense = .ok surface := by
  obtain ⟨first, input, hfirst, hprimary, hdataset⟩ := h.rooted
  obtain ⟨id, hid⟩ := Option.isSome_iff_exists.1 hdataset
  have hinput : input ∈ first.inputs := List.mem_of_mem_head? hprimary
  -- the root gives the dataset that is needed, and no name has a second target
  refine (exists_condense_iff h.toWellShaped).2 ⟨⟨input.name, id, ?_⟩, fun _ _ _ hname hname' => ?_⟩
  · exact refers_of_mem hfirst hinput hid
  · exact h.single hname' hname

end Query

end Backend

/-! ### Expanded queries -/

namespace Binding

theorem targeted_toInput (binding : Binding) : binding.toInput.Targeted := by
  obtain ⟨name, id | id⟩ := binding
  · exact .dataset
  · exact .stage

theorem refersTo_toInput {binding : Binding} {target : Target} :
    binding.toInput.RefersTo target ↔ target = binding.target := by
  obtain ⟨name, id | id⟩ := binding <;> cases target <;>
    simp [toInput, Input.dataset, Input.ofStage, Input.RefersTo, eq_comm]

end Binding

/-- What joins a stage goes by other names than its primary input, each once. -/
theorem nodup_names_inputsOf {scope : Scope} {visible : List Binding}
    (hscope : scope.Holds visible) {primary : Binding} {body : String} :
    ((inputsOf scope primary body).map (·.name)).Nodup := by
  rw [inputsOf_eq, List.map_cons, List.map_map, List.nodup_cons]
  simp only [List.mem_map, Function.comp_def, Binding.name_toInput]
  constructor
  · rintro ⟨binding, hbinding, hname⟩
    exact ((mem_supplementals hscope).1 hbinding).other hname
  · refine List.pairwise_map.2 ((increasing_supplementals hscope.distinct).imp ?_)
    exact fun {a b} hlt hname => String.lt_irrefl b.name (hname ▸ hlt)

namespace Surface.Query.Meaning

variable {query : Query} {validate : Validator} {stored : Backend.Query} {position : Nat}
  {expanded : Backend.Stage} {input : Input}

theorem targeted (hm : query.Meaning validate stored)
    (hexpanded : stored.stages[position]? = some expanded) (hinput : input ∈ expanded.inputs) :
    input.Targeted := by
  obtain ⟨binding, -, rfl⟩ := hm.exists_visible hexpanded hinput
  exact binding.targeted_toInput

/-- What a name refers to is visible under it. -/
theorem mem_visible_of_refersTo (hm : query.Meaning validate stored)
    (hexpanded : stored.stages[position]? = some expanded) (hinput : input ∈ expanded.inputs)
    {target : Target} (htarget : input.RefersTo target) :
    ⟨input.name, target⟩ ∈ query.visible validate position := by
  obtain ⟨binding, hvisible, rfl⟩ := hm.exists_visible hexpanded hinput
  rwa [Binding.name_toInput, Binding.refersTo_toInput.1 htarget]

/-- A stage is visible to those behind it only. -/
theorem backward (hm : query.Meaning validate stored)
    (hexpanded : stored.stages[position]? = some expanded) (hinput : input ∈ expanded.inputs)
    {id : String} (hid : input.stageId = some id) :
    ∃ earlier < position, ∃ target : Backend.Stage,
      stored.stages[earlier]? = some target ∧ target.id = id := by
  have htarget : input.RefersTo (.stage id) := hid
  have hvisible := hm.mem_visible_of_refersTo hexpanded hinput htarget
  obtain ⟨earlier, hlt, stage, hstage, rfl, -⟩ := mem_visible_stage.1 hvisible
  obtain ⟨_, target, htarget, hexpands⟩ := hm.expands hstage
  exact ⟨earlier, hlt, target, htarget, hexpands.id⟩

theorem nodup_names (hm : query.Meaning validate stored)
    (hexpanded : stored.stages[position]? = some expanded) :
    (expanded.inputs.map (·.name)).Nodup := by
  obtain ⟨stage, primary, -, hexpands⟩ := hm.exists_stage hexpanded
  obtain ⟨scope, hscope, hinputs⟩ := hexpands.inputs
  rw [hinputs]
  exact nodup_names_inputsOf hscope

/-- Nothing but datasets is visible to the first stage. -/
theorem rooted (hm : query.Meaning validate stored) :
    ∃ (first : Backend.Stage) (input : Input), stored.stages[0]? = some first ∧
      first.primary? = some input ∧ input.datasetId.isSome = true := by
  obtain ⟨stage, rest, hstages⟩ := List.exists_cons_of_ne_nil hm.nonempty
  have hstage : query.stages[0]? = some stage := by rw [hstages, List.getElem?_cons_zero]
  obtain ⟨primary, first, hfirst, hexpands⟩ := hm.expands hstage
  have hvisible := mem_visible_primary (Nat.zero_le _) hexpands.starts
  refine ⟨first, primary.toInput, hfirst, hexpands.primary?_eq, ?_⟩
  obtain ⟨name, id | id⟩ := primary
  · rfl
  · obtain ⟨earlier, hlt, -⟩ := mem_visible_stage.1 hvisible
    exact absurd hlt (Nat.not_lt_zero earlier)

/-- What names refer to is visible behind the last stage, all of it at once. -/
theorem refers_unique (hm : query.Meaning validate stored) {name : String}
    {target other : Target} (h : stored.Refers name target) (h' : stored.Refers name other) :
    target = other := by
  have hvisible : ∀ target, stored.Refers name target →
      ⟨name, target⟩ ∈ query.visible validate query.stages.length := by
    rintro target ⟨input, hinput, rfl, htarget⟩
    obtain ⟨position, expanded, hexpanded, hmem⟩ := mem_allInputs.1 hinput
    obtain ⟨hlt, -⟩ := List.getElem?_eq_some_iff.1 hexpanded
    rw [hm.length] at hlt
    exact mem_visible_of_le (Nat.le_of_lt hlt) (hm.mem_visible_of_refersTo hexpanded hmem htarget)
  exact congrArg Binding.target (hm.single _ (hvisible target h) _ (hvisible other h') rfl)

/-- **An expanded query is well formed.** -/
theorem wellFormed (hm : query.Meaning validate stored) : stored.WellFormed where
  toWellShaped := hm.wellShaped
  targeted expanded hmem _ hinput := by
    obtain ⟨position, hexpanded⟩ := List.mem_iff_getElem?.1 hmem
    exact hm.targeted hexpanded hinput
  backward hexpanded _ hinput _ hid := hm.backward hexpanded hinput hid
  named expanded hmem := by
    obtain ⟨position, hexpanded⟩ := List.mem_iff_getElem?.1 hmem
    exact hm.nodup_names hexpanded
  rooted := hm.rooted
  single := hm.refers_unique

end Surface.Query.Meaning

/-- **What expansion makes is well formed**; so it has no cycle, and it is
condensed. -/
theorem wellFormed_of_expandWith {query : Surface.Query} {validate : Validator}
    {stored : Backend.Query} (h : query.expandWith validate = .ok stored) :
    stored.WellFormed ∧ (∀ id, ¬ Relation.TransGen stored.Reads id id) ∧
      ∃ surface, stored.condense = .ok surface := by
  have hwellFormed := (Surface.Query.meaning_of_expandWith h).wellFormed
  exact ⟨hwellFormed, hwellFormed.acyclic, hwellFormed.exists_condense⟩

/-- The expanded example is well formed. -/
theorem joined_wellFormed :
    joined.expandWith Dataset.bareId? = .ok joinedStored ∧ joinedStored.WellFormed :=
  ⟨expand_joined, (wellFormed_of_expandWith expand_joined).1⟩

end StagedQuery
