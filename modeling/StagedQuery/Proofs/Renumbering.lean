/-
StagedQuery/Proofs/Renumbering.lean

A stored query whose inputs are spelled out.

Expansion lists behind the primary input of a stage every name that is visible
and that the body mentions.  A query that others wrote is *explicit* when its
stages do the same with the names it has to offer, its datasets and the ids of
the stages before, and when no body mentions the id that an earlier stage is
going to get.  Condensing such a query and expanding it again then does one
thing to it, which is to give each stage the id of its position:

    surface.expand = .ok stored.renumber.settle.

An old id that is used becomes an alias and is found under its name wherever it
was; one that is not used is mentioned nowhere, so that nobody looks for it.  The
new ids are visible as well, but a body finds none of them that was not an id
before.  As always, a primary input that continues from the stage before may take
the id of that one when its body mentions neither name, and this is what `settle`
does to it.
-/
import StagedQuery.Proofs.Authored
import StagedQuery.Proofs.Naming
import StagedQuery.Proofs.Stability

namespace StagedQuery

open Backend

/-! ### New ids -/

/-- The id of the position of the stage with this id. -/
def newId (stages : List Stage) (id : String) : String :=
  match stagePosition? stages id with
  | some position => stageId position
  | none => id

/-- The input with the new id of the stage it refers to. -/
def Backend.Input.renumber (input : Input) (stages : List Stage) : Input :=
  { input with stageId := input.stageId.map (newId stages) }

/-- The stage with its new id, and those of the stages it refers to. -/
def Backend.Stage.renumber (stage : Stage) (stages : List Stage) : Stage where
  id := newId stages stage.id
  pipeline := stage.pipeline
  inputs := stage.inputs.map (·.renumber stages)

/-- The query with the id of its position in place of every id. -/
def Backend.Query.renumber (query : Query) : Query where
  output := newId query.stages query.output
  stages := query.stages.map (·.renumber query.stages)

namespace Backend.Query

variable {stored : Query} {surface : Surface.Query} {position : Nat} {stage : Stage}
  {input primary : Input} {rest : List Input} {binding other : Binding}

theorem newId_eq (hshaped : stored.WellShaped) (hstage : stored.stages[position]? = some stage) :
    newId stored.stages stage.id = stageId position := by
  rw [newId, (stagePosition?_eq_some_iff hshaped.distinct).2 ⟨stage, hstage, rfl⟩]

/-- What an input stands for is the input with the new id. -/
theorem Stands.toInput_eq (hshaped : stored.WellShaped)
    (h : stored.Stands position input binding) :
    binding.toInput = input.renumber stored.stages := by
  cases h with
  | dataset => rfl
  | stage hlt htarget =>
    rw [Input.renumber, Input.ofStage, Option.map_some, newId_eq hshaped htarget]
    rfl

/-! ### Explicit queries -/

/-- The names a query has to offer at a position: those of its datasets, and the ids
of the stages before. -/
def namesAt (stored : Query) (position : Nat) : List String :=
  ((allInputs stored.stages).filterMap Input.dataset?).map (·.1) ++
    (stored.stages.take position).map (·.id)

/-- An authored query that lists what its bodies mention, and no body of which
mentions an id that is new. -/
structure Explicit (stored : Query) : Prop extends Authored stored where
  /-- An id that is that of some position is that of its own. -/
  ids : ∀ {position : Nat} {stage : Stage}, stored.stages[position]? = some stage →
    ∀ other < stored.stages.length, stage.id = stageId other → other = position
  /-- A dataset is not called like a stage of the query. -/
  apart : ∀ {name id : String}, stored.Refers name (.dataset id) →
    ∀ stage ∈ stored.stages, stage.id ≠ name
  /-- The inputs behind the primary one are in order of their names. -/
  increasing : ∀ stage ∈ stored.stages, stage.inputs.tail.Pairwise fun a b => a.name < b.name
  /-- Their names are those on offer that the body mentions, other than the name of
  the primary one. -/
  listed : ∀ {position : Nat} {stage : Stage}, stored.stages[position]? = some stage →
    ∀ {primary : Input} {rest : List Input}, stage.inputs = primary :: rest → ∀ name,
      (∃ input ∈ rest, input.name = name) ↔
        name ∈ stored.namesAt position ∧ name ≠ "" ∧ name ≠ primary.name ∧
          Text.mentions stage.pipeline name = true
  /-- No body mentions the new id of an earlier stage that has another one. -/
  unmentioned : ∀ {position : Nat} {stage : Stage}, stored.stages[position]? = some stage →
    ∀ earlier < position, ∀ target : Stage, stored.stages[earlier]? = some target →
      target.id ≠ stageId earlier → Text.mentions stage.pipeline (stageId earlier) = false

/-- What the names on offer at a position stand for. -/
inductive Offers (stored : Query) (position : Nat) : Binding → Prop
  | dataset {name id : String} (h : stored.Refers name (.dataset id)) :
    Offers stored position (.dataset name id)
  | stage {earlier : Nat} {target : Stage} (hlt : earlier < position)
      (htarget : stored.stages[earlier]? = some target) :
    Offers stored position (.stage target.id (stageId earlier))

theorem Offers.mem_namesAt (h : stored.Offers position binding) :
    binding.name ∈ stored.namesAt position := by
  rw [namesAt, List.mem_append, List.mem_map, List.mem_map]
  cases h with
  | dataset hrefers =>
    next name id =>
    exact .inl ⟨(name, id), mem_filterMap_dataset?_iff.2 hrefers, rfl⟩
  | stage hlt htarget =>
    rw [← List.getElem?_take_of_lt hlt] at htarget
    exact .inr ⟨_, List.mem_of_getElem? htarget, rfl⟩

namespace Explicit

/-- A name offers one thing. -/
theorem eq_of_offers (h : stored.Explicit) (hcondense : stored.condense = .ok surface)
    (hbinding : stored.Offers position binding) (hother : stored.Offers position other)
    (hname : binding.name = other.name) : binding = other := by
  obtain ⟨hshaped, -, -, -⟩ := condense_eq_ok_iff.1 hcondense
  cases hbinding with
  | dataset hrefers =>
    cases hother with
    | dataset hrefers' =>
      cases hname
      cases hrefers.eq_dataset hcondense hrefers'
      rfl
    | stage _ htarget' =>
      exact absurd hname.symm (h.apart hrefers _ (List.mem_of_getElem? htarget'))
  | stage _ htarget =>
    cases hother with
    | dataset hrefers' => exact absurd hname (h.apart hrefers' _ (List.mem_of_getElem? htarget))
    | stage _ htarget' =>
      cases hshaped.position_unique htarget htarget' hname
      cases htarget.symm.trans htarget'
      rfl

/-- What an input stands for is on offer. -/
theorem offers_of_stands (h : stored.Explicit) (hstage : stored.stages[position]? = some stage)
    (hinput : input ∈ stage.inputs) (hstands : stored.Stands position input binding) :
    stored.Offers position binding := by
  cases hstands with
  | dataset => exact .dataset (refers_of_mem hstage hinput rfl)
  | stage hlt htarget =>
    obtain ⟨hname, -⟩ := h.stage hstage _ hinput _ rfl
    cases hname
    exact .stage hlt htarget

/-- What is visible when the query is expanded again, and mentioned, was on offer. -/
theorem offers_of_visible (h : stored.Explicit) (hr : stored.Recovers surface)
    (hstage : stored.stages[position]? = some stage)
    (hvisible : binding ∈ surface.visible Dataset.bareId? position)
    (hmentioned : Text.mentions stage.pipeline binding.name = true) :
    stored.Offers position binding := by
  obtain ⟨hlt, -⟩ := List.getElem?_eq_some_iff.1 hstage
  rcases (hr.mem_visible h.accepted (Nat.le_of_lt hlt)).1 hvisible with
    ⟨name, id, rfl, huses⟩ | ⟨name, earlier, hearlier, rfl, hcalled⟩
  · exact .dataset (refers_of_uses_dataset huses)
  · have htarget := List.getElem?_eq_getElem (Nat.lt_trans hearlier hlt)
    have hname : name = stored.stages[earlier].id := by
      rcases hcalled with rfl | huses
      · -- a new id that is mentioned was an id before
        by_contra hne
        have hfree := h.unmentioned hstage earlier hearlier _ htarget (Ne.symm hne)
        have hmentioned : Text.mentions stage.pipeline (stageId earlier) = true := hmentioned
        rw [hmentioned] at hfree
        cases hfree
      · obtain ⟨target, htarget', hid⟩ := h.id_of_uses huses
        cases htarget.symm.trans htarget'
        exact hid
    rw [hname]
    exact .stage hearlier htarget

/-- **What supplements a stage again** are the inputs it listed. -/
theorem supplements_iff (h : stored.Explicit) (hcondense : stored.condense = .ok surface)
    (hstage : stored.stages[position]? = some stage) (hinputs : stage.inputs = primary :: rest)
    {started : Binding} (hstands : stored.Stands position primary started) :
    Supplements (surface.visible Dataset.bareId? position)
        (started.restart stage.pipeline position) stage.pipeline binding ↔
      ∃ input ∈ rest, stored.Stands position input binding := by
  have hr := (h.orderly hcondense).recovers hcondense
  have hmem : ∀ input ∈ rest, input ∈ stage.inputs :=
    fun input hinput => hinputs ▸ List.mem_cons_of_mem _ hinput
  constructor
  · intro hs
    have hoffers := h.offers_of_visible hr hstage hs.visible hs.mentioned
    have hother := (Binding.name_restart_ne_iff hs.mentioned).1 hs.other
    rw [← hstands.name_eq] at hother
    obtain ⟨input, hinput, hname⟩ := (h.listed hstage hinputs binding.name).2
      ⟨hoffers.mem_namesAt, hs.nonempty, hother, hs.mentioned⟩
    obtain ⟨binding', hstands'⟩ := h.exists_stands hstage (hmem input hinput)
    have hoffers' := h.offers_of_stands hstage (hmem input hinput) hstands'
    cases h.eq_of_offers hcondense hoffers' hoffers (hstands'.name_eq.symm.trans hname)
    exact ⟨input, hinput, hstands'⟩
  · rintro ⟨input, hinput, hstands'⟩
    have hname := hstands'.name_eq
    obtain ⟨-, hnonempty, hother, hmentioned⟩ :=
      (h.listed hstage hinputs binding.name).1 ⟨input, hinput, hname⟩
    have hvisible := hr.visible_of_stands h.accepted hstage (hmem input hinput) hstands'
    rw [hstands.name_eq] at hother
    exact ⟨hvisible, (Binding.name_restart_ne_iff hmentioned).2 hother, hnonempty, hmentioned⟩

/-- The supplemental inputs are those listed, with the new ids. -/
theorem supplementals_eq (h : stored.Explicit) (hcondense : stored.condense = .ok surface)
    (hstage : stored.stages[position]? = some stage) (hinputs : stage.inputs = primary :: rest)
    {started : Binding} (hstands : stored.Stands position primary started) {scope : Scope}
    (hscope : scope.Holds (surface.visible Dataset.bareId? position)) :
    (supplementals scope (started.restart stage.pipeline position) stage.pipeline).map
        Binding.toInput =
      rest.map (·.renumber stored.stages) := by
  obtain ⟨hshaped, -, -, -⟩ := condense_eq_ok_iff.1 hcondense
  have hincreasing : rest.Pairwise fun a b => a.name < b.name := by
    have htail := h.increasing stage (List.mem_of_getElem? hstage)
    rwa [hinputs, List.tail_cons] at htail
  apply eq_of_increasing_names Input.name
  · refine List.pairwise_map.2 ((increasing_supplementals hscope.distinct).imp fun hlt => ?_)
    rwa [Binding.name_toInput, Binding.name_toInput]
  · exact List.pairwise_map.2 hincreasing
  · intro input
    simp only [List.mem_map, mem_supplementals hscope,
      h.supplements_iff hcondense hstage hinputs hstands]
    constructor
    · rintro ⟨binding, ⟨input, hinput, hstands'⟩, rfl⟩
      exact ⟨input, hinput, (hstands'.toInput_eq hshaped).symm⟩
    · rintro ⟨input, hinput, rfl⟩
      have hmem : input ∈ stage.inputs := hinputs ▸ List.mem_cons_of_mem _ hinput
      obtain ⟨binding, hstands'⟩ := h.exists_stands hstage hmem
      exact ⟨binding, ⟨input, hinput, hstands'⟩, hstands'.toInput_eq hshaped⟩

/-- A stage that is expanded again comes out with its new id, settled. -/
theorem eq_settle_renumber (h : stored.Explicit) (hcondense : stored.condense = .ok surface)
    {again : Query} (hm : surface.Meaning Dataset.bareId? again)
    (hstage : stored.stages[position]? = some stage) :
    again.stages[position]? = some ((stage.renumber stored.stages).settle position) := by
  obtain ⟨hshaped, -, -, -⟩ := condense_eq_ok_iff.1 hcondense
  have hr := (h.orderly hcondense).recovers hcondense
  obtain ⟨primary, rest, hinputs⟩ :=
    List.exists_cons_of_ne_nil (hshaped.listed stage (List.mem_of_getElem? hstage))
  have hprimary : stage.primary? = some primary := by rw [Stage.primary?, hinputs]; rfl
  obtain ⟨started, hstands⟩ := h.exists_stands hstage (List.mem_of_mem_head? hprimary)
  obtain ⟨condensed, expanded, hpipeline, hexpanded, hexpands⟩ :=
    hr.expands h.accepted hm hstage hprimary hstands
  obtain ⟨scope, hscope, rfl⟩ := hexpands.exists_eq
  rw [hexpanded, hpipeline, inputsOf_eq, Binding.toInput_restart,
    h.supplementals_eq hcondense hstage hinputs hstands hscope, hstands.toInput_eq hshaped,
    Stage.renumber, newId_eq hshaped hstage, hinputs]
  rfl

/-- No id in use is new to another stage. -/
theorem separate (h : stored.Explicit) : stored.Separate :=
  fun _ _ htarget _ => h.ids htarget

end Explicit

/-- The output is the last stage, so its new id is that of the last position. -/
theorem output_renumber (hshaped : stored.WellShaped) :
    stored.renumber.output = stageId (stored.stages.length - 1) := by
  obtain ⟨last, hlast, hid⟩ := Option.map_eq_some_iff.1 hshaped.output
  rw [List.getLast?_eq_getElem?] at hlast
  rw [renumber, ← hid, newId_eq hshaped hlast]

/-- **An explicit query that is condensed and expanded has new ids**, and is the
same but for these, save for the names that a place implies. -/
theorem expand_renumber (h : stored.Explicit) (hcondense : stored.condense = .ok surface) :
    surface.expand = .ok stored.renumber.settle := by
  obtain ⟨hshaped, -, -, -⟩ := condense_eq_ok_iff.1 hcondense
  have horderly := h.orderly hcondense
  have hr := horderly.recovers hcondense
  have hsingle := h.singleTarget_of_separate horderly hr h.separate
  have hproper := hr.proper hcondense h.declarable_of_uses
  obtain ⟨again, hagain⟩ := hr.exists_expandWith horderly h.accepted hproper h.nonblank hsingle
  have hm := Surface.Query.meaning_of_expandWith hagain
  have houtput : again.output = stored.renumber.output := by
    rw [hm.output, output_renumber hshaped, hr.length]
  have hlength : again.stages.length = stored.renumber.stages.length := by
    rw [hm.length, hr.length, renumber, List.length_map]
  have hsettle : again = stored.renumber.settle := by
    apply eq_settle_of_stages houtput hlength
    intro position stage' hstage'
    obtain ⟨stage, hstage, rfl⟩ := Option.map_eq_some_iff.1 (List.getElem?_map .. ▸ hstage')
    exact h.eq_settle_renumber hcondense hm hstage
  rw [Surface.Query.expand, hagain, hsettle]

/-! ### One query -/

/-- An authored query is explicit, with its names and ids checked one by one. -/
theorem Explicit.of_checks (hauthored : stored.Authored)
    (hids : ∀ entry ∈ stored.stages.zipIdx, ∀ other < stored.stages.length,
      entry.1.id = stageId other → other = entry.2)
    (hapart : ∀ input ∈ allInputs stored.stages, input.datasetId.isSome = true →
      ∀ stage ∈ stored.stages, stage.id ≠ input.name)
    (hincreasing : ∀ stage ∈ stored.stages,
      stage.inputs.tail.Pairwise fun a b => a.name < b.name)
    (hlisted : ∀ entry ∈ stored.stages.zipIdx, ∀ primary ∈ entry.1.primary?,
      ∀ input ∈ entry.1.inputs.tail,
        input.name ∈ stored.namesAt entry.2 ∧ input.name ≠ "" ∧ input.name ≠ primary.name ∧
          Text.mentions entry.1.pipeline input.name = true)
    (hfound : ∀ entry ∈ stored.stages.zipIdx, ∀ primary ∈ entry.1.primary?,
      ∀ name ∈ stored.namesAt entry.2, name ≠ "" → name ≠ primary.name →
        Text.mentions entry.1.pipeline name = true →
          ∃ input ∈ entry.1.inputs.tail, input.name = name)
    (hunmentioned : ∀ entry ∈ stored.stages.zipIdx, ∀ earlier < entry.2,
      ∀ target ∈ stored.stages[earlier]?, target.id ≠ stageId earlier →
        Text.mentions entry.1.pipeline (stageId earlier) = false) : stored.Explicit := by
  have hentry : ∀ {position : Nat} {stage : Stage}, stored.stages[position]? = some stage →
      (stage, position) ∈ stored.stages.zipIdx :=
    fun hstage => List.mem_zipIdx_iff_getElem?.2 hstage
  refine ⟨hauthored, fun hstage => hids _ (hentry hstage), ?_, hincreasing, ?_,
    fun hstage => hunmentioned _ (hentry hstage)⟩
  · rintro name id ⟨input, hinput, rfl, hid⟩
    exact hapart input hinput (Option.isSome_of_eq_some hid)
  · intro position stage hstage primary rest hinputs name
    have hprimary : primary ∈ stage.primary? := by rw [Stage.primary?, hinputs]; rfl
    have hlisted := hlisted _ (hentry hstage) primary hprimary
    have hfound := hfound _ (hentry hstage) primary hprimary name
    rw [hinputs] at hlisted hfound
    constructor
    · rintro ⟨input, hinput, rfl⟩
      exact hlisted input hinput
    · rintro ⟨hname, hnonempty, hother, hmentioned⟩
      exact hfound hname hnonempty hother hmentioned

/-- Its last stage finds the first under the old id. -/
theorem titled_renumbered :
    titled.Explicit ∧ ∃ surface, titled.condense = .ok surface ∧ surface.expand = .ok
      ⟨"stage-2",
        [⟨"stage-0", "filter true", [.dataset "in" "1"]⟩,
          ⟨"stage-1", "make_col a:1", [.ofStage "stage-0" "stage-0"]⟩,
          ⟨"stage-2", "union @raw",
            [.ofStage "stage-1" "stage-1", .ofStage "raw" "stage-0"]⟩]⟩ := by
  have hexplicit : titled.Explicit := by
    apply Explicit.of_checks titled_authored <;> decide +kernel
  refine ⟨hexplicit, _, condense_titled, ?_⟩
  rw [expand_renumber hexplicit condense_titled]
  decide +kernel

end Backend.Query

end StagedQuery
