/-
StagedQuery/Proofs/Retargeting.lean

Whether a stage keeps what it starts from when a stored query is condensed and
expanded again.

Here stages may go by any names, and one stage by several.  Only one of these is
kept as its alias, so an explicit input under another one is looked up afresh.
What it can find is told apart by how the name got bound:

* a declared input of that name would be a dataset, and no dataset's name refers
  to a stage;
* an alias of that name is a name the stored query used for the same stage;
* the id of an earlier position is bound whatever the stored query used it for.

The last is the one way to another target.  It takes a stage that has an alias
already and is called, beside it, by the id of a position it is not at: as an
alias that id would be refused, as a second name it finds the stage at that
position.  So every stage starts from what it started from just where each
explicit input that is such an id was one for the stage there
(`sameStarts_iff_keepsIds`).
-/
import StagedQuery.Proofs.Authored
import StagedQuery.Proofs.Naming

namespace StagedQuery

open Backend

namespace Backend.Query

/-- A query whose references are sound, under whatever names. -/
structure Linked (stored : Query) : Prop where
  /-- Every input has one target. -/
  target : ∀ stage ∈ stored.stages, ∀ input ∈ stage.inputs,
    (input.datasetId.isSome = true ∧ input.stageId = none) ∨
      (input.datasetId = none ∧ input.stageId.isSome = true)
  /-- A stage is an earlier one. -/
  stage : ∀ {position : Nat} {stage : Stage}, stored.stages[position]? = some stage →
    ∀ input ∈ stage.inputs, ∀ id, input.stageId = some id →
      ∃ earlier < position, ∃ target : Stage, stored.stages[earlier]? = some target ∧
        target.id = id
  /-- A name refers to one thing. -/
  single : ∀ {name : String} {target other : Target}, stored.Refers name target →
    stored.Refers name other → target = other
  /-- A dataset has a number. -/
  number : ∀ {name id : String}, stored.Refers name (.dataset id) →
    Dataset.isNumber id.toList = true

/-- Where a stage of the surface query names the id of an earlier position, the
stored stage started from the stage there. -/
def KeepsIds (stored : Query) (surface : Surface.Query) : Prop :=
  ∀ (position : Nat) (condensed : Surface.Stage), surface.stages[position]? = some condensed →
    ∀ other < position, condensed.inputName = some (stageId other) →
      ∃ (stage target : Stage) (input : Input), stored.stages[position]? = some stage ∧
        stored.stages[other]? = some target ∧ stage.primary? = some input ∧
        input.stageId = some target.id

variable {stored again : Query} {surface : Surface.Query} {position : Nat} {input : Input}
  {stage : Stage} {binding started : Binding} {condensed : Surface.Stage}

/-- A stage is condensed with the alias of its id, and names its primary input
unless that is implied. -/
theorem names_of_condense (hcondense : stored.condense = .ok surface)
    (hstage : stored.stages[position]? = some stage) (hprimary : stage.primary? = some input)
    (hcondensed : surface.stages[position]? = some condensed) :
    condensed.aliasName = aliasOf? (aliasesOf stored.stages) stage.id ∧
      condensed.inputName =
        if isImplied surface.inputs (aliasesOf stored.stages)
            (beforeAt stored.stages position) input stage.pipeline then none
        else some input.name := by
  rw [getElem?_of_condense hcondense, hstage] at hcondensed
  cases hcondensed
  simp only [condenseStage, hprimary, and_self]

namespace Linked

theorem exists_stands (h : stored.Linked) (hstage : stored.stages[position]? = some stage)
    (hinput : input ∈ stage.inputs) : ∃ binding, stored.Stands position input binding :=
  exists_stands_of_target (h.target stage (List.mem_of_getElem? hstage) input hinput)
    (h.stage hstage input hinput)

/-! ### What a name can find -/

/-- A declared input is what the name stands for. -/
theorem eq_of_mem_bound (h : stored.Linked) (hcondense : stored.condense = .ok surface)
    (hstage : stored.stages[position]? = some stage) (hinput : input ∈ stage.inputs)
    (hstands : stored.Stands position input binding)
    (hbound : started ∈ surface.inputs.bound Dataset.bareId?)
    (hname : started.name = input.name) : started = binding := by
  obtain ⟨name, reference, id, hentry, hid, rfl⟩ := Inputs.mem_bound.1 hbound
  have hname : name = input.name := hname
  subst hname
  have hrefers := (mem_inputs_iff hcondense).1 hentry
  rw [Dataset.bareId?_of_isNumber (h.number hrefers)] at hid
  cases hid
  cases hstands with
  | dataset =>
    have hown : stored.Refers _ (.dataset _) := refers_of_mem hstage hinput rfl
    cases h.single hrefers hown
    rfl
  | stage hlt htarget =>
    have hown : stored.Refers _ (.stage _) := refers_of_mem hstage hinput rfl
    cases h.single hrefers hown

/-- An alias is a name of the same stage. -/
theorem target_of_alias (h : stored.Linked) (hshaped : stored.WellShaped)
    (hstage : stored.stages[position]? = some stage) (hinput : input ∈ stage.inputs)
    (hstands : stored.Stands position input binding) {earlier : Nat} {target : Stage}
    (htarget : stored.stages[earlier]? = some target)
    (halias : aliasOf? (aliasesOf stored.stages) target.id = some input.name) :
    binding.target = .stage (stageId earlier) := by
  obtain ⟨later, user, huser, other, hother, huse⟩ :=
    mem_aliasUses.1 (mem_aliasUses_of_aliasOf? halias)
  obtain ⟨hid, hname, -⟩ := aliasUse?_eq_some_iff.1 huse
  have hname : other.name = input.name := hname
  have hrefers : stored.Refers other.name (.stage target.id) := refers_of_mem huser hother hid
  rw [hname] at hrefers
  cases hstands with
  | dataset =>
    have hown : stored.Refers _ (.dataset _) := refers_of_mem hstage hinput rfl
    cases h.single hrefers hown
  | stage hlt htarget' =>
    have hown : stored.Refers _ (.stage _) := refers_of_mem hstage hinput rfl
    have hids := Target.stage.inj (h.single hrefers hown)
    cases hshaped.position_unique htarget htarget' hids
    rfl

/-- **What a name finds** is what it stood for, unless it is the id of an earlier
position. -/
theorem target_of_visible (h : stored.Linked) (hcondense : stored.condense = .ok surface)
    (hstage : stored.stages[position]? = some stage) (hinput : input ∈ stage.inputs)
    (hstands : stored.Stands position input binding)
    (hvisible : started ∈ surface.visible Dataset.bareId? position)
    (hname : started.name = input.name) :
    started.target = binding.target ∨
      ∃ other < position, input.name = stageId other ∧ started = .ownId (stageId other) := by
  obtain ⟨hshaped, -, -, -⟩ := condense_eq_ok_iff.1 hcondense
  obtain ⟨name, id | id⟩ := started
  · have hbound := Surface.Query.mem_visible_dataset.1 hvisible
    have hsame := h.eq_of_mem_bound hcondense hstage hinput hstands hbound hname
    exact .inl (congrArg Binding.target hsame)
  · obtain ⟨earlier, hlt, condensed, hcondensed, rfl, hcalled⟩ :=
      Surface.Query.mem_visible_stage.1 hvisible
    have hname : name = input.name := hname
    subst hname
    rcases hcalled with hown | halias
    · exact .inr ⟨earlier, hlt, hown, by rw [hown]; rfl⟩
    · obtain ⟨target, htarget⟩ : ∃ target, stored.stages[earlier]? = some target := by
        obtain ⟨hearlier, -⟩ := List.getElem?_eq_some_iff.1 hcondensed
        rw [length_of_condense hcondense] at hearlier
        exact ⟨_, List.getElem?_eq_getElem hearlier⟩
      obtain ⟨primary, hprimary, -⟩ := hshaped.exists_primary htarget
      rw [(names_of_condense hcondense htarget hprimary hcondensed).1] at halias
      exact .inl (h.target_of_alias hshaped hstage hinput hstands htarget halias).symm

/-- What its place implies is what a stage started from. -/
theorem target_of_implied (h : stored.Linked) (hcondense : stored.condense = .ok surface)
    (hstage : stored.stages[position]? = some stage) (hinput : input ∈ stage.inputs)
    (hstands : stored.Stands position input binding) {body : String}
    (himplied : isImplied surface.inputs (aliasesOf stored.stages)
      (beforeAt stored.stages position) input body = true)
    (hpassed : surface.passed Dataset.bareId? position = some started) :
    started.target = binding.target := by
  obtain ⟨hshaped, -, -, -⟩ := condense_eq_ok_iff.1 hcondense
  cases position with
  | zero =>
    have honly : isOnlyInput surface.inputs input = true := himplied
    simp only [isOnlyInput, Bool.and_eq_true, decide_eq_true_eq] at honly
    obtain ⟨⟨hsize, -⟩, hcontains⟩ := honly
    have hbound := ((Inputs.holds_bound.only?_eq_some_iff.1 hpassed) started).2 rfl
    -- one input is declared, so it is the one of that name
    have hname : started.name = input.name := by
      obtain ⟨name, reference, id, hentry, -, rfl⟩ := Inputs.mem_bound.1 hbound
      obtain ⟨reference', hentry'⟩ := Inputs.contains_iff.1 hcontains
      obtain ⟨entry, hentries⟩ := List.length_eq_one_iff.1 hsize
      rw [hentries, List.mem_singleton] at hentry hentry'
      exact congrArg Prod.fst (hentry.trans hentry'.symm)
    rw [h.eq_of_mem_bound hcondense hstage hinput hstands hbound hname]
  | succ previous =>
    obtain ⟨hlt, -⟩ := List.getElem?_eq_some_iff.1 hstage
    have hbefore := List.getElem?_eq_getElem (Nat.lt_of_succ_lt hlt)
    rw [beforeAt, hbefore, Option.map_some] at himplied
    rw [Surface.Query.passed_succ, Option.some.injEq] at hpassed
    subst hpassed
    simp only [isImplied, continuesFrom, Bool.and_eq_true] at himplied
    obtain ⟨⟨⟨hdataset, hcontinues⟩, -⟩, -⟩ := himplied
    cases hstands with
    | dataset => cases hdataset
    | stage hearlier htarget =>
      have hids := by simpa [Input.ofStage] using hcontinues
      cases hshaped.position_unique htarget hbefore hids
      rfl

/-! ### What stages start from -/

/-- A stage starts from what it started from, or else from the stage at an earlier
position whose id it names. -/
theorem target_of_starts (h : stored.Linked) (hcondense : stored.condense = .ok surface)
    (hstage : stored.stages[position]? = some stage) (hprimary : stage.primary? = some input)
    (hstands : stored.Stands position input binding)
    (hcondensed : surface.stages[position]? = some condensed)
    (hstarts : Starts (surface.visible Dataset.bareId? position)
      (surface.passed Dataset.bareId? position) condensed started) :
    started.target = binding.target ∨
      ∃ other < position, condensed.inputName = some (stageId other) ∧
        started = .ownId (stageId other) := by
  have hinput : input ∈ stage.inputs := List.mem_of_mem_head? hprimary
  obtain ⟨-, hinputName⟩ := names_of_condense hcondense hstage hprimary hcondensed
  rcases hstarts with ⟨hname, hvisible⟩ | ⟨hname, hpassed⟩
  · rw [hname] at hinputName
    have hsame : started.name = input.name := by
      split at hinputName
      · cases hinputName
      · exact Option.some.inj hinputName
    rcases h.target_of_visible hcondense hstage hinput hstands hvisible hsame with
      htarget | ⟨other, hlt, hid, hown⟩
    · exact .inl htarget
    · exact .inr ⟨other, hlt, by rw [hname, hsame, hid], hown⟩
  · rw [hname] at hinputName
    split at hinputName
    · next himplied =>
      exact .inl (h.target_of_implied hcondense hstage hinput hstands himplied hpassed)
    · cases hinputName

theorem sameStarts_of_keepsIds (h : stored.Linked) (hcondense : stored.condense = .ok surface)
    (hagain : surface.expand = .ok again) (hkeeps : stored.KeepsIds surface) :
    stored.SameStarts again := by
  obtain ⟨hshaped, -, -, -⟩ := condense_eq_ok_iff.1 hcondense
  have hlength := length_of_condense hcondense
  have hm := Surface.Query.meaning_of_expandWith hagain
  intro position stage hstage
  obtain ⟨input, hprimary, hinput⟩ := hshaped.exists_primary hstage
  obtain ⟨binding, hstands⟩ := h.exists_stands hstage hinput
  obtain ⟨hlt, -⟩ := List.getElem?_eq_some_iff.1 hstage
  have hcondensed := List.getElem?_eq_getElem (hlength.symm ▸ hlt)
  obtain ⟨started, stage', hstage', hexpands⟩ := hm.expands hcondensed
  have htarget : started.target = binding.target := by
    rcases h.target_of_starts hcondense hstage hprimary hstands hcondensed hexpands.starts with
      htarget | ⟨other, hearlier, hname, rfl⟩
    · exact htarget
    · -- the name is an id, which was one for the stage there
      obtain ⟨stage₁, target, input₁, hstage₁, htarget, hprimary₁, hid⟩ :=
        hkeeps position _ hcondensed other hearlier hname
      cases hstage.symm.trans hstage₁
      cases hprimary.symm.trans hprimary₁
      cases hstands with
      | dataset => cases hid
      | stage _ htarget' =>
        cases hshaped.position_unique htarget' htarget (Option.some.inj hid)
        rfl
  exact ⟨stage', input, _, hstage', hprimary, hexpands.primary?_eq,
    start_of_target_eq hm hlength hstands htarget⟩

end Linked

/-- An explicit input that is the id of an earlier position starts the stage from
the one there, so that this must be where it started. -/
theorem keepsIds_of_sameStarts (hagain : surface.expand = .ok again)
    (hlength : surface.stages.length = stored.stages.length)
    (hsame : stored.SameStarts again) : stored.KeepsIds surface := by
  have hm := Surface.Query.meaning_of_expandWith hagain
  intro position condensed hcondensed other hother hname
  obtain ⟨hlt, -⟩ := List.getElem?_eq_some_iff.1 hcondensed
  have hle := Nat.le_of_lt hlt
  obtain ⟨started, stage', hstage', hexpands⟩ := hm.expands hcondensed
  have hown : Binding.ownId (stageId other) ∈ surface.visible Dataset.bareId? position :=
    Surface.Query.mem_visible_ownId hother hle
  cases Starts.unique (hm.singleTarget hle) hexpands.starts (.named hname hown)
  rw [hlength] at hlt
  obtain ⟨stage₁, input, input', hstage₁, hprimary, hprimary', hstart⟩ :=
    hsame position _ (List.getElem?_eq_getElem hlt)
  cases hstage'.symm.trans hstage₁
  cases hexpands.primary?_eq.symm.trans hprimary'
  rcases hstart with ⟨id, -, hdataset⟩ | ⟨earlier, target, target', htarget, htarget', hid, hid'⟩
  · cases hdataset
  · -- ids of positions tell the positions apart
    have hids : stageId other = target'.id := Option.some.inj hid'
    rw [hm.id_eq htarget', stageId_inj] at hids
    subst hids
    exact ⟨_, target, input, List.getElem?_eq_getElem hlt, htarget, hprimary, hid⟩

/-- **When a cycle keeps what stages start from**: just where every explicit input
left by condensing that is the id of an earlier position was one for the stage
there. -/
theorem sameStarts_iff_keepsIds (h : stored.Linked) (hcondense : stored.condense = .ok surface)
    (hagain : surface.expand = .ok again) :
    stored.SameStarts again ↔ stored.KeepsIds surface :=
  ⟨keepsIds_of_sameStarts hagain (length_of_condense hcondense),
    h.sameStarts_of_keepsIds hcondense hagain⟩

/-! ### Two queries -/

/-- The references of a query are sound, checked one by one. -/
theorem Linked.of_checks
    (htarget : ∀ stage ∈ stored.stages, ∀ input ∈ stage.inputs,
      (input.datasetId.isSome = true ∧ input.stageId = none) ∨
        (input.datasetId = none ∧ input.stageId.isSome = true))
    (hstage : ∀ entry ∈ stored.stages.zipIdx, ∀ input ∈ entry.1.inputs, ∀ id ∈ input.stageId,
      ∃ earlier < entry.2, ∃ target ∈ stored.stages[earlier]?, target.id = id)
    (hsingle : ∀ input ∈ allInputs stored.stages, ∀ other ∈ allInputs stored.stages,
      input.name = other.name →
        input.datasetId = other.datasetId ∧ input.stageId = other.stageId)
    (hnumber : ∀ input ∈ allInputs stored.stages, ∀ id ∈ input.datasetId,
      Dataset.isNumber id.toList = true) : stored.Linked := by
  refine ⟨htarget, ?_, ?_, ?_⟩
  · intro position stage hposition input hinput id hid
    exact hstage (stage, position) (List.mem_zipIdx_iff_getElem?.2 hposition) input hinput id hid
  · rintro name target other ⟨input, hinput, rfl, hrefers⟩ ⟨input', hinput', hname, hrefers'⟩
    obtain ⟨hdataset, hstage⟩ := hsingle input hinput input' hinput' hname.symm
    obtain ⟨position, stage, hposition, hmem⟩ := mem_allInputs.1 hinput
    have hone := htarget stage (List.mem_of_getElem? hposition) input hmem
    cases target <;> cases other <;> simp_all [Input.RefersTo]
  · rintro name id ⟨input, hinput, -, hid⟩
    exact hnumber input hinput id hid

/-- A query that calls its first stage by two names, one of them the id of its
position. -/
def renamed : Query where
  output := "final"
  stages :=
    [⟨"raw", "filter true", [.dataset "in" "1"]⟩,
      ⟨"shaped", "make_col a:1", [.ofStage "x" "raw"]⟩,
      ⟨"final", "union @x", [.ofStage "stage-0" "raw", .ofStage "x" "raw"]⟩]

/-- What it is condensed to: the id is left as an explicit input. -/
def renamedCondensed : Surface.Query where
  inputs := .ofList [("in", "1")]
  stages :=
    [⟨some "x", none, "filter true"⟩, ⟨none, none, "make_col a:1"⟩,
      ⟨none, some "stage-0", "union @x"⟩]

/-- The id finds the stage it was used for. -/
theorem renamed_sameStarts :
    renamed.Linked ∧ renamed.condense = .ok renamedCondensed ∧
      ∃ again, renamedCondensed.expand = .ok again ∧ renamed.SameStarts again := by
  have hlinked : renamed.Linked := by
    apply Linked.of_checks <;> decide +kernel
  have hcondense : renamed.condense = .ok renamedCondensed := by decide +kernel
  have hagain : renamedCondensed.expand = .ok
      ⟨"stage-2",
        [⟨"stage-0", "filter true", [.dataset "in" "1"]⟩,
          ⟨"stage-1", "make_col a:1", [.ofStage "stage-0" "stage-0"]⟩,
          ⟨"stage-2", "union @x",
            [.ofStage "stage-0" "stage-0", .ofStage "x" "stage-0"]⟩]⟩ := by
    simp only [Surface.Query.expand, Surface.Query.expandWith, Surface.Query.expandIn,
      renamedCondensed, expandFrom, expandStage, inputsOf, supplementalNames,
      sortedNames_eq_insertionSort]
    decide +kernel
  have hkeeps : ∀ entry ∈ renamedCondensed.stages.zipIdx, ∀ other < entry.2,
      entry.1.inputName = some (stageId other) →
        ∃ stage ∈ renamed.stages[entry.2]?, ∃ target ∈ renamed.stages[other]?,
          ∃ input ∈ stage.primary?, input.stageId = some target.id := by
    decide +kernel
  refine ⟨hlinked, hcondense, _, hagain, ?_⟩
  apply (sameStarts_iff_keepsIds hlinked hcondense hagain).2
  intro position condensed hcondensed other hother hname
  obtain ⟨stage, hstage, target, htarget, input, hinput, hid⟩ :=
    hkeeps (condensed, position) (List.mem_zipIdx_iff_getElem?.2 hcondensed) other hother hname
  exact ⟨stage, target, input, hstage, htarget, hinput, hid⟩

/-- A query that calls its first stage by two names, one of them the id of another
position. -/
def captured : Query where
  output := "c"
  stages :=
    [⟨"a", "filter true", [.dataset "in" "1"]⟩, ⟨"b", "make_col x:1", [.ofStage "x" "a"]⟩,
      ⟨"c", "pick_col x", [.ofStage "stage-1" "a"]⟩]

/-- What it is condensed to: this id, too, is left as an explicit input. -/
def capturedCondensed : Surface.Query where
  inputs := .ofList [("in", "1")]
  stages :=
    [⟨some "x", none, "filter true"⟩, ⟨none, none, "make_col x:1"⟩,
      ⟨none, some "stage-1", "pick_col x"⟩]

/-- The last stage started from the first one, and starts from the second after the
cycle. -/
theorem captured_retargeted :
    captured.Linked ∧ captured.condense = .ok capturedCondensed ∧
      ∃ again, capturedCondensed.expand = .ok again ∧ ¬ captured.SameStarts again := by
  have hlinked : captured.Linked := by
    apply Linked.of_checks <;> decide +kernel
  have hcondense : captured.condense = .ok capturedCondensed := by decide +kernel
  have hagain : capturedCondensed.expand = .ok
      ⟨"stage-2",
        [⟨"stage-0", "filter true", [.dataset "in" "1"]⟩,
          ⟨"stage-1", "make_col x:1", [.ofStage "stage-0" "stage-0"]⟩,
          ⟨"stage-2", "pick_col x", [.ofStage "stage-1" "stage-1"]⟩]⟩ := by
    simp only [Surface.Query.expand, Surface.Query.expandWith, Surface.Query.expandIn,
      capturedCondensed, expandFrom, expandStage, inputsOf, supplementalNames,
      sortedNames_eq_insertionSort]
    decide +kernel
  refine ⟨hlinked, hcondense, _, hagain, fun hsame => ?_⟩
  -- the name it is left with is that of the second stage, but the input was for the first
  obtain ⟨stage, target, input, hstage, htarget, hprimary, hid⟩ :=
    keepsIds_of_sameStarts hagain rfl hsame 2 _ rfl 1 (by decide) (by decide)
  cases hstage
  cases htarget
  cases hprimary
  exact absurd hid (by decide)

end Backend.Query

end StagedQuery
