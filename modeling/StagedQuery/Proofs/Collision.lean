/-
StagedQuery/Proofs/Collision.lean

Which names of a condensed query can collide.

A query binds names of three kinds: those of declared inputs, aliases, and the ids of
its stages by their positions.  Condensing picks the aliases so that they keep apart
from all names it can see: an alias is that of one stage, is no dataset's name, and is
not the id that its own stage will get.  What it does not look at are the ids that the
other stages will get.  So of the ways in which a name can be taken,

    alias and alias      alias and declared input      alias and id of another stage

the last one alone is left, whatever the inputs of the stored query refer to: a query
that is refused for a name that is taken is refused for the id of one of its stages.

Main statement: `apart_of_condense`.  That a name taken is such an id follows from the
aliases alone (`Apart.stageId_of_nameTaken`), on any query that they keep apart on.
-/
import StagedQuery.Proofs.Naming
import StagedQuery.Proofs.Refusal

namespace StagedQuery

namespace Surface.Query

/-- The alias of the stage at a position. -/
def aliasAt? (query : Query) (position : Nat) : Option String :=
  query.stages[position]?.bind (·.aliasName)

/-- The aliases keep apart from each other, from the declared names and from the ids of
their own stages. -/
structure Apart (query : Query) : Prop where
  /-- No two stages have one alias. -/
  distinct : ∀ {position other name}, query.aliasAt? position = some name →
    query.aliasAt? other = some name → position = other
  /-- No alias is a declared name. -/
  undeclared : ∀ {position name}, query.aliasAt? position = some name →
    query.inputs.contains name = false
  /-- No alias is the id of its own stage. -/
  foreign : ∀ {position name}, query.aliasAt? position = some name → name ≠ stageId position

variable {query : Query} {validate : Validator} {position : Nat} {name : String}

theorem aliasAt?_eq_some_iff :
    query.aliasAt? position = some name ↔
      ∃ stage, query.stages[position]? = some stage ∧ stage.aliasName = some name :=
  Option.bind_eq_some_iff

theorem HasAlias.exists_aliasAt? (h : query.HasAlias position name) :
    ∃ earlier < position, query.aliasAt? earlier = some name := by
  obtain ⟨earlier, hlt, stage, hstage, halias⟩ := h
  exact ⟨earlier, hlt, aliasAt?_eq_some_iff.2 ⟨stage, hstage, halias⟩⟩

/-! ### A name that is taken -/

/-- A name that is taken is one that a stage binds: declared names never clash. -/
theorem exists_clashes_of_nameTaken (hcount : query.stages.length < positionLimit)
    (h : query.expandWith validate = .error (.nameTaken name)) :
    ∃ position stage, query.stages[position]? = some stage ∧
      query.Clashes position stage (.nameTaken name) := by
  rw [expandWith] at h
  cases hscope : query.inputs.scope validate with
  | error reason =>
    rw [hscope] at h
    cases h
    rcases Inputs.scope_eq_error_iff.1 hscope with ⟨-, hfault⟩ | ⟨_, _, _, hrefused, -⟩
    · cases hfault
    · cases hrefused
  | ok scope =>
    obtain ⟨hproper, rfl⟩ := Inputs.scope_eq_ok_iff.1 hscope
    rw [hscope] at h
    rcases (expandIn_eq_error_iff hproper hcount).1 h with ⟨-, hfault⟩ | hfirst
    · cases hfault
    · obtain ⟨position, stage, hstage, hrefused, -⟩ := hfirst
      rcases hrefused with hunprovided | ⟨-, hclashes⟩
      · cases hunprovided
      · exact ⟨position, stage, hstage, hclashes⟩

/-- **Where aliases keep apart, a name that is taken is the id of a stage** that is the
alias of another. -/
theorem Apart.stageId_of_nameTaken (hapart : query.Apart)
    (hcount : query.stages.length < positionLimit)
    (h : query.expandWith validate = .error (.nameTaken name)) :
    ∃ position < query.stages.length, name = stageId position ∧
      ∃ other ≠ position, query.aliasAt? other = some name := by
  obtain ⟨position, stage, hstage, hclashes⟩ := exists_clashes_of_nameTaken hcount h
  obtain ⟨hlt, -⟩ := List.getElem?_eq_some_iff.1 hstage
  cases hclashes with
  | ofId hshadowed =>
    obtain ⟨earlier, hearlier, halias⟩ := hshadowed.exists_aliasAt?
    exact ⟨position, hlt, rfl, earlier, Nat.ne_of_lt hearlier, halias⟩
  | ofAlias _ halias hknown =>
    have hown := aliasAt?_eq_some_iff.2 ⟨stage, hstage, halias⟩
    -- the alias is known from before, and not as an alias or a declared name
    cases hknown with
    | declared hentry =>
      have hdeclared := Inputs.contains_iff.2 ⟨_, hentry⟩
      rw [hapart.undeclared hown] at hdeclared
      cases hdeclared
    | @ofId earlier hearlier hname =>
      exact ⟨earlier, Nat.lt_trans hearlier hlt, hname, position, Nat.ne_of_gt hearlier, hown⟩
    | ofAlias hbefore =>
      obtain ⟨earlier, hearlier, hother⟩ := hbefore.exists_aliasAt?
      exact absurd (hapart.distinct hother hown) (Nat.ne_of_lt hearlier)

end Surface.Query

/-! ### The aliases of a condensed query -/

namespace Backend.Query

variable {stored : Query} {surface : Surface.Query} {position : Nat} {name : String}

/-- An alias is picked for the id of the stage that gets it. -/
theorem aliasAt?_of_condense (hcondense : stored.condense = .ok surface) :
    surface.aliasAt? position = some name ↔
      ∃ stage, stored.stages[position]? = some stage ∧
        aliasOf? (aliasesOf stored.stages) stage.id = some name := by
  rw [Surface.Query.aliasAt?, getElem?_of_condense hcondense]
  cases stored.stages[position]? <;> simp [condenseStage]

/-- An alias is the name of an input that refers to the stage, and not the id that the
stage will get. -/
theorem exists_input_of_aliasAt? (hcondense : stored.condense = .ok surface)
    (halias : surface.aliasAt? position = some name) :
    ∃ input ∈ allInputs stored.stages, input.name = name ∧ input.stageId.isSome = true ∧
      name ≠ stageId position := by
  obtain ⟨stage, hstage, halias⟩ := (aliasAt?_of_condense hcondense).1 halias
  obtain ⟨later, user, huser, input, hinput, huse⟩ :=
    mem_aliasUses.1 (mem_aliasUses_of_aliasOf? halias)
  obtain ⟨hid, hname, earlier, -, hfound, hne⟩ := aliasUse?_eq_some_iff.1 huse
  have hdistinct := (condense_eq_ok_iff.1 hcondense).1.distinct
  -- the id is found where the stage stands, since no other stage has it
  cases hfound.symm.trans ((stagePosition?_eq_some_iff hdistinct).2 ⟨stage, hstage, rfl⟩)
  exact ⟨input, mem_allInputs.2 ⟨later, user, huser, hinput⟩, hname,
    Option.isSome_of_eq_some hid, hne⟩

/-- **The aliases of a condensed query keep apart.** -/
theorem condensed_apart (hcondense : stored.condense = .ok surface) : surface.Apart where
  distinct := by
    intro position other name halias halias'
    obtain ⟨stage, hstage, halias⟩ := (aliasAt?_of_condense hcondense).1 halias
    obtain ⟨stage', hstage', halias'⟩ := (aliasAt?_of_condense hcondense).1 halias'
    exact (condense_eq_ok_iff.1 hcondense).1.position_unique hstage hstage'
      (aliasOf?_inj halias halias')
  undeclared := by
    intro position name halias
    obtain ⟨input, hinput, rfl, hsome, -⟩ := exists_input_of_aliasAt? hcondense halias
    exact (datasetsOf_eq_ok_iff.1 (condense_eq_ok_iff.1 hcondense).2.1).2 input hinput hsome
  foreign := by
    intro position name halias
    obtain ⟨-, -, -, -, hne⟩ := exists_input_of_aliasAt? hcondense halias
    exact hne

/-- **What can collide in a condensed query.**  Its aliases are distinct, none is
declared, and none is the id of its own stage; so if a name is taken when it is expanded,
whatever the validator, this is the id of one of its stages and the alias of another.
Positions are words, so there are fewer stages than that. -/
theorem apart_of_condense (hcount : stored.stages.length < positionLimit)
    (hcondense : stored.condense = .ok surface) :
    surface.Apart ∧
      ∀ validate name, surface.expandWith validate = .error (.nameTaken name) →
        ∃ position < surface.stages.length, name = stageId position ∧
          ∃ other ≠ position, surface.aliasAt? other = some name := by
  have hapart := condensed_apart hcondense
  refine ⟨hapart, fun validate name hexpand => ?_⟩
  rw [← length_of_condense hcondense] at hcount
  exact hapart.stageId_of_nameTaken hcount hexpand

/-- The first stage is called by the id that the third will get, and so is the second; an
input of the second refers to a stage that there is not, and one of the third to that
stage itself. -/
def contended : Query where
  output := "c"
  stages :=
    [⟨"a", "filter true", [.dataset "in" "1"]⟩,
      ⟨"b", "make_col x:1", [.ofStage "stage-2" "a", .ofStage "y" "gone"]⟩,
      ⟨"c", "pick_col x", [.ofStage "stage-2" "b", .ofStage "y" "b", .ofStage "z" "c"]⟩]

/-- What it is condensed to. -/
def contendedCondensed : Surface.Query where
  inputs := .ofList [("in", "1")]
  stages :=
    [⟨some "stage-2", none, "filter true"⟩, ⟨some "y", none, "make_col x:1"⟩,
      ⟨none, some "stage-2", "pick_col x"⟩]

/-- Its aliases keep apart, and it is refused for the id of its third stage. -/
theorem contended_apart :
    contended.stages.length < positionLimit ∧ contended.condense = .ok contendedCondensed ∧
      contendedCondensed.Apart ∧
      contendedCondensed.expandWith Dataset.bareId? = .error (.nameTaken "stage-2") ∧
      ∃ position < 3, "stage-2" = stageId position ∧
        ∃ other ≠ position, contendedCondensed.aliasAt? other = some "stage-2" := by
  have hcount : contended.stages.length < positionLimit := by decide
  have hcondense : contended.condense = .ok contendedCondensed := by decide +kernel
  have hexpand : contendedCondensed.expandWith Dataset.bareId? = .error (.nameTaken "stage-2") := by
    simp only [Surface.Query.expandWith, Surface.Query.expandIn, contendedCondensed, expandFrom,
      expandStage, inputsOf, supplementalNames, sortedNames_eq_insertionSort]
    decide +kernel
  obtain ⟨hapart, htaken⟩ := apart_of_condense hcount hcondense
  exact ⟨hcount, hcondense, hapart, hexpand, htaken _ _ hexpand⟩

end Backend.Query

end StagedQuery
