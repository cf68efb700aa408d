/-
StagedQuery/Proofs/Denotation.lean

What a surface query denotes.

The law of expansion, in terms of the query alone: no scope, no binding passed on
and no order of work.  At each position some bindings are seen (`Sees`), the
declared inputs everywhere and a stage from behind it on; a stage starts from the
one its name picks among them, or from what its place implies (`StartsFrom`); and
the bindings that its body mentions join in order of their names.  A backend query
that says just this, stage by stage, is what the query denotes (`Denotes`).

Main statements: `Denotes.unique`, a query denotes one backend query at most; and
`denotes_iff_eq`, where a query expands it denotes what it expands to.
-/
import StagedQuery.Proofs.Occurrence

namespace StagedQuery

open Backend

namespace Surface.Query

/-! ### The law -/

/-- What is seen at a position: each declared name as the dataset whose bare id its
reference has, and each stage before under its id and its alias. -/
inductive Sees (query : Query) (validate : Validator) (position : Nat) : Binding → Prop
  | declared {name reference id : String} (hentry : (name, reference) ∈ query.inputs.entries)
      (hid : validate reference = some id) :
      Sees query validate position (.dataset name id)
  | ofId {earlier : Nat} (hlt : earlier < position) :
      Sees query validate position (.stage (stageId earlier) (stageId earlier))
  | ofAlias {earlier : Nat} {stage : Stage} {name : String} (hlt : earlier < position)
      (hstage : query.stages[earlier]? = some stage) (halias : stage.aliasName = some name) :
      Sees query validate position (.stage name (stageId earlier))

/-- What the stage at a position starts from: the binding it names, or else the
output of the stage before it, or at first the only declared input. -/
inductive StartsFrom (query : Query) (validate : Validator) (position : Nat) (stage : Stage) :
    Binding → Prop
  | named {binding : Binding} (hname : stage.inputName = some binding.name)
      (hsees : query.Sees validate position binding) :
      StartsFrom query validate position stage binding
  | continued {previous : Nat} (hname : stage.inputName = none)
      (hposition : position = previous + 1) :
      StartsFrom query validate position stage (.stage (stageId previous) (stageId previous))
  | only {name reference id : String} (hname : stage.inputName = none) (hposition : position = 0)
      (hentries : query.inputs.entries = [(name, reference)])
      (hid : validate reference = some id) :
      StartsFrom query validate position stage (.dataset name id)

/-- The binding joins the inputs of the stage at a position, whose primary one is
called `primaryName`. -/
structure Joins (query : Query) (validate : Validator) (position : Nat) (stage : Stage)
    (primaryName : String) (binding : Binding) : Prop where
  /-- It is seen there. -/
  seen : query.Sees validate position binding
  /-- It has a name. -/
  nonempty : binding.name ≠ ""
  /-- Its name is not that of the primary input. -/
  other : binding.name ≠ primaryName
  /-- Its name stands behind an `@` in the body. -/
  mentioned : ∃ before after, stage.pipeline = before ++ "@" ++ binding.name ++ after

/-- The backend stage says what the stage at a position means. -/
structure DenotesAt (query : Query) (validate : Validator) (position : Nat) (stage : Stage)
    (stored : Backend.Stage) : Prop where
  /-- The id is that of the position. -/
  id : stored.id = stageId position
  /-- The body is taken over. -/
  pipeline : stored.pipeline = stage.pipeline
  /-- The inputs are what the stage starts from and then all that joins it, each
  once and by increasing name. -/
  inputs : ∃ (primary : Binding) (others : List Binding),
    query.StartsFrom validate position stage primary ∧
    stored.inputs = primary.toInput :: others.map (·.toInput) ∧
    (others.Pairwise fun a b => a.name < b.name) ∧
    ∀ binding, binding ∈ others ↔ query.Joins validate position stage primary.name binding

/-- The backend query says what the query means. -/
structure Denotes (query : Query) (validate : Validator) (stored : Backend.Query) : Prop where
  /-- No name is seen as two things. -/
  single : ∀ position ≤ query.stages.length, ∀ binding other,
    query.Sees validate position binding → query.Sees validate position other →
      binding.name = other.name → binding = other
  /-- There is a stage for every stage. -/
  length : stored.stages.length = query.stages.length
  /-- Each of them says what the stage at its position means. -/
  stages : ∀ {position stage}, query.stages[position]? = some stage →
    ∃ expanded, stored.stages[position]? = some expanded ∧
      query.DenotesAt validate position stage expanded
  /-- The last stage is the output. -/
  output : (stored.stages.getLast?).map (·.id) = some stored.output

variable {query : Query} {validate : Validator} {position : Nat} {stage : Stage}
  {binding : Binding}

/-! ### One meaning -/

/-- A stage starts from one binding. -/
theorem StartsFrom.unique {binding' : Binding}
    (hsingle : ∀ binding other, query.Sees validate position binding →
      query.Sees validate position other → binding.name = other.name → binding = other)
    (h : query.StartsFrom validate position stage binding)
    (h' : query.StartsFrom validate position stage binding') : binding = binding' := by
  cases h with
  | named hname hsees =>
    cases h' with
    | named hname' hsees' =>
      exact hsingle _ _ hsees hsees' (Option.some.inj (hname.symm.trans hname'))
    | continued hname' => cases hname.symm.trans hname'
    | only hname' => cases hname.symm.trans hname'
  | continued hname hposition =>
    cases h' with
    | named hname' => cases hname.symm.trans hname'
    | continued _ hposition' =>
      cases hposition.symm.trans hposition'
      rfl
    | only _ hposition' => cases hposition.symm.trans hposition'
  | only hname hposition hentries hid =>
    cases h' with
    | named hname' => cases hname.symm.trans hname'
    | continued _ hposition' => cases hposition.symm.trans hposition'
    | only _ _ hentries' hid' =>
      cases hentries.symm.trans hentries'
      cases hid.symm.trans hid'
      rfl

/-- A stage means one backend stage. -/
theorem DenotesAt.unique {stored stored' : Backend.Stage}
    (hsingle : ∀ binding other, query.Sees validate position binding →
      query.Sees validate position other → binding.name = other.name → binding = other)
    (h : query.DenotesAt validate position stage stored)
    (h' : query.DenotesAt validate position stage stored') : stored = stored' := by
  obtain ⟨primary, others, hstarts, hinputs, hincreasing, hothers⟩ := h.inputs
  obtain ⟨primary', others', hstarts', hinputs', hincreasing', hothers'⟩ := h'.inputs
  cases hstarts.unique hsingle hstarts'
  -- what joins the stage is the same, and its order is that of the names
  have hsame : others = others' :=
    eq_of_increasing_names Binding.name hincreasing hincreasing' fun other =>
      (hothers other).trans (hothers' other).symm
  obtain ⟨id, pipeline, inputs⟩ := stored
  obtain ⟨id', pipeline', inputs'⟩ := stored'
  rw [Backend.Stage.mk.injEq]
  refine ⟨h.id.trans h'.id.symm, h.pipeline.trans h'.pipeline.symm, ?_⟩
  exact hinputs.trans (hsame ▸ hinputs'.symm)

/-- **A query denotes one backend query at most.** -/
theorem Denotes.unique {stored stored' : Backend.Query} (h : query.Denotes validate stored)
    (h' : query.Denotes validate stored') : stored = stored' := by
  have hstages : stored.stages = stored'.stages := by
    apply eq_of_getElem?_eq h.length h'.length
    intro position stage hstage
    obtain ⟨hlt, -⟩ := List.getElem?_eq_some_iff.1 hstage
    obtain ⟨expanded, hexpanded, hdenotes⟩ := h.stages hstage
    obtain ⟨expanded', hexpanded', hdenotes'⟩ := h'.stages hstage
    rw [hexpanded, hexpanded', hdenotes.unique (h.single position (Nat.le_of_lt hlt)) hdenotes']
  have houtput : some stored.output = some stored'.output := by
    rw [← h.output, ← h'.output, hstages]
  exact Backend.Query.ext (Option.some.inj houtput) hstages

/-! ### The meaning of an expanded query -/

/-- What is visible is seen. -/
theorem mem_visible_iff_sees (hle : position ≤ query.stages.length) :
    binding ∈ query.visible validate position ↔ query.Sees validate position binding := by
  rw [mem_visible]
  constructor
  · rintro (hbound | ⟨earlier, hlt, stage, hstage, hbound⟩)
    · obtain ⟨name, reference, id, hentry, hid, rfl⟩ := Inputs.mem_bound.1 hbound
      exact .declared hentry hid
    · rcases mem_boundBy.1 hbound with rfl | ⟨name, halias, rfl⟩
      · exact .ofId hlt
      · exact .ofAlias hlt hstage halias
  · intro h
    cases h with
    | declared hentry hid => exact .inl (Inputs.mem_bound.2 ⟨_, _, _, hentry, hid, rfl⟩)
    | ofId hlt =>
      have hstage := List.getElem?_eq_getElem (Nat.lt_of_lt_of_le hlt hle)
      exact .inr ⟨_, hlt, _, hstage, mem_boundBy.2 (.inl rfl)⟩
    | ofAlias hlt hstage halias =>
      exact .inr ⟨_, hlt, _, hstage, mem_boundBy.2 (.inr ⟨_, halias, rfl⟩)⟩

/-- What a stage starts from in a run is what the law says. -/
theorem startsFrom_of_starts (hproper : query.inputs.Proper validate)
    (hle : position ≤ query.stages.length)
    (h : Starts (query.visible validate position) (query.passed validate position) stage binding) :
    query.StartsFrom validate position stage binding := by
  rcases h with ⟨hname, hvisible⟩ | ⟨hname, hpassed⟩
  · exact .named hname ((mem_visible_iff_sees hle).1 hvisible)
  · cases position with
    | zero =>
      obtain ⟨name, reference, id, hentries, hid, rfl⟩ := hproper.only?_eq_some_iff.1 hpassed
      exact .only hname rfl hentries hid
    | succ previous =>
      rw [passed_succ, Option.some.injEq] at hpassed
      subst hpassed
      exact .continued hname rfl

/-- What supplements a stage in a run is what joins it. -/
theorem supplements_iff_joins (hle : position ≤ query.stages.length) {primary : Binding} :
    Supplements (query.visible validate position) primary stage.pipeline binding ↔
      query.Joins validate position stage primary.name binding := by
  constructor
  · intro h
    exact ⟨(mem_visible_iff_sees hle).1 h.visible, h.nonempty, h.other,
      Text.mentions_iff.1 h.mentioned⟩
  · intro h
    exact ⟨(mem_visible_iff_sees hle).2 h.seen, h.other, h.nonempty,
      Text.mentions_iff.2 h.mentioned⟩

/-- An expanded stage says what the stage means. -/
theorem denotesAt_of_expands (hproper : query.inputs.Proper validate)
    (hle : position ≤ query.stages.length) {primary : Binding} {expanded : Backend.Stage}
    (h : Expands (query.visible validate position) (query.passed validate position) position
      stage primary expanded) : query.DenotesAt validate position stage expanded := by
  obtain ⟨scope, hscope, hinputs⟩ := h.inputs
  refine ⟨h.id, h.pipeline, primary, supplementals scope primary stage.pipeline, ?_, ?_, ?_, ?_⟩
  · exact startsFrom_of_starts hproper hle h.starts
  · rw [hinputs, inputsOf_eq]
  · exact increasing_supplementals hscope.distinct
  · intro binding
    rw [mem_supplementals hscope, supplements_iff_joins hle]

theorem Meaning.denotes {stored : Backend.Query} (hm : query.Meaning validate stored) :
    query.Denotes validate stored := by
  refine ⟨?_, hm.length, fun {position stage} hstage => ?_, hm.wellShaped.output⟩
  · intro position hle binding other hbinding hother hname
    exact hm.singleTarget hle binding ((mem_visible_iff_sees hle).2 hbinding) other
      ((mem_visible_iff_sees hle).2 hother) hname
  · obtain ⟨hlt, -⟩ := List.getElem?_eq_some_iff.1 hstage
    obtain ⟨primary, expanded, hexpanded, hexpands⟩ := hm.expands hstage
    exact ⟨expanded, hexpanded, denotesAt_of_expands hm.proper (Nat.le_of_lt hlt) hexpands⟩

end Surface.Query

/-- **Where a query expands it denotes what it expands to**, and nothing else. -/
theorem denotes_iff_eq {query : Surface.Query} {validate : Validator} {stored : Backend.Query}
    (h : query.expandWith validate = .ok stored) (other : Backend.Query) :
    query.Denotes validate other ↔ other = stored := by
  have hdenotes := (Surface.Query.meaning_of_expandWith h).denotes
  constructor
  · exact fun hother => hother.unique hdenotes
  · rintro rfl
    exact hdenotes

/-- The expanded example is what the example denotes. -/
theorem joined_denotes :
    joined.expandWith Dataset.bareId? = .ok joinedStored ∧
      joined.Denotes Dataset.bareId? joinedStored :=
  ⟨expand_joined, (denotes_iff_eq expand_joined joinedStored).2 rfl⟩

end StagedQuery
