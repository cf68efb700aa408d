/-
StagedQuery/Proofs/Mention.lean

What a scan for mentions finds, and what follows for the inputs of a stage.

A scan goes through candidates and keeps those that the body mentions.  What it finds
is told from the body alone (`Scan`): a sublist of the candidates, made of names that
stand behind a sigil, and of each of these as many as there were.  That leaves one list.

A mention of a name is a mention of all that the name begins with, wanted or not:
`@stage-10` mentions `stage-1`.  A stage lists what its body mentions among the visible
names, in code-point order, and there a name comes before those that begin with it.  So
the inputs behind the primary one are closed under prefixes,

    PrefixClosed visible primaryName inputs:

with an input they list every visible name that its own name begins with, and before it.
Nothing is assumed of the scope for this, so it holds of stages that are expanded by hand
as it does of those of a query.

Main statement: `mentioned_prefixClosed`.
-/
import StagedQuery.Proofs.Denotation
import StagedQuery.Proofs.StageEffect

namespace StagedQuery

/-! ### Scans -/

/-- What is found among candidates by a scan for mentions, told from the body. -/
structure Scan (body : String) (candidates found : List String) : Prop where
  /-- The candidates keep their order. -/
  sublist : found.Sublist candidates
  /-- What is found is a name, and stands behind an `@` in the body. -/
  sound : ∀ name ∈ found, name ≠ "" ∧ ∃ before after, body = before ++ "@" ++ name ++ after
  /-- A name that does is found as often as it is a candidate. -/
  complete : ∀ name before after, name ≠ "" → body = before ++ "@" ++ name ++ after →
    found.count name = candidates.count name

theorem scan_mentioned (body : String) (candidates : List String) :
    Scan body candidates (Text.mentioned body candidates) where
  sublist := List.filter_sublist
  sound name hname := by
    obtain ⟨-, hnonempty, hmentions⟩ := Text.mem_mentioned.1 hname
    exact ⟨hnonempty, Text.mentions_iff.1 hmentions⟩
  complete name before after hnonempty hbody := by
    have hmentions := Text.mentions_iff.2 ⟨before, after, hbody⟩
    apply List.count_filter
    simp [hnonempty, hmentions]

/-- **A scan finds one list**, the candidates that the body mentions. -/
theorem scan_iff {body : String} {candidates found : List String} :
    Scan body candidates found ↔ found = Text.mentioned body candidates := by
  refine ⟨fun h => ?_, fun heq => heq ▸ scan_mentioned body candidates⟩
  have hscan := scan_mentioned body candidates
  -- a second scan leaves what the first one found
  have hself : Text.mentioned body found = found := by
    apply List.filter_eq_self.2
    intro name hname
    obtain ⟨hnonempty, hbody⟩ := h.sound name hname
    simp [hnonempty, Text.mentions_iff.2 hbody]
  have hsub : found.Sublist (Text.mentioned body candidates) := by
    rw [← hself]
    exact h.sublist.filter _
  have hcount : ∀ name, found.count name = (Text.mentioned body candidates).count name := by
    intro name
    by_cases hname : name ≠ "" ∧ ∃ before after, body = before ++ "@" ++ name ++ after
    · obtain ⟨hnonempty, before, after, hbody⟩ := hname
      rw [h.complete name before after hnonempty hbody,
        hscan.complete name before after hnonempty hbody]
    · rw [List.count_eq_zero.2 fun hmem => hname (h.sound name hmem),
        List.count_eq_zero.2 fun hmem => hname (hscan.sound name hmem)]
  exact hsub.eq_of_length (List.perm_iff_count.2 hcount).length_eq

/-! ### Prefixes -/

/-- Wherever an input stands, each visible name that its own name begins with is listed
too, and before it unless the two are the same.  The empty name and that of the primary
input are left out. -/
def PrefixClosed (visible : Binding → Prop) (primaryName : String)
    (inputs : List Backend.Input) : Prop :=
  ∀ before input after, inputs = before ++ input :: after →
    ∀ (binding : Binding) (rest : String), visible binding → input.name = binding.name ++ rest →
      binding.name ≠ "" → binding.name ≠ primaryName →
        binding.toInput ∈ inputs ∧ (rest ≠ "" → binding.toInput ∈ before)

theorem PrefixClosed.mono {visible visible' : Binding → Prop} {primaryName : String}
    {inputs : List Backend.Input} (h : PrefixClosed visible primaryName inputs)
    (hsub : ∀ binding, visible' binding → visible binding) :
    PrefixClosed visible' primaryName inputs :=
  fun before input after hinputs binding rest hvisible =>
    h before input after hinputs binding rest (hsub binding hvisible)

/-- What the scope binds: the name stands for just this. -/
def Scope.Binds (scope : Scope) (binding : Binding) : Prop :=
  scope.resolve binding.name = some binding

/-- A name comes before those that begin with it. -/
theorem le_append (name rest : String) : name ≤ name ++ rest := by
  apply Std.not_lt.1
  rw [String.lt_iff, String.toList_append]
  exact List.le_append_left

/-- In an ordered list, what may not follow an entry, and is another, stands before it. -/
theorem mem_before {α : Type*} {R : α → α → Prop} {before after : List α} {entry other : α}
    (h : (before ++ entry :: after).Pairwise R) (hother : other ∈ before ++ entry :: after)
    (hne : other ≠ entry) (hnot : ¬R entry other) : other ∈ before := by
  rcases List.mem_append.1 hother with hbefore | hrest
  · exact hbefore
  · rcases List.mem_cons.1 hrest with heq | hafter
    · exact absurd heq hne
    · have hbeyond := (List.pairwise_cons.1 (List.pairwise_append.1 h).2.1).1 other hafter
      exact absurd hbeyond hnot

section Stage

variable {scope : Scope} {primary binding longer : Binding} {body rest : String}

/-- With a binding those are listed that its name begins with. -/
theorem mem_supplementals_of_append (h : longer ∈ supplementals scope primary body)
    (hname : longer.name = binding.name ++ rest) (hbound : scope.Binds binding)
    (hnonempty : binding.name ≠ "") (hother : binding.name ≠ primary.name) :
    binding ∈ supplementals scope primary body := by
  have hlonger : binding.name ++ rest ∈ supplementalNames scope primary body := by
    rw [← map_name_supplementals, ← hname]
    exact List.mem_map_of_mem h
  obtain ⟨-, -, -, hmentions⟩ := mem_supplementalNames.1 hlonger
  have hfound : binding.name ∈ supplementalNames scope primary body :=
    mem_supplementalNames.2 ⟨⟨binding, Scope.mem_of_resolve hbound, rfl⟩, hother, hnonempty,
      Text.mentions_of_append hmentions⟩
  exact List.mem_filterMap.2 ⟨binding.name, hfound, hbound⟩

/-- **Supplemental inputs are closed under prefixes**, with regard to all that the scope
binds. -/
theorem prefixClosed_supplementals (scope : Scope) (primary : Binding) (body : String) :
    PrefixClosed scope.Binds primary.name
      ((supplementals scope primary body).map Binding.toInput) := by
  intro before input after hinputs binding rest hbound hname hnonempty hother
  obtain ⟨earlier, others, hsplit, rfl, hothers⟩ := List.map_eq_append_iff.1 hinputs
  obtain ⟨longer, later, rfl, rfl, rfl⟩ := List.map_eq_cons_iff.1 hothers
  rw [Binding.name_toInput] at hname
  have hlonger : longer ∈ supplementals scope primary body := by
    rw [hsplit]
    exact List.mem_append_right _ List.mem_cons_self
  have hlisted := mem_supplementals_of_append hlonger hname hbound hnonempty hother
  refine ⟨List.mem_map_of_mem hlisted, fun hrest => List.mem_map_of_mem ?_⟩
  have hne : binding.name ≠ longer.name := by
    rw [hname]
    exact fun heq => hrest (String.append_eq_left_iff.1 heq.symm)
  have hle : binding.name ≤ longer.name := by
    rw [hname]
    exact le_append _ _
  have hsorted : (supplementals scope primary body).Pairwise fun a b => a.name ≤ b.name :=
    pairwise_supplementals (pairwise_sortedNames scope)
  rw [hsplit] at hsorted hlisted
  apply mem_before hsorted hlisted
  · exact fun heq => hne (congrArg Binding.name heq)
  · exact fun hbeyond => hne (String.le_antisymm hle hbeyond)

end Stage

/-! ### Expanded stages -/

/-- What one expansion lists: behind the primary input, the scan of the body for the other
names of the scope, which is closed under prefixes. -/
theorem prefixClosed_expandStage {scope : Scope} {passed : Option Binding} {position : Nat}
    {stage : Surface.Stage} {expanded : Backend.Stage}
    (h : (expandStage scope passed position stage).1 = .ok expanded) :
    ∃ primary others, primaryOf scope passed position stage = .ok primary ∧
      expanded.inputs = primary.toInput :: others ∧
      Scan stage.pipeline (scope.sortedNames.filter fun name => name ≠ primary.name)
        (others.map (·.name)) ∧
      PrefixClosed scope.Binds primary.name others := by
  have heffect := effect_expandStage scope passed position stage
  rw [h] at heffect
  generalize (expandStage scope passed position stage).2 = behind at heffect
  cases heffect with
  | @expanded primary hprimary =>
    refine ⟨primary, _, hprimary, inputsOf_eq _ _ _, ?_, prefixClosed_supplementals _ _ _⟩
    rw [scan_iff, List.map_map]
    simp only [Function.comp_def, Binding.name_toInput]
    exact map_name_supplementals scope primary stage.pipeline

namespace Surface.Query

variable {query : Query} {validate : Validator} {stored : Backend.Query} {position : Nat}
  {expanded : Backend.Stage}

/-- The same holds along a whole query, with regard to all that is seen at a position. -/
theorem Meaning.prefixClosed (hm : query.Meaning validate stored)
    (hexpanded : stored.stages[position]? = some expanded) :
    ∃ first others, expanded.inputs = first :: others ∧
      PrefixClosed (query.Sees validate position) first.name others := by
  obtain ⟨stage, primary, hstage, hexpands⟩ := hm.exists_stage hexpanded
  obtain ⟨hlt, -⟩ := List.getElem?_eq_some_iff.1 hstage
  obtain ⟨scope, hscope, hinputs⟩ := hexpands.inputs
  rw [inputsOf_eq] at hinputs
  refine ⟨_, _, hinputs, ?_⟩
  rw [Binding.name_toInput]
  apply (prefixClosed_supplementals scope primary stage.pipeline).mono
  intro binding hsees
  exact hscope.resolve_eq_some_iff.2 ⟨(mem_visible_iff_sees (Nat.le_of_lt hlt)).2 hsees, rfl⟩

end Surface.Query

/-- **Mentions, scans for them, and prefixes.**  A name is mentioned where it stands
behind an `@`, the empty one where there is an `@` at all; a scan finds the candidates
that are mentioned, but for the empty name, in the order and as often as they are given.
So the inputs that a stage lists behind its primary one are closed under prefixes, on
whatever scope it is expanded, and in every expanded query. -/
theorem mentioned_prefixClosed :
    (∀ body name, Text.mentions body name = true ↔
        ∃ before after, body = before ++ "@" ++ name ++ after) ∧
      (∀ body, Text.mentions body "" = true ↔ '@' ∈ body.toList) ∧
      (∀ body candidates found,
        Scan body candidates found ↔ found = Text.mentioned body candidates) ∧
      (∀ scope passed position stage expanded,
        (expandStage scope passed position stage).1 = .ok expanded →
          ∃ primary others, primaryOf scope passed position stage = .ok primary ∧
            expanded.inputs = primary.toInput :: others ∧
            Scan stage.pipeline (scope.sortedNames.filter fun name => name ≠ primary.name)
              (others.map (·.name)) ∧
            PrefixClosed scope.Binds primary.name others) ∧
      ∀ (query : Surface.Query) (validate : Validator) (stored : Backend.Query),
        query.expandWith validate = .ok stored →
          ∀ position expanded, stored.stages[position]? = some expanded →
            ∃ first others, expanded.inputs = first :: others ∧
              PrefixClosed (query.Sees validate position) first.name others := by
  refine ⟨fun _ _ => Text.mentions_iff, fun _ => Text.mentions_empty_iff, fun _ _ _ => scan_iff,
    fun _ _ _ _ _ => prefixClosed_expandStage, ?_⟩
  intro query validate stored hexpand position expanded hexpanded
  exact (Surface.Query.meaning_of_expandWith hexpand).prefixClosed hexpanded

/-- Two declared names, one the beginning of the other, and an alias that goes on. -/
def nested : Surface.Query where
  inputs := .ofList [("a", "1"), ("ab", "2"), ("in", "3")]
  stages := [⟨some "abc", some "in", "filter true"⟩, ⟨none, none, "join @abcd"⟩]

/-- The second stage lists all three, though its body names none of them. -/
def nestedStored : Backend.Query where
  output := "stage-1"
  stages :=
    [⟨"stage-0", "filter true", [.dataset "in" "3"]⟩,
      ⟨"stage-1", "join @abcd", [.ofStage "stage-0" "stage-0", .dataset "a" "1",
        .dataset "ab" "2", .ofStage "abc" "stage-0"]⟩]

/-- What is bound where the second stage is expanded. -/
def nestedScope : Scope :=
  ⟨[.dataset "a" "1", .dataset "ab" "2", .dataset "in" "3", .ownId "stage-0",
    .stage "abc" "stage-0"]⟩

/-- With the alias it lists both declared names, on that scope and in the query; the
longer of these is bound, so it stands before the alias. -/
theorem nested_prefixClosed :
    (expandStage nestedScope (passedOn "stage-0") 1 ⟨none, none, "join @abcd"⟩).1 =
        .ok ⟨"stage-1", "join @abcd", [.ofStage "stage-0" "stage-0", .dataset "a" "1",
          .dataset "ab" "2", .ofStage "abc" "stage-0"]⟩ ∧
      PrefixClosed nestedScope.Binds "stage-0"
        [.dataset "a" "1", .dataset "ab" "2", .ofStage "abc" "stage-0"] ∧
      nestedScope.Binds (.dataset "ab" "2") ∧
      (Binding.dataset "ab" "2").toInput ∈ [Backend.Input.dataset "a" "1", .dataset "ab" "2"] ∧
      nested.expandWith Dataset.bareId? = .ok nestedStored ∧
      PrefixClosed (nested.Sees Dataset.bareId? 1) "stage-0"
        [.dataset "a" "1", .dataset "ab" "2", .ofStage "abc" "stage-0"] := by
  obtain ⟨-, -, -, hstage, hquery⟩ := mentioned_prefixClosed
  have hresult : (expandStage nestedScope (passedOn "stage-0") 1 ⟨none, none, "join @abcd"⟩).1 =
      .ok ⟨"stage-1", "join @abcd", [.ofStage "stage-0" "stage-0", .dataset "a" "1",
        .dataset "ab" "2", .ofStage "abc" "stage-0"]⟩ := by
    simp only [expandStage, inputsOf, supplementalNames, sortedNames_eq_insertionSort]
    decide +kernel
  have hexpand : nested.expandWith Dataset.bareId? = .ok nestedStored := by
    simp only [Surface.Query.expandWith, Surface.Query.expandIn, nested, expandFrom, expandStage,
      inputsOf, supplementalNames, sortedNames_eq_insertionSort]
    decide +kernel
  have hclosed : PrefixClosed nestedScope.Binds "stage-0"
      [.dataset "a" "1", .dataset "ab" "2", .ofStage "abc" "stage-0"] := by
    obtain ⟨primary, others, hprimary, hinputs, -, hclosed⟩ := hstage _ _ _ _ _ hresult
    cases hprimary
    cases hinputs
    exact hclosed
  have hbound : nestedScope.Binds (.dataset "ab" "2") := by
    show nestedScope.resolve "ab" = some (.dataset "ab" "2")
    decide
  have hbefore := hclosed [.dataset "a" "1", .dataset "ab" "2"] (.ofStage "abc" "stage-0") [] rfl
    (.dataset "ab" "2") "c" hbound rfl (by decide) (by decide)
  refine ⟨hresult, hclosed, hbound, hbefore.2 (by decide), hexpand, ?_⟩
  obtain ⟨first, others, hinputs, hclosed⟩ := hquery _ _ _ hexpand 1 _ rfl
  cases hinputs
  exact hclosed

end StagedQuery
