/-
StagedQuery/Proofs/Cut.lean

What comes later in a query changes nothing that came before.

A query is cut by keeping its first stages only.  The run over the stages that are
left is the beginning of the run over all of them: it goes through the same scopes
and passes the same bindings on.  So where the query expands, each cut expands to
the first stages of the outcome.  Where it does not, the run ends at one stage
(`FailsAt`); a cut that keeps that stage ends there too, with the same fault, and a
cut before it expands, whatever names the later stages would have clashed with.

Main statement: `expandWith_take`.
-/
import StagedQuery.Proofs.Expansion

namespace StagedQuery

/-! ### A run over stages -/

/-- The run over stages from a position on ends with this fault at an index among
them: the stages before are expanded, the one there is refused. -/
inductive FailsAt : Scope → Option Binding → Nat → List Surface.Stage → Nat → Fault → Prop
  | first {scope : Scope} {passed : Option Binding} {start : Nat} {stage : Surface.Stage}
      {rest : List Surface.Stage} {fault : Fault}
      (hfails : (expandStage scope passed start stage).1 = .error fault) :
      FailsAt scope passed start (stage :: rest) 0 fault
  | later {scope behind : Scope} {passed : Option Binding} {start index : Nat}
      {stage : Surface.Stage} {rest : List Surface.Stage} {expanded : Backend.Stage} {fault : Fault}
      (hstage : expandStage scope passed start stage = (.ok expanded, behind))
      (hrest : FailsAt behind (passedOn expanded.id) (start + 1) rest index fault) :
      FailsAt scope passed start (stage :: rest) (index + 1) fault

section Run

variable {scope behind : Scope} {passed : Option Binding} {start index count : Nat}
  {stage : Surface.Stage} {stages rest : List Surface.Stage} {expanded : Backend.Stage}
  {outcome : List Backend.Stage} {fault : Fault}

/-- Behind a stage that is expanded the run goes on. -/
theorem expandFrom_cons_of_ok (h : expandStage scope passed start stage = (.ok expanded, behind)) :
    expandFrom scope passed start (stage :: rest) =
      (expandFrom behind (passedOn expanded.id) (start + 1) rest).map (expanded :: ·) := by
  rw [expandFrom, h]
  dsimp only
  cases expandFrom behind (passedOn expanded.id) (start + 1) rest <;> rfl

/-- At a stage that is refused the run ends. -/
theorem expandFrom_cons_of_error (h : (expandStage scope passed start stage).1 = .error fault) :
    expandFrom scope passed start (stage :: rest) = .error fault := by
  have hstage : expandStage scope passed start stage =
      (.error fault, (expandStage scope passed start stage).2) := Prod.ext h rfl
  rw [expandFrom, hstage]

/-- **The run over the first stages is the first part of the run.** -/
theorem expandFrom_take (h : expandFrom scope passed start stages = .ok outcome) (count : Nat) :
    expandFrom scope passed start (stages.take count) = .ok (outcome.take count) := by
  induction stages generalizing scope passed start outcome count with
  | nil =>
    cases h
    rw [List.take_nil, List.take_nil]
    rfl
  | cons stage rest ih =>
    cases count with
    | zero => rfl
    | succ count =>
      rcases hstage : expandStage scope passed start stage with ⟨fault | expanded, behind⟩
      · rw [expandFrom_cons_of_error (congrArg Prod.fst hstage)] at h
        cases h
      · rw [expandFrom_cons_of_ok hstage] at h
        obtain ⟨others, hrest, rfl⟩ := map_eq_ok_iff.1 h
        rw [List.take_succ_cons, List.take_succ_cons, expandFrom_cons_of_ok hstage]
        exact map_eq_ok_iff.2 ⟨_, ih hrest count, rfl⟩

/-- A run fails where it ends at one of its stages. -/
theorem expandFrom_eq_error_iff_exists_failsAt :
    expandFrom scope passed start stages = .error fault ↔
      ∃ index, FailsAt scope passed start stages index fault := by
  constructor
  · intro h
    induction stages generalizing scope passed start with
    | nil => cases h
    | cons stage rest ih =>
      rcases hstage : expandStage scope passed start stage with ⟨fault' | expanded, behind⟩
      · have hfirst := congrArg Prod.fst hstage
        rw [expandFrom_cons_of_error hfirst] at h
        cases h
        exact ⟨0, .first hfirst⟩
      · rw [expandFrom_cons_of_ok hstage, map_eq_error_iff] at h
        obtain ⟨index, hfails⟩ := ih h
        exact ⟨index + 1, .later hstage hfails⟩
  · rintro ⟨index, h⟩
    induction h with
    | first hfails => exact expandFrom_cons_of_error hfails
    | later hstage _ ih => rwa [expandFrom_cons_of_ok hstage, map_eq_error_iff]

namespace FailsAt

theorem lt_length (h : FailsAt scope passed start stages index fault) : index < stages.length := by
  induction h with
  | first => exact Nat.zero_lt_succ _
  | later _ _ ih => exact Nat.succ_lt_succ ih

/-- A run that keeps the stage it ends at ends there. -/
theorem take (h : FailsAt scope passed start stages index fault) (hlt : index < count) :
    FailsAt scope passed start (stages.take count) index fault := by
  induction h generalizing count with
  | first hfails =>
    obtain ⟨count, rfl⟩ := Nat.exists_eq_succ_of_ne_zero (Nat.ne_of_gt hlt)
    exact .first hfails
  | later hstage _ ih =>
    obtain ⟨count, rfl⟩ := Nat.exists_eq_succ_of_ne_zero (Nat.ne_of_gt (Nat.zero_lt_of_lt hlt))
    exact .later hstage (ih (Nat.lt_of_succ_lt_succ hlt))

/-- The run over the stages before the one it ends at succeeds. -/
theorem exists_expandFrom_take (h : FailsAt scope passed start stages index fault) :
    ∃ outcome, expandFrom scope passed start (stages.take index) = .ok outcome := by
  induction h with
  | first => exact ⟨[], rfl⟩
  | @later scope behind passed start index stage rest expanded fault hstage _ ih =>
    obtain ⟨others, hothers⟩ := ih
    rw [List.take_succ_cons, expandFrom_cons_of_ok hstage]
    exact ⟨expanded :: others, map_eq_ok_iff.2 ⟨others, hothers, rfl⟩⟩

end FailsAt

end Run

/-! ### The whole query -/

namespace Surface.Query

/-- The query cut behind its first stages. -/
def take (query : Query) (count : Nat) : Query :=
  { query with stages := query.stages.take count }

/-- The inputs can be declared, and the run over the stages ends at one of them. -/
def FailsAt (query : Query) (validate : Validator) (index : Nat) (fault : Fault) : Prop :=
  ∃ scope, query.inputs.scope validate = .ok scope ∧
    StagedQuery.FailsAt scope scope.only? 0 query.stages index fault

variable {query : Query} {validate : Validator} {scope : Scope} {index count : Nat} {fault : Fault}
  {stored : Backend.Query}

/-- Where the inputs can be declared and there is a stage, the run decides. -/
theorem expandWith_eq_map (hscope : query.inputs.scope validate = .ok scope)
    (hnonempty : query.stages ≠ []) :
    query.expandWith validate =
      (expandFrom scope scope.only? 0 query.stages).map fun stages =>
        ⟨stageId (stages.length - 1), stages⟩ := by
  rw [expandWith, hscope]
  show query.expandIn scope = _
  rw [expandIn, if_neg (by simpa using hnonempty)]
  cases expandFrom scope scope.only? 0 query.stages <;> rfl

/-- **Where a query fails**: its inputs cannot be declared, there is no stage, or the
run over its stages ends at one of them. -/
theorem expandWith_eq_error_iff_failsAt :
    query.expandWith validate = .error fault ↔
      query.inputs.scope validate = .error fault ∨
        ((∃ scope, query.inputs.scope validate = .ok scope) ∧ query.stages = [] ∧
          fault = .noStages) ∨
        ∃ index, query.FailsAt validate index fault := by
  cases hscope : query.inputs.scope validate with
  | error reason => simp [expandWith, FailsAt, hscope]
  | ok scope =>
    by_cases hempty : query.stages = []
    · have hnone : ∀ index, ¬ StagedQuery.FailsAt scope scope.only? 0 query.stages index fault := by
        intro index hfails
        have hlt := hfails.lt_length
        rw [hempty] at hlt
        exact Nat.not_lt_zero index hlt
      simp [expandWith, expandIn, FailsAt, hscope, hempty ▸ hnone, hempty, eq_comm]
    · rw [expandWith_eq_map hscope hempty, map_eq_error_iff, expandFrom_eq_error_iff_exists_failsAt]
      simp [FailsAt, hscope, hempty]

theorem take_stages_ne_nil (hnonempty : query.stages ≠ []) (hcount : 1 ≤ count) :
    (query.take count).stages ≠ [] := by
  show query.stages.take count ≠ []
  rw [ne_eq, List.take_eq_nil_iff]
  exact not_or.2 ⟨Nat.ne_of_gt hcount, hnonempty⟩

/-- Each cut of a query that expands gives the first stages of the outcome. -/
theorem expandWith_take_of_ok (h : query.expandWith validate = .ok stored)
    (hcount : 1 ≤ count) (hle : count ≤ query.stages.length) :
    (query.take count).expandWith validate =
      .ok ⟨stageId (count - 1), stored.stages.take count⟩ := by
  obtain ⟨hproper, hnonempty, stages, hstages, rfl⟩ := expandWith_eq_ok_iff.1 h
  have hlength : (stages.take count).length = count := by
    rw [List.length_take, length_expandFrom hstages, Nat.min_eq_left hle]
  refine expandWith_eq_ok_iff.2
    ⟨hproper, take_stages_ne_nil hnonempty hcount, _, expandFrom_take hstages count, ?_⟩
  rw [hlength]

theorem take_take (hle : count ≤ index) : (query.take index).take count = query.take count := by
  rw [take, take, List.take_take, Nat.min_eq_left hle]
  rfl

namespace FailsAt

/-- A cut that keeps the stage at which the query fails does so there. -/
theorem take (h : query.FailsAt validate index fault) (hlt : index < count) :
    (query.take count).FailsAt validate index fault := by
  obtain ⟨scope, hscope, hfails⟩ := h
  exact ⟨scope, hscope, hfails.take hlt⟩

/-- A cut before that stage expands. -/
theorem exists_expandWith_take (h : query.FailsAt validate index fault) (hindex : 1 ≤ index) :
    ∃ stored, (query.take index).expandWith validate = .ok stored := by
  obtain ⟨scope, hscope, hfails⟩ := h
  have hnonempty : query.stages ≠ [] :=
    List.ne_nil_of_length_pos (Nat.zero_lt_of_lt hfails.lt_length)
  obtain ⟨outcome, houtcome⟩ := hfails.exists_expandFrom_take
  have hscope' : (query.take index).inputs.scope validate = .ok scope := hscope
  rw [expandWith_eq_map hscope' (take_stages_ne_nil hnonempty hindex)]
  exact ⟨_, map_eq_ok_iff.2 ⟨outcome, houtcome, rfl⟩⟩

end FailsAt

end Surface.Query

/-- **Later stages change nothing that came before.**  The cuts of a query that
expands expand to the first stages of the outcome.  Of one that fails at a stage, the
cuts before it expand, each to the first stages of the same list, and all others
fail as the query does. -/
theorem expandWith_take (query : Surface.Query) (validate : Validator) :
    (∀ stored, query.expandWith validate = .ok stored →
      ∀ count, 1 ≤ count → count ≤ query.stages.length →
        (query.take count).expandWith validate =
          .ok ⟨stageId (count - 1), stored.stages.take count⟩) ∧
    ∀ index fault, query.FailsAt validate index fault →
      (∃ stages : List Backend.Stage, ∀ count, 1 ≤ count → count ≤ index →
        (query.take count).expandWith validate = .ok ⟨stageId (count - 1), stages.take count⟩) ∧
      ∀ count, index < count → (query.take count).expandWith validate = .error fault := by
  refine ⟨fun stored h count => Surface.Query.expandWith_take_of_ok h, ?_⟩
  intro index fault hfails
  constructor
  · rcases Nat.eq_zero_or_pos index with rfl | hindex
    · exact ⟨[], fun count hcount hle => absurd (Nat.le_trans hcount hle) (by decide)⟩
    · -- the longest of these cuts expands, and the others are cuts of it
      obtain ⟨stored, hstored⟩ := hfails.exists_expandWith_take hindex
      refine ⟨stored.stages, fun count hcount hle => ?_⟩
      rw [← Surface.Query.take_take hle]
      refine Surface.Query.expandWith_take_of_ok hstored hcount ?_
      obtain ⟨scope, -, hrun⟩ := hfails
      have hlt := hrun.lt_length
      show count ≤ (query.stages.take index).length
      rw [List.length_take]
      omega
  · intro count hlt
    exact Surface.Query.expandWith_eq_error_iff_failsAt.2 (.inr (.inr ⟨index, hfails.take hlt⟩))

/-- The alias of the first stage is the id of the third, and the fourth names nothing
known. -/
def overtaken : Surface.Query where
  inputs := .ofList [("in", "7")]
  stages :=
    [⟨some "stage-2", none, "filter true"⟩, ⟨none, none, "join @stage-2"⟩,
      ⟨none, none, "sort time"⟩, ⟨none, some "gone", "limit 1"⟩]

theorem failsAt_overtaken : overtaken.FailsAt Dataset.bareId? 2 (.nameTaken "stage-2") := by
  have hfirst : expandStage ⟨[.dataset "in" "7"]⟩ (some (.dataset "in" "7")) 0
      ⟨some "stage-2", none, "filter true"⟩ =
        (.ok ⟨"stage-0", "filter true", [.dataset "in" "7"]⟩,
          ⟨[.dataset "in" "7", .ownId "stage-0", .stage "stage-2" "stage-0"]⟩) := by
    simp only [expandStage, inputsOf, supplementalNames, sortedNames_eq_insertionSort]
    decide +kernel
  have hsecond : expandStage ⟨[.dataset "in" "7", .ownId "stage-0", .stage "stage-2" "stage-0"]⟩
      (passedOn "stage-0") 1 ⟨none, none, "join @stage-2"⟩ =
        (.ok ⟨"stage-1", "join @stage-2",
            [.ofStage "stage-0" "stage-0", .ofStage "stage-2" "stage-0"]⟩,
          ⟨[.dataset "in" "7", .ownId "stage-0", .stage "stage-2" "stage-0",
            .ownId "stage-1"]⟩) := by
    simp only [expandStage, inputsOf, supplementalNames, sortedNames_eq_insertionSort]
    decide +kernel
  exact ⟨⟨[.dataset "in" "7"]⟩, by decide +kernel,
    .later hfirst (.later hsecond (.first (by decide +kernel)))⟩

/-- The cuts of the expanded example expand to its first stages; the query that is
overtaken fails from its third stage on, and not before. -/
theorem overtaken_take :
    (joined.take 2).expandWith Dataset.bareId? = .ok ⟨"stage-1", joinedStored.stages.take 2⟩ ∧
      overtaken.FailsAt Dataset.bareId? 2 (.nameTaken "stage-2") ∧
      (∃ stored, (overtaken.take 2).expandWith Dataset.bareId? = .ok stored) ∧
      (overtaken.take 3).expandWith Dataset.bareId? = .error (.nameTaken "stage-2") ∧
      overtaken.expandWith Dataset.bareId? = .error (.nameTaken "stage-2") := by
  have hjoined := (expandWith_take joined Dataset.bareId?).1 joinedStored expand_joined 2
    (by decide) (by decide)
  obtain ⟨⟨stages, hbefore⟩, hfrom⟩ :=
    (expandWith_take overtaken Dataset.bareId?).2 2 _ failsAt_overtaken
  exact ⟨hjoined, failsAt_overtaken, ⟨_, hbefore 2 (by decide) (by decide)⟩,
    hfrom 3 (by decide), hfrom 4 (by decide)⟩

end StagedQuery
