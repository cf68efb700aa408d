/-
StagedQuery/StageId.lean

The ids that stages get by their position: `stage-` followed by the position in
decimal.  An id depends on the position alone, so expanding an unchanged list of
stages gives unchanged ids.

A text has the form of a stage id when it is the id of some position that fits a
64-bit word.  `position?` reads that position back: it takes the digits behind
the stem and accepts them only where they are what the position would be written
as, which rules out signs, leading zeros and the empty number at once.

Main statements: `position?_eq_some_iff`, reading accepts exactly what
`stageId` writes; `stageId_inj`, ids of different positions differ.
-/
import StagedQuery.Text.Stem

namespace StagedQuery

/-- The stem of every stage id. -/
def stageStem : String := "stage-"

/-- The id of the stage at a position. -/
def stageId (position : Nat) : String :=
  stageStem ++ toString position

/-- Positions are 64-bit words. -/
def positionLimit : Nat := Nat.pow 2 64

namespace StageId

/-- The position a text is the stage id of, if it has the form of one. -/
def position? (name : String) : Option Nat :=
  match Text.behind? stageStem.toList name.toList with
  | none => none
  | some digits =>
    let position := Nat.ofDigitChars 10 digits 0
    if digits = Nat.toDigits 10 position ∧ position < positionLimit then some position else none

/-- Whether a text has the form of a stage id. -/
def hasForm (name : String) : Bool :=
  (position? name).isSome

/-! ### Reading back -/

theorem toList_stageId (position : Nat) :
    (stageId position).toList = stageStem.toList ++ Nat.toDigits 10 position := by
  rw [stageId, String.toList_append, Nat.toString_eq_repr, Nat.toList_repr]

/-- A stage id is read as the position it was written for, and nothing else is
read as one. -/
theorem position?_eq_some_iff {name : String} {position : Nat} :
    position? name = some position ↔ name = stageId position ∧ position < positionLimit := by
  rw [position?]
  constructor
  · intro h
    split at h
    · cases h
    · next digits hdigits =>
      obtain ⟨⟨hcanonical, hlimit⟩, hposition⟩ := Option.ite_none_right_eq_some.1 h
      cases hposition
      refine ⟨String.toList_inj.1 ?_, hlimit⟩
      rw [toList_stageId, ← hcanonical]
      exact Text.behind?_eq_some_iff.1 hdigits
  · rintro ⟨rfl, hlimit⟩
    rw [toList_stageId, Text.behind?_append]
    simp [Nat.ofDigitChars_ten_toDigits, hlimit]

/-- What has the form of a stage id is the id of a position. -/
theorem hasForm_iff {name : String} :
    hasForm name = true ↔ ∃ position < positionLimit, name = stageId position := by
  simp [hasForm, Option.isSome_iff_exists, position?_eq_some_iff, and_comm]

/-- What has another form is the id of no position. -/
theorem ne_of_hasForm_eq_false {name : String} {position : Nat} (h : hasForm name = false)
    (hlimit : position < positionLimit) : name ≠ stageId position := by
  intro hname
  rw [hasForm_iff.2 ⟨position, hlimit, hname⟩] at h
  cases h

end StageId

/-- No two positions have one id. -/
theorem stageId_inj {position other : Nat} : stageId position = stageId other ↔ position = other := by
  constructor
  · intro h
    have hdigits : Nat.toDigits 10 position = Nat.toDigits 10 other := by
      have hlist := congrArg String.toList h
      rw [StageId.toList_stageId, StageId.toList_stageId] at hlist
      exact List.append_cancel_left hlist
    have hread := congrArg (fun digits => Nat.ofDigitChars 10 digits 0) hdigits
    simpa only [Nat.ofDigitChars_ten_toDigits] using hread
  · rintro rfl
    rfl

end StagedQuery
