/-
StagedQuery/Text/Stem.lean

What follows a stem: a text that begins with the stem is the stem and its
remainder, any other text has none.  Stage ids, dataset references and options
of the command line are all read this way.
-/

namespace StagedQuery.Text

/-- The text behind `stem`, if `text` begins with it. -/
def behind? : (stem text : List Char) → Option (List Char)
  | [], text => some text
  | _ :: _, [] => none
  | s :: stem, c :: text => if s = c then behind? stem text else none

/-- A text has the remainder that completes the stem, and no other. -/
theorem behind?_eq_some_iff {stem text rest : List Char} :
    behind? stem text = some rest ↔ text = stem ++ rest := by
  induction stem generalizing text with
  | nil => simp [behind?]
  | cons s stem ih =>
    cases text with
    | nil => simp [behind?]
    | cons c text =>
      by_cases h : s = c
      · subst h
        simp [behind?, ih]
      · simp [behind?, h, Ne.symm h]

theorem behind?_append (stem rest : List Char) : behind? stem (stem ++ rest) = some rest :=
  behind?_eq_some_iff.2 rfl

end StagedQuery.Text
