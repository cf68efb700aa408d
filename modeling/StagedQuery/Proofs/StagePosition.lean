/-
StagedQuery/Proofs/StagePosition.lean

Which texts have the form of a stage id.

A position is a 64-bit word.  One way to tell whether a text is the id of one is to
read what follows the stem as a word and to write the id of that word back:

    hasForm name  ↔  word? reads some n behind the stem, and stageId n = name.

Reading alone takes more than is ever written, a plus sign and leading zeros; it
fails where a digit more would not fit the word (`word?_eq_some_iff`).  Another way
is to look at the text: what follows the stem is in decimal form, and its value fits
a word.

Main statement: `hasForm_stageId`, all these say the same; so no name that can be
declared is ever the id of a stage, and no two positions share one.
-/
import StagedQuery.Proofs.Declaration
import StagedQuery.Proofs.Numeral

namespace StagedQuery

namespace StageId

/-! ### Reading a word -/

/-- A number with one more digit, as long as it fits a word. -/
def pushDigit? (value : Nat) (c : Char) : Option Nat :=
  if c.isDigit = true ∧ 10 * value + (c.toNat - '0'.toNat) < positionLimit then
    some (10 * value + (c.toNat - '0'.toNat))
  else none

/-- The word that a text is read as: digits, which a plus sign may precede. -/
def word? (text : List Char) : Option Nat :=
  let digits := (Text.behind? ['+'] text).getD text
  if digits.isEmpty then none else digits.foldlM pushDigit? 0

variable {digits text : List Char} {value n : Nat}

/-- Digits are read as the number they add up to, where that fits a word: if it does,
so do all the numbers on the way. -/
theorem foldlM_pushDigit?_eq_some_iff (hvalue : value < positionLimit) :
    digits.foldlM pushDigit? value = some n ↔
      (∀ c ∈ digits, c.isDigit = true) ∧ Nat.ofDigitChars 10 digits value = n ∧
        n < positionLimit := by
  induction digits generalizing value with
  | nil =>
    simp only [List.foldlM_nil, Option.pure_def, Option.some.injEq, Nat.ofDigitChars_nil]
    exact ⟨fun h => ⟨List.forall_mem_nil _, h, h ▸ hvalue⟩, fun h => h.2.1⟩
  | cons c rest ih =>
    rw [List.foldlM_cons, Option.bind_eq_bind, Option.bind_eq_some_iff, Nat.ofDigitChars_cons,
      List.forall_mem_cons]
    constructor
    · rintro ⟨next, hnext, hrest⟩
      obtain ⟨⟨hc, hfits⟩, heq⟩ := Option.ite_none_right_eq_some.1 hnext
      cases heq
      obtain ⟨hdigits, hn, hlimit⟩ := (ih hfits).1 hrest
      exact ⟨⟨hc, hdigits⟩, hn, hlimit⟩
    · rintro ⟨⟨hc, hdigits⟩, hn, hlimit⟩
      have hfits : 10 * value + (c.toNat - '0'.toNat) < positionLimit :=
        Nat.lt_of_le_of_lt (hn ▸ le_ofDigitChars rest _) hlimit
      exact ⟨_, if_pos ⟨hc, hfits⟩, (ih hfits).2 ⟨hdigits, hn, hlimit⟩⟩

/-- **A word is read from its digits**, with or without a plus sign, whatever zeros
they begin with. -/
theorem word?_eq_some_iff :
    word? text = some n ↔
      ∃ digits, (text = digits ∨ text = '+' :: digits) ∧ digits ≠ [] ∧
        (∀ c ∈ digits, c.isDigit = true) ∧ Nat.ofDigitChars 10 digits 0 = n ∧
          n < positionLimit := by
  have hread : ∀ digits : List Char, digits ≠ [] →
      ((if digits.isEmpty then none else digits.foldlM pushDigit? 0) = some n ↔
        (∀ c ∈ digits, c.isDigit = true) ∧ Nat.ofDigitChars 10 digits 0 = n ∧
          n < positionLimit) := by
    intro digits hne
    rw [if_neg (by simpa using hne)]
    exact foldlM_pushDigit?_eq_some_iff (by decide)
  simp only [word?]
  constructor
  · intro h
    have hne : (Text.behind? ['+'] text).getD text ≠ [] := by
      intro hempty
      rw [hempty] at h
      cases h
    refine ⟨_, ?_, hne, (hread _ hne).1 h⟩
    cases hsign : Text.behind? ['+'] text with
    | none => exact .inl rfl
    | some rest => exact .inr (Text.behind?_eq_some_iff.1 hsign)
  · rintro ⟨digits, htext, hne, hdigits, hn⟩
    have hsign : (Text.behind? ['+'] text).getD text = digits := by
      rcases htext with rfl | rfl
      · -- no digit is a plus sign
        obtain ⟨c, rest, rfl⟩ := List.exists_cons_of_ne_nil hne
        have hplus : '+' ≠ c := by
          rintro rfl
          exact absurd (hdigits _ List.mem_cons_self) (by decide)
        rw [Text.behind?, if_neg hplus, Option.getD_none]
      · rw [Text.behind?, if_pos rfl, Text.behind?, Option.getD_some]
    rw [hsign]
    exact (hread digits hne).2 ⟨hdigits, hn⟩

/-- What a position is written as is read as that position. -/
theorem word?_toDigits (hlimit : n < positionLimit) : word? (Nat.toDigits 10 n) = some n :=
  word?_eq_some_iff.2 ⟨_, .inl rfl, Nat.toDigits_ne_nil,
    fun _ => Nat.isDigit_of_mem_toDigits (by decide) (by decide), Nat.ofDigitChars_ten_toDigits,
    hlimit⟩

/-! ### Texts in the form of a stage id -/

/-- A text has the form where what is read behind the stem gives it back. -/
theorem hasForm_eq_any (name : String) :
    hasForm name = ((Text.behind? stageStem.toList name.toList).bind word?).any
      fun position => decide (stageId position = name) := by
  rw [Bool.eq_iff_iff, hasForm_iff, Option.any_eq_true]
  constructor
  · rintro ⟨position, hlimit, rfl⟩
    refine ⟨position, ?_, by simp⟩
    rw [toList_stageId, Text.behind?_append, Option.bind_some, word?_toDigits hlimit]
  · rintro ⟨position, hread, hwritten⟩
    obtain ⟨digits, -, hdigits⟩ := Option.bind_eq_some_iff.1 hread
    obtain ⟨-, -, -, -, -, hlimit⟩ := word?_eq_some_iff.1 hdigits
    exact ⟨position, hlimit, (of_decide_eq_true hwritten).symm⟩

/-- A text has the form where a number in decimal form follows the stem, and fits a
word. -/
theorem hasForm_append_iff (number : String) :
    hasForm (stageStem ++ number) = true ↔
      IsDecimal number ∧ numeralValue number < positionLimit := by
  rw [hasForm_iff, isDecimal_iff]
  constructor
  · rintro ⟨position, hlimit, hname⟩
    have hdigits : number.toList = Nat.toDigits 10 position := by
      have hlist := congrArg String.toList hname
      rw [toList_stageId, String.toList_append] at hlist
      exact List.append_cancel_left hlist
    have hvalue : numeralValue number = position := by
      rw [numeralValue, hdigits, Nat.ofDigitChars_ten_toDigits]
    rw [hvalue]
    exact ⟨hdigits, hlimit⟩
  · rintro ⟨hdigits, hlimit⟩
    refine ⟨_, hlimit, ?_⟩
    rw [← String.toList_inj, toList_stageId, ← hdigits, String.toList_append]

end StageId

open StageId

/-- **A text has the form of a stage id where it is the id of a position.**  It is told
by reading and writing back, or by what follows the stem.  No two positions have one
id, and no input is declared under the id of any. -/
theorem hasForm_stageId :
    (∀ name, hasForm name = true ↔ ∃ position < positionLimit, name = stageId position) ∧
      (∀ name, hasForm name = ((Text.behind? stageStem.toList name.toList).bind word?).any
        fun position => decide (stageId position = name)) ∧
      (∀ number, hasForm (stageStem ++ number) = true ↔
        IsDecimal number ∧ numeralValue number < positionLimit) ∧
      (∀ position other, stageId position = stageId other → position = other) ∧
      ∀ (inputs : Inputs) (validate : Validator) (scope : Scope),
        inputs.scope validate = .ok scope →
          ∀ entry ∈ inputs.entries, ∀ position < positionLimit, entry.1 ≠ stageId position := by
  refine ⟨fun _ => hasForm_iff, hasForm_eq_any, hasForm_append_iff,
    fun _ _ => stageId_inj.1, ?_⟩
  intro inputs validate scope hscope entry hentry position hlimit hname
  have hfree := ((Inputs.scope_eq_ok_iff.1 hscope).1.declarable entry hentry).free
  rw [hasForm_iff.2 ⟨position, hlimit, hname⟩] at hfree
  cases hfree

/-- A leading zero makes a name that may be declared, and that no stage has as its id. -/
theorem leadingZero_declared :
    (Inputs.ofList [("stage-01", "7")]).scope Dataset.bareId? =
        .ok ⟨[.dataset "stage-01" "7"]⟩ ∧
      hasForm "stage-1" = true ∧
      ∀ position < positionLimit, "stage-01" ≠ stageId position := by
  have hscope : (Inputs.ofList [("stage-01", "7")]).scope Dataset.bareId? =
      .ok ⟨[.dataset "stage-01" "7"]⟩ := by decide +kernel
  obtain ⟨hform, -, -, -, hdeclared⟩ := hasForm_stageId
  exact ⟨hscope, (hform _).2 ⟨1, by decide, by decide⟩,
    hdeclared _ _ _ hscope ("stage-01", "7") (by decide +kernel)⟩

end StagedQuery
