/-
StagedQuery/Json/Numeral.lean

Numbers as they stand in a JSON text.

No query holds a number, so a number is never turned into a value: it is a value
of the wrong type or one that is passed over.  What counts is where it ends,
whether it is well formed, and whether it is in range.  A number is read as a
double, digit by digit: the digits fill a 64-bit word as long as they fit, the
word is scaled by a power of ten, and a result beyond the doubles is refused.
The scaling is done here on exact integers, each factor rounded as a double is.
-/
import StagedQuery.Json.Fault

namespace StagedQuery.Json

/-- The parts of a number, its sign left out. -/
structure Numeral where
  /-- The digits before the point. -/
  whole : List Char
  /-- The digits behind the point. -/
  fraction : List Char
  /-- The power of ten it is scaled by. -/
  exponent : Int
  deriving DecidableEq, Repr

namespace Numeral

/-! ### Range -/

/-- Fill a word with the leading digits, as long as it has room for 64 bits;
beside it, the digits left over. -/
def fill (word : Nat) : List Char → Nat × List Char
  | [] => (word, [])
  | c :: digits =>
    let next := word * 10 + (c.toNat - '0'.toNat)
    if next < Nat.pow 2 64 then fill next digits else (word, c :: digits)

/-- The nearest number of at most 53 binary digits; a tie goes to the even one. -/
def roundToDouble (n : Nat) : Nat :=
  let unit := Nat.pow 2 (n.log2 + 1 - 53)
  let below := n / unit
  let rest := 2 * (n % unit)
  if unit < rest ∨ (rest = unit ∧ below % 2 = 1) then (below + 1) * unit else below * unit

/-- The least number that rounds beyond the largest double. -/
def overflow : Nat := (Nat.pow 2 54 - 1) * Nat.pow 2 970

/-- The largest power of ten that is a double. -/
def maxExponent : Int := 308

/-- Whether a word scaled by a power of ten is a double. -/
def isFinite (word : Nat) (exponent : Int) : Bool :=
  word = 0 || exponent < 0 ||
    (exponent ≤ maxExponent &&
      roundToDouble word * roundToDouble (Nat.pow 10 exponent.toNat) < overflow)

/-- Whether the number is in the range of doubles.  A digit before the point that
finds no room counts as a power of ten, one behind the point as nothing. -/
def inRange (numeral : Numeral) : Bool :=
  let (word, wholeLeft) := fill 0 numeral.whole
  let (word, fractionLeft) := fill word numeral.fraction
  let taken := numeral.fraction.length - fractionLeft.length
  isFinite word (numeral.exponent + wholeLeft.length - taken)

/-! ### Scanning -/

/-- Where digits must follow and none do: a number that is passed over is then
malformed even at the end of the text. -/
def noDigits : List Char → Break
  | [] => ⟨.truncated, .malformed⟩
  | _ :: _ => .malformed

/-- One digit or more, and the text behind them. -/
def digits (cs : List Char) : Except Break (List Char × List Char) :=
  match cs.takeWhile Char.isDigit with
  | [] => .error (noDigits cs)
  | c :: more => .ok (c :: more, cs.dropWhile Char.isDigit)

/-- The digits before the point: a zero stands alone. -/
def scanWhole (cs : List Char) : Except Break (List Char × List Char) :=
  match digits cs with
  | .error broken => .error broken
  | .ok (found, rest) =>
    if found.head? = some '0' ∧ found ≠ ['0'] then .error .malformed else .ok (found, rest)

/-- The digits behind a point, if there is one. -/
def scanFraction : List Char → Except Break (List Char × List Char)
  | '.' :: rest => digits rest
  | cs => .ok ([], cs)

/-- A sign and whether it is a minus. -/
def scanSign : List Char → Bool × List Char
  | '-' :: rest => (true, rest)
  | '+' :: rest => (false, rest)
  | cs => (false, cs)

/-- The power of ten, if there is one. -/
def scanExponent : List Char → Except Break (Int × List Char)
  | [] => .ok (0, [])
  | c :: rest =>
    if c = 'e' ∨ c = 'E' then
      match digits (scanSign rest).2 with
      | .error broken => .error broken
      | .ok (found, behind) =>
        let power : Int := Nat.ofDigitChars 10 found 0
        .ok (if (scanSign rest).1 then -power else power, behind)
    else .ok (0, c :: rest)

/-- A number behind its sign, and the text behind the number. -/
def scan (cs : List Char) : Except Break (Numeral × List Char) :=
  match scanWhole cs with
  | .error broken => .error broken
  | .ok (whole, rest) =>
    match scanFraction rest with
    | .error broken => .error broken
    | .ok (fraction, rest) =>
      match scanExponent rest with
      | .error broken => .error broken
      | .ok (exponent, rest) => .ok (⟨whole, fraction, exponent⟩, rest)

/-! ### Progress -/

theorem length_lt_of_digits {cs found rest : List Char} (h : digits cs = .ok (found, rest)) :
    rest.length < cs.length := by
  rw [digits] at h
  split at h
  · cases h
  · next c more htake =>
    cases h
    have hsplit := congrArg List.length
      (List.takeWhile_append_dropWhile (p := Char.isDigit) (l := cs))
    rw [htake, List.length_append, List.length_cons] at hsplit
    omega

theorem length_lt_of_scanWhole {cs found rest : List Char}
    (h : scanWhole cs = .ok (found, rest)) : rest.length < cs.length := by
  rw [scanWhole] at h
  split at h
  · cases h
  · next hdigits =>
    split at h
    · cases h
    · cases h
      exact length_lt_of_digits hdigits

theorem length_le_of_scanFraction {cs found rest : List Char}
    (h : scanFraction cs = .ok (found, rest)) : rest.length ≤ cs.length := by
  rw [scanFraction.eq_def] at h
  split at h
  · have := length_lt_of_digits h
    simp only [List.length_cons]
    omega
  · cases h
    exact Nat.le_refl _

theorem length_scanSign_le (cs : List Char) : (scanSign cs).2.length ≤ cs.length := by
  rw [scanSign.eq_def]
  split <;> simp

theorem length_le_of_scanExponent {cs rest : List Char} {power : Int}
    (h : scanExponent cs = .ok (power, rest)) : rest.length ≤ cs.length := by
  rw [scanExponent.eq_def] at h
  split at h
  · cases h
    exact Nat.le_refl _
  · next c tail =>
    split at h
    · split at h
      · cases h
      · next hdigits =>
        cases h
        have hsign := length_scanSign_le tail
        have hrest := length_lt_of_digits hdigits
        simp only [List.length_cons]
        omega
    · cases h
      exact Nat.le_refl _

/-- Scanning a number leaves less text than it was given. -/
theorem length_lt_of_scan {cs rest : List Char} {numeral : Numeral}
    (h : scan cs = .ok (numeral, rest)) : rest.length < cs.length := by
  rw [scan] at h
  split at h
  · cases h
  · next hwhole =>
    split at h
    · cases h
    · next hfraction =>
      split at h
      · cases h
      · next hexponent =>
        cases h
        have := length_lt_of_scanWhole hwhole
        have := length_le_of_scanFraction hfraction
        have := length_le_of_scanExponent hexponent
        omega

end Numeral

end StagedQuery.Json
