/-
StagedQuery/Json/Token.lean

The tokens of a JSON text.

`tokens` never fails: where the text breaks inside a token it ends with a token
that says so, and whether that matters is left to whoever gets there.  Space,
tab, line feed and carriage return may stand between tokens; any other character
that begins no token is a broken one.

Main statement: `length_lt_of_first`, a token uses up text, so that a text is
taken apart by recursion on its length.
-/
import StagedQuery.Json.Literal
import StagedQuery.Json.Numeral

namespace StagedQuery.Json

/-- A token. -/
inductive Token where
  /-- `[` -/
  | openList
  /-- `]` -/
  | closeList
  /-- `{` -/
  | openRecord
  /-- `}` -/
  | closeRecord
  /-- `,` -/
  | comma
  /-- `:` -/
  | colon
  /-- The empty value. -/
  | null
  /-- A truth value. -/
  | bool (value : Bool)
  /-- A number, and whether it is in range. -/
  | num (inRange : Bool)
  /-- A string: its text, unless a surrogate stands alone in it. -/
  | str (text : Option String)
  /-- A string in which the text breaks. -/
  | brokenStr (why : Break)
  /-- Any other token in which the text breaks. -/
  | broken (why : Break)
  deriving DecidableEq, Repr

namespace Token

/-! ### One token -/

/-- A token, and the text behind it unless it is broken. -/
abbrev Lexeme := Token × Option (List Char)

/-- The rest of a word that stands for a value. -/
def word (token : Token) : (expected cs : List Char) → Lexeme
  | [], cs => (token, some cs)
  | _ :: _, [] => (.broken .truncated, none)
  | e :: expected, c :: cs =>
    if e = c then word token expected cs else (.broken .malformed, none)

/-- A string behind its opening quote. -/
def string (cs : List Char) : Lexeme :=
  let scanned := scan cs
  match scanned.close with
  | .ok rest => (.str (text? scanned.pieces), some rest)
  | .error cause => (.brokenStr (breakOf scanned.pieces cause), none)

/-- A number behind its sign. -/
def number (cs : List Char) : Lexeme :=
  match Numeral.scan cs with
  | .ok (numeral, rest) => (.num numeral.inRange, some rest)
  | .error why => (.broken why, none)

/-- The token that begins with a character. -/
def first (c : Char) (rest : List Char) : Lexeme :=
  match c with
  | '[' => (.openList, some rest)
  | ']' => (.closeList, some rest)
  | '{' => (.openRecord, some rest)
  | '}' => (.closeRecord, some rest)
  | ',' => (.comma, some rest)
  | ':' => (.colon, some rest)
  | '"' => string rest
  | 'n' => word .null ['u', 'l', 'l'] rest
  | 't' => word (.bool true) ['r', 'u', 'e'] rest
  | 'f' => word (.bool false) ['a', 'l', 's', 'e'] rest
  | '-' => number rest
  | c => if c.isDigit then number (c :: rest) else (.broken .malformed, none)

/-! ### Progress -/

theorem length_le_of_word {token : Token} {expected cs rest : List Char}
    (h : (word token expected cs).2 = some rest) : rest.length ≤ cs.length := by
  fun_induction word token expected cs with
  | case1 => cases h; exact Nat.le_refl _
  | case2 => cases h
  | case3 expected e cs ih => exact Nat.le_succ_of_le (ih h)
  | case4 => cases h

theorem length_lt_of_string {cs rest : List Char} (h : (string cs).2 = some rest) :
    rest.length < cs.length := by
  rw [string] at h
  split at h
  · next hclose =>
    cases h
    exact length_lt_of_close hclose
  · cases h

theorem length_lt_of_number {cs rest : List Char} (h : (number cs).2 = some rest) :
    rest.length < cs.length := by
  rw [number] at h
  split at h
  · next hscan =>
    cases h
    exact Numeral.length_lt_of_scan hscan
  · cases h

/-- A token uses up at least its first character. -/
theorem length_lt_of_first {c : Char} {cs rest : List Char}
    (h : (first c cs).2 = some rest) : rest.length < (c :: cs).length := by
  rw [List.length_cons, Nat.lt_succ_iff]
  rw [first.eq_def] at h
  split at h
  case h_7 => exact Nat.le_of_lt (length_lt_of_string h)
  case h_8 => exact length_le_of_word h
  case h_9 => exact length_le_of_word h
  case h_10 => exact length_le_of_word h
  case h_11 => exact Nat.le_of_lt (length_lt_of_number h)
  case h_12 =>
    split at h
    · exact Nat.lt_succ_iff.1 (length_lt_of_number h)
    · cases h
  all_goals
    cases h
    exact Nat.le_refl _

end Token

/-! ### All tokens -/

/-- The characters that may stand between tokens. -/
def isSpace (c : Char) : Bool :=
  c = ' ' || c = '\t' || c = '\n' || c = '\r'

/-- The tokens of a text; only the last one can be broken. -/
def tokens (cs : List Char) : List Token :=
  match cs with
  | [] => []
  | c :: rest =>
    if isSpace c then tokens rest
    else
      match _ : Token.first c rest with
      | (token, none) => [token]
      | (token, some behind) => token :: tokens behind
termination_by cs.length
decreasing_by
  · simp
  · next hfirst => exact Token.length_lt_of_first (congrArg Prod.snd hfirst)

theorem tokens_space {c : Char} (h : isSpace c = true) (rest : List Char) :
    tokens (c :: rest) = tokens rest := by
  rw [tokens, if_pos h]

/-- A token that is not broken is followed by the tokens of the text behind it. -/
theorem tokens_of_first {c : Char} {rest behind : List Char} {token : Token}
    (hspace : isSpace c = false) (h : Token.first c rest = (token, some behind)) :
    tokens (c :: rest) = token :: tokens behind := by
  rw [tokens, if_neg (by simp [hspace])]
  split
  · next hfirst => rw [h] at hfirst; cases hfirst
  · next hfirst => rw [h] at hfirst; cases hfirst; rfl

end StagedQuery.Json
