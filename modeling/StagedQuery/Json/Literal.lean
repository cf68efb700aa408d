/-
StagedQuery/Json/Literal.lean

Strings as they stand in a JSON text.

Writing quotes a text: a quote, a backslash and the control characters below
U+0020 are escaped, everything else stands raw.

Reading has two steps.  `scan` goes through the text behind an opening quote up
to the closing one and takes the escapes apart; a `\u` escape is kept as the
UTF-16 code it spells.  `decode` then joins pairs of surrogate codes to the
characters they stand for, and refuses a surrogate that stands alone.  A string
that is passed over is scanned only.

Main statements: `scan_escape`, scanning a written string gives its pieces and
stops behind its closing quote, whatever follows; `text?_pieces`, the pieces
stand for the text that was written.
-/
import StagedQuery.Json.Fault

namespace StagedQuery.Json

/-! ### Writing -/

/-- A hexadecimal digit, lower case. -/
def hexDigit (n : Nat) : Char :=
  if n < 10 then Char.ofNat ('0'.toNat + n) else Char.ofNat ('a'.toNat + (n - 10))

/-- A character inside a quoted text. -/
def escapeChar (c : Char) : List Char :=
  if c = '"' then ['\\', '"']
  else if c = '\\' then ['\\', '\\']
  else if c = '\x08' then ['\\', 'b']
  else if c = '\x0c' then ['\\', 'f']
  else if c = '\n' then ['\\', 'n']
  else if c = '\r' then ['\\', 'r']
  else if c = '\t' then ['\\', 't']
  else if c.toNat < 0x20 then
    ['\\', 'u', '0', '0', hexDigit (c.toNat / 16), hexDigit (c.toNat % 16)]
  else [c]

/-- A text inside its quotes. -/
def escape (cs : List Char) : List Char :=
  cs.flatMap escapeChar

/-- A text with its quotes. -/
def quote (s : String) : List Char :=
  '"' :: (escape s.toList ++ ['"'])

/-! ### Scanning -/

/-- A piece of a scanned string. -/
inductive Piece where
  /-- A character, raw or escaped by a letter or a sign. -/
  | char (c : Char)
  /-- A UTF-16 code, escaped by its number. -/
  | code (n : Nat)
  deriving DecidableEq, Repr

/-- What stands behind an opening quote: the pieces up to the closing one and the
text behind that, or why no closing quote is reached. -/
structure Scan where
  /-- The pieces, as far as the string goes. -/
  pieces : List Piece
  /-- The text behind the closing quote. -/
  close : Except Cause (List Char)

namespace Scan

/-- A string that breaks off. -/
def stop (cause : Cause) : Scan := ⟨[], .error cause⟩

/-- A string that begins with one more piece. -/
def cons (piece : Piece) (scan : Scan) : Scan := ⟨piece :: scan.pieces, scan.close⟩

end Scan

/-- The value of a hexadecimal digit, upper or lower case. -/
def hexValue? (c : Char) : Option Nat :=
  if '0' ≤ c ∧ c ≤ '9' then some (c.toNat - '0'.toNat)
  else if 'a' ≤ c ∧ c ≤ 'f' then some (c.toNat - 'a'.toNat + 10)
  else if 'A' ≤ c ∧ c ≤ 'F' then some (c.toNat - 'A'.toNat + 10)
  else none

/-- The number that four hexadecimal digits spell. -/
def hexCode? (a b c d : Char) : Option Nat := do
  let a ← hexValue? a
  let b ← hexValue? b
  let c ← hexValue? c
  let d ← hexValue? d
  return ((a * 16 + b) * 16 + c) * 16 + d

/-- The character that a letter or a sign stands for behind a backslash. -/
def escaped? (c : Char) : Option Char :=
  if c = '"' ∨ c = '\\' ∨ c = '/' then some c
  else if c = 'b' then some '\x08'
  else if c = 'f' then some '\x0c'
  else if c = 'n' then some '\n'
  else if c = 'r' then some '\r'
  else if c = 't' then some '\t'
  else none

/-- Why the number of a code cannot be read from so little text: where the text
has not four bytes left it ends too early, else what is there is no number. -/
def shortCode (cs : List Char) : Cause :=
  if (String.ofList cs).utf8ByteSize < 4 then .truncated else .malformed

/-- Go through a string behind its opening quote. -/
def scan : List Char → Scan
  | [] => .stop .truncated
  | c :: rest =>
    if c = '"' then ⟨[], .ok rest⟩
    else if c = '\\' then
      match rest with
      | [] => .stop .truncated
      | e :: rest =>
        if e = 'u' then
          match rest with
          | a :: b :: c :: d :: rest =>
            match hexCode? a b c d with
            | some n => .cons (.code n) (scan rest)
            | none => .stop .malformed
          | short => .stop (shortCode short)
        else
          match escaped? e with
          | some c => .cons (.char c) (scan rest)
          | none => .stop .malformed
    else if c.toNat < 0x20 then .stop .malformed
    else .cons (.char c) (scan rest)

/-! ### Decoding -/

/-- Whether a code is the first half of a surrogate pair. -/
def isHigh (n : Nat) : Bool := 0xD800 ≤ n && n ≤ 0xDBFF

/-- Whether a code is the second half of a surrogate pair. -/
def isLow (n : Nat) : Bool := 0xDC00 ≤ n && n ≤ 0xDFFF

/-- The character that a surrogate pair stands for. -/
def joined (high low : Nat) : Char :=
  Char.ofNat (0x10000 + (high - 0xD800) * 0x400 + (low - 0xDC00))

/-- Where a surrogate stands alone. -/
inductive Lone where
  /-- Something that is not its other half follows, or it is a second half. -/
  | within
  /-- It is a first half and nothing follows it. -/
  | last
  deriving DecidableEq, Repr

/-- The characters that the pieces of a string stand for. -/
def decode : List Piece → Except Lone (List Char)
  | [] => .ok []
  | .char c :: rest => (decode rest).map (c :: ·)
  | .code n :: rest =>
    if isLow n then .error .within
    else if isHigh n then
      match rest with
      | [] => .error .last
      | .char _ :: _ => .error .within
      | .code m :: rest =>
        if isLow m then (decode rest).map (joined n m :: ·) else .error .within
    else (decode rest).map (Char.ofNat n :: ·)

/-- The text of a complete string, unless a surrogate stands alone in it. -/
def text? (pieces : List Piece) : Option String :=
  match decode pieces with
  | .ok cs => some (String.ofList cs)
  | .error _ => none

/-- The break of a string that is not complete.  Reading stops already at a
surrogate that is seen to stand alone before the text breaks. -/
def breakOf (pieces : List Piece) (cause : Cause) : Break :=
  match decode pieces with
  | .error .within => ⟨.malformed, cause⟩
  | _ => ⟨cause, cause⟩

/-! ### Laws -/

/-- Scanning leaves less text than it was given. -/
theorem length_lt_of_close {cs rest : List Char} (h : (scan cs).close = .ok rest) :
    rest.length < cs.length := by
  fun_induction scan cs <;> simp_all [Scan.stop, Scan.cons] <;> omega

theorem scan_close (rest : List Char) : scan ('"' :: rest) = ⟨[], .ok rest⟩ := by
  rw [scan.eq_def]
  simp

theorem scan_escaped {e c : Char} (hu : e ≠ 'u') (h : escaped? e = some c) (rest : List Char) :
    scan ('\\' :: e :: rest) = .cons (.char c) (scan rest) := by
  rw [scan.eq_def]
  simp [hu, h]

theorem scan_code {a b c d : Char} {n : Nat} (h : hexCode? a b c d = some n)
    (rest : List Char) :
    scan ('\\' :: 'u' :: a :: b :: c :: d :: rest) = .cons (.code n) (scan rest) := by
  rw [scan.eq_def]
  simp [h]

theorem scan_raw {c : Char} (hquote : c ≠ '"') (hback : c ≠ '\\') (hlow : ¬ c.toNat < 0x20)
    (rest : List Char) : scan (c :: rest) = .cons (.char c) (scan rest) := by
  rw [scan.eq_def]
  simp [hquote, hback, hlow]

/-! ### Reading what was written -/

/-- The piece that a character is written as: a control character without an
escape of its own is written as its code. -/
def pieceOf (c : Char) : Piece :=
  if c.toNat < 0x20 ∧ c ∉ ['\x08', '\x0c', '\n', '\r', '\t'] then .code c.toNat else .char c

/-- Two hexadecimal digits spell a control character's number. -/
theorem hexCode?_hexDigit :
    ∀ n < 0x20, hexCode? '0' '0' (hexDigit (n / 16)) (hexDigit (n % 16)) = some n := by
  decide

theorem scan_escapeChar (c : Char) (rest : List Char) :
    scan (escapeChar c ++ rest) = .cons (pieceOf c) (scan rest) := by
  rw [escapeChar]
  split
  · next h => subst h; exact scan_escaped (by decide) rfl rest
  split
  · next h => subst h; exact scan_escaped (by decide) rfl rest
  split
  · next h => subst h; exact scan_escaped (by decide) rfl rest
  split
  · next h => subst h; exact scan_escaped (by decide) rfl rest
  split
  · next h => subst h; exact scan_escaped (by decide) rfl rest
  split
  · next h => subst h; exact scan_escaped (by decide) rfl rest
  split
  · next h => subst h; exact scan_escaped (by decide) rfl rest
  split
  · -- a control character without an escape of its own
    next hlow =>
    have hpiece : pieceOf c = .code c.toNat := by simp_all [pieceOf]
    rw [hpiece]
    exact scan_code (hexCode?_hexDigit c.toNat hlow) rest
  · next hquote hback _ _ _ _ _ hlow =>
    have hpiece : pieceOf c = .char c := by simp [pieceOf, hlow]
    rw [hpiece]
    exact scan_raw hquote hback hlow rest

/-- Scanning undoes escaping and stops behind the closing quote. -/
theorem scan_escape (cs rest : List Char) :
    scan (escape cs ++ '"' :: rest) = ⟨cs.map pieceOf, .ok rest⟩ := by
  induction cs with
  | nil => exact scan_close rest
  | cons c cs ih =>
    rw [escape] at ih
    rw [escape, List.flatMap_cons, List.append_assoc, scan_escapeChar, ih]
    rfl

theorem isHigh_of_lt {n : Nat} (h : n < 0xD800) : isHigh n = false := by
  rw [isHigh, decide_eq_false (by omega), Bool.false_and]

theorem isLow_of_lt {n : Nat} (h : n < 0xD800) : isLow n = false := by
  rw [isLow, decide_eq_false (by omega), Bool.false_and]

/-- A code that is no surrogate stands for itself, whatever follows. -/
theorem decode_code {n : Nat} (h : n < 0xD800) (rest : List Piece) :
    decode (.code n :: rest) = (decode rest).map (Char.ofNat n :: ·) := by
  rw [decode.eq_def]
  simp [isHigh_of_lt h, isLow_of_lt h]

theorem decode_pieces (cs : List Char) : decode (cs.map pieceOf) = .ok cs := by
  induction cs with
  | nil => rfl
  | cons c cs ih =>
    rw [List.map_cons, pieceOf]
    split
    · next h =>
      rw [decode_code (Nat.lt_trans h.1 (by decide)), ih, Char.ofNat_toNat]
      rfl
    · rw [decode, ih]
      rfl

/-- The pieces of a written string stand for the text that was written. -/
theorem text?_pieces (s : String) : text? (s.toList.map pieceOf) = some s := by
  simp [text?, decode_pieces]

end StagedQuery.Json
