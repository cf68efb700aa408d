/-
StagedQuery/Proofs/Literal.lean

Strings and numbers as the grammar of JSON has them.

The grammar says which texts are strings and numbers, and nothing about how they are
read: a string is a run of `Glyph`s between quotes, a number a `Magnitude` that may
follow a minus.  Scanning agrees with the grammar in both directions:

    scan (glyphs ++ '"' :: rest) = ⟨pieces of the glyphs, .ok rest⟩,

and whatever is scanned up to its end is of that form.  A string says itself where it
ends.  A number does not, so what follows it must not go on with it (`Ends`).

Main statements: `scan_glyphs` and `exists_glyphs` for strings, `scan_magnitude` and
`exists_magnitude` for numbers.
-/
import StagedQuery.Json.Literal
import StagedQuery.Json.Numeral
import StagedQuery.Proofs.Numeral

namespace StagedQuery.Json

/-! ### Strings -/

/-- What may follow a backslash, and the character that it then stands for. -/
def escapes : List (Char × Char) :=
  [('"', '"'), ('\\', '\\'), ('/', '/'), ('b', '\x08'), ('f', '\x0c'), ('n', '\n'), ('r', '\r'),
    ('t', '\t')]

/-- A hexadecimal digit, upper or lower case. -/
def IsHexDigit (c : Char) : Prop :=
  ('0' ≤ c ∧ c ≤ '9') ∨ ('a' ≤ c ∧ c ≤ 'f') ∨ ('A' ≤ c ∧ c ≤ 'F')

/-- A character of a string, as it is spelled. -/
inductive Glyph where
  /-- The character itself, unless it is a quote, a backslash or a control character. -/
  | raw (c : Char) (hquote : c ≠ '"') (hback : c ≠ '\\') (hlow : 0x20 ≤ c.toNat)
  /-- A backslash and what stands for the character behind it. -/
  | escaped (e c : Char) (hescape : (e, c) ∈ escapes)
  /-- A backslash, the letter `u` and four hexadecimal digits. -/
  | code (a b c d : Char) (ha : IsHexDigit a) (hb : IsHexDigit b) (hc : IsHexDigit c)
      (hd : IsHexDigit d)

namespace Glyph

/-- How it is spelled. -/
def text : Glyph → List Char
  | raw c .. => [c]
  | escaped e .. => ['\\', e]
  | code a b c d .. => ['\\', 'u', a, b, c, d]

/-- What it stands for. -/
def piece : Glyph → Piece
  | raw c .. => .char c
  | escaped _ c _ => .char c
  | code a b c d .. => .code ((hexCode? a b c d).getD 0)

end Glyph

/-- The text that glyphs stand for, unless a surrogate stands alone among them. -/
def valueOf? (glyphs : List Glyph) : Option String :=
  text? (glyphs.map Glyph.piece)

section Strings

variable {a b c d e : Char} {cs rest : List Char}

theorem escaped?_eq_some_iff : escaped? e = some c ↔ (e, c) ∈ escapes := by
  constructor
  · intro h
    rw [escaped?] at h
    split at h
    · next heq =>
      cases h
      rcases heq with rfl | rfl | rfl <;> decide
    split at h
    · next heq => cases h; subst heq; decide
    split at h
    · next heq => cases h; subst heq; decide
    split at h
    · next heq => cases h; subst heq; decide
    split at h
    · next heq => cases h; subst heq; decide
    split at h
    · next heq => cases h; subst heq; decide
    · cases h
  · intro h
    have hall : ∀ entry ∈ escapes, escaped? entry.1 = some entry.2 := by decide
    exact hall _ h

theorem isSome_hexValue? : (hexValue? c).isSome = true ↔ IsHexDigit c := by
  rw [hexValue?, IsHexDigit]
  split
  · next h => simp [h]
  split
  · next h => simp [h]
  split
  · next h => simp [h]
  · next h₁ h₂ h₃ => simp [h₁, h₂, h₃]

/-- Four hexadecimal digits spell a code, and nothing else does. -/
theorem isSome_hexCode? : (hexCode? a b c d).isSome = true ↔
    IsHexDigit a ∧ IsHexDigit b ∧ IsHexDigit c ∧ IsHexDigit d := by
  simp only [← isSome_hexValue?, hexCode?]
  cases hexValue? a <;> cases hexValue? b <;> cases hexValue? c <;> cases hexValue? d <;> simp

/-- A glyph is scanned as what it stands for. -/
theorem scan_glyph (glyph : Glyph) (rest : List Char) :
    scan (glyph.text ++ rest) = .cons glyph.piece (scan rest) := by
  cases glyph with
  | raw c hquote hback hlow => exact scan_raw hquote hback (Nat.not_lt.2 hlow) rest
  | escaped e c hescape =>
    have hletter : e ≠ 'u' := by
      rintro rfl
      exact absurd (escaped?_eq_some_iff.2 hescape) (by simp [escaped?])
    exact scan_escaped hletter (escaped?_eq_some_iff.2 hescape) rest
  | code a b c d ha hb hc hd =>
    obtain ⟨n, hn⟩ := Option.isSome_iff_exists.1 (isSome_hexCode?.2 ⟨ha, hb, hc, hd⟩)
    show scan ('\\' :: 'u' :: a :: b :: c :: d :: rest) = _
    rw [scan_code hn, Glyph.piece, hn, Option.getD_some]

/-- **A string is scanned glyph by glyph**, up to its closing quote. -/
theorem scan_glyphs (glyphs : List Glyph) (rest : List Char) :
    scan (glyphs.flatMap Glyph.text ++ '"' :: rest) = ⟨glyphs.map Glyph.piece, .ok rest⟩ := by
  induction glyphs with
  | nil => exact scan_close rest
  | cons glyph glyphs ih =>
    rw [List.flatMap_cons, List.append_assoc, scan_glyph, ih]
    rfl

/-- What is scanned up to a closing quote is spelled in glyphs. -/
theorem exists_glyphs (h : (scan cs).close = .ok rest) :
    ∃ glyphs : List Glyph, cs = glyphs.flatMap Glyph.text ++ '"' :: rest ∧
      (scan cs).pieces = glyphs.map Glyph.piece := by
  fun_induction scan cs with
  | case1 => cases h
  | case2 => cases h; exact ⟨[], rfl, rfl⟩
  | case3 => cases h
  | case4 a b c d behind n hcode _ ih =>
    obtain ⟨glyphs, rfl, hpieces⟩ := ih h
    obtain ⟨ha, hb, hc, hd⟩ := isSome_hexCode?.1 (Option.isSome_iff_exists.2 ⟨n, hcode⟩)
    refine ⟨.code a b c d ha hb hc hd :: glyphs, rfl, ?_⟩
    rw [Scan.cons, hpieces, List.map_cons, Glyph.piece, hcode, Option.getD_some]
  | case5 => cases h
  | case6 => cases h
  | case7 e behind _ c hescape _ ih =>
    obtain ⟨glyphs, rfl, hpieces⟩ := ih h
    refine ⟨.escaped e c (escaped?_eq_some_iff.1 hescape) :: glyphs, rfl, ?_⟩
    rw [Scan.cons, hpieces, List.map_cons, Glyph.piece]
  | case8 => cases h
  | case9 => cases h
  | case10 c behind hquote hback hlow ih =>
    obtain ⟨glyphs, rfl, hpieces⟩ := ih h
    refine ⟨.raw c hquote hback (Nat.not_lt.1 hlow) :: glyphs, rfl, ?_⟩
    rw [Scan.cons, hpieces, List.map_cons, Glyph.piece]

end Strings

/-! ### Numbers -/

/-- A power of ten behind a number. -/
structure Power where
  /-- The letter before it. -/
  letter : Char
  /-- Its sign, if there is one. -/
  sign : List Char
  /-- Its digits. -/
  digits : String
  letter_eq : letter = 'e' ∨ letter = 'E'
  sign_eq : sign = [] ∨ sign = ['+'] ∨ sign = ['-']
  isNumeral_digits : IsNumeral digits

/-- A number without its sign. -/
structure Magnitude where
  /-- What stands before the point. -/
  whole : String
  /-- What stands behind the point, if there is one. -/
  fraction : Option String
  /-- The power of ten, if there is one. -/
  power : Option Power
  isDecimal_whole : IsDecimal whole
  isNumeral_fraction : ∀ digits, fraction = some digits → IsNumeral digits

/-- How a power of ten is spelled. -/
def Power.text (power : Power) : List Char :=
  power.letter :: (power.sign ++ power.digits.toList)

/-- The power of ten itself. -/
def Power.value (power : Power) : Int :=
  if power.sign = ['-'] then -(numeralValue power.digits : Int) else numeralValue power.digits

namespace Magnitude

/-- How what stands behind the point is spelled, with the point. -/
def fractionText (magnitude : Magnitude) : List Char :=
  (magnitude.fraction.map fun digits => '.' :: digits.toList).getD []

/-- How the power of ten is spelled. -/
def powerText (magnitude : Magnitude) : List Char :=
  (magnitude.power.map Power.text).getD []

/-- How it is spelled. -/
def text (magnitude : Magnitude) : List Char :=
  magnitude.whole.toList ++ (magnitude.fractionText ++ magnitude.powerText)

/-- What it is scanned as. -/
def numeral (magnitude : Magnitude) : Numeral where
  whole := magnitude.whole.toList
  fraction := (magnitude.fraction.map String.toList).getD []
  exponent := (magnitude.power.map Power.value).getD 0

end Magnitude

/-- A character that a number can go on with. -/
def goesOn (c : Char) : Bool :=
  c.isDigit || c = '.' || c = 'e' || c = 'E'

/-- A number ends where no text follows that it goes on with. -/
def Ends (rest : List Char) : Prop :=
  ∀ c ∈ rest.head?, goesOn c = false

section Numbers

variable {cs rest found : List Char}

theorem Ends.isDigit_eq_false (h : Ends rest) : ∀ c ∈ rest.head?, c.isDigit = false := by
  intro c hc
  have hends := h c hc
  simp only [goesOn, Bool.or_eq_false_iff] at hends
  exact hends.1.1.1

/-- Digits are taken up to the first character that is none. -/
theorem digits_append {digits : String} (hdigits : IsNumeral digits)
    (hrest : ∀ c ∈ rest.head?, c.isDigit = false) :
    Numeral.digits (digits.toList ++ rest) = .ok (digits.toList, rest) := by
  obtain ⟨hne, hall⟩ := isNumeral_iff.1 hdigits
  have hstop : rest.takeWhile Char.isDigit = [] ∧ rest.dropWhile Char.isDigit = rest := by
    cases rest with
    | nil => exact ⟨rfl, rfl⟩
    | cons c rest => simp [hrest c rfl]
  have htake : (digits.toList ++ rest).takeWhile Char.isDigit = digits.toList := by
    rw [List.takeWhile_append_of_pos hall, hstop.1, List.append_nil]
  have hdrop : (digits.toList ++ rest).dropWhile Char.isDigit = rest := by
    rw [List.dropWhile_append_of_pos hall, hstop.2]
  obtain ⟨c, more, hcons⟩ := List.exists_cons_of_ne_nil hne
  rw [Numeral.digits, htake, hdrop, hcons]

/-- What is taken are digits. -/
theorem exists_digits (h : Numeral.digits cs = .ok (found, rest)) :
    ∃ digits : String, IsNumeral digits ∧ found = digits.toList ∧ cs = found ++ rest := by
  rw [Numeral.digits] at h
  split at h
  · cases h
  · next c more htake =>
    cases h
    refine ⟨.ofList (c :: more), isNumeral_iff.2 ?_, String.toList_ofList.symm, ?_⟩
    · rw [String.toList_ofList, ← htake]
      refine ⟨by simp [htake], fun d hd => ?_⟩
      exact List.all_eq_true.1 List.all_takeWhile d hd
    · rw [← htake, List.takeWhile_append_dropWhile]

theorem scanWhole_append {whole : String} (hwhole : IsDecimal whole)
    (hrest : ∀ c ∈ rest.head?, c.isDigit = false) :
    Numeral.scanWhole (whole.toList ++ rest) = .ok (whole.toList, rest) := by
  obtain ⟨-, hleading⟩ := isDecimal_iff_toList.1 hwhole
  rw [Numeral.scanWhole, digits_append hwhole.toIsNumeral hrest]
  refine if_neg ?_
  rintro ⟨hhead, hne⟩
  obtain ⟨more, hmore⟩ := List.head?_eq_some_iff.1 hhead
  rw [hmore, hleading more hmore] at hne
  exact hne rfl

theorem exists_whole (h : Numeral.scanWhole cs = .ok (found, rest)) :
    ∃ whole : String, IsDecimal whole ∧ found = whole.toList ∧ cs = found ++ rest := by
  rw [Numeral.scanWhole] at h
  split at h
  · cases h
  · next digits behind hdigits =>
    split at h
    · cases h
    · next hleading =>
      cases h
      obtain ⟨whole, hnumeral, rfl, rfl⟩ := exists_digits hdigits
      refine ⟨whole, isDecimal_iff_toList.2 ⟨isNumeral_iff.1 hnumeral, ?_⟩, rfl, rfl⟩
      intro more hmore
      cases more with
      | nil => rfl
      | cons c more => exact absurd ⟨by rw [hmore]; rfl, by simp [hmore]⟩ hleading

/-- Behind a number, or before its power of ten, no point follows. -/
theorem scanFraction_append {fraction : Option String}
    (hfraction : ∀ digits, fraction = some digits → IsNumeral digits)
    (hrest : ∀ c ∈ rest.head?, c.isDigit = false ∧ c ≠ '.') :
    Numeral.scanFraction ((fraction.map fun digits => '.' :: digits.toList).getD [] ++ rest) =
      .ok ((fraction.map String.toList).getD [], rest) := by
  cases fraction with
  | none =>
    show Numeral.scanFraction rest = .ok ([], rest)
    rw [Numeral.scanFraction.eq_def]
    split
    · exact absurd rfl (hrest _ rfl).2
    · rfl
  | some digits => exact digits_append (hfraction digits rfl) fun c hc => (hrest c hc).1

theorem exists_fraction (h : Numeral.scanFraction cs = .ok (found, rest)) :
    ∃ fraction : Option String, (∀ digits, fraction = some digits → IsNumeral digits) ∧
      found = (fraction.map String.toList).getD [] ∧
      cs = (fraction.map fun digits => '.' :: digits.toList).getD [] ++ rest := by
  rw [Numeral.scanFraction.eq_def] at h
  split at h
  · obtain ⟨digits, hnumeral, rfl, rfl⟩ := exists_digits h
    refine ⟨some digits, fun _ heq => ?_, rfl, rfl⟩
    cases heq
    exact hnumeral
  · cases h
    refine ⟨none, fun _ heq => ?_, rfl, rfl⟩
    cases heq

/-- A sign is split off, and no digit is one. -/
theorem scanSign_append {sign : List Char} {digits : String}
    (hsign : sign = [] ∨ sign = ['+'] ∨ sign = ['-']) (hdigits : IsNumeral digits) :
    Numeral.scanSign (sign ++ (digits.toList ++ rest)) =
      (decide (sign = ['-']), digits.toList ++ rest) := by
  obtain ⟨hne, hall⟩ := isNumeral_iff.1 hdigits
  obtain ⟨c, more, hcons⟩ := List.exists_cons_of_ne_nil hne
  have hc : c.isDigit = true := hall c (hcons ▸ List.mem_cons_self)
  rcases hsign with rfl | rfl | rfl
  · rw [hcons, Numeral.scanSign.eq_def]
    split
    · next heq => cases heq; exact absurd hc (by decide)
    · next heq => cases heq; exact absurd hc (by decide)
    · rfl
  · rfl
  · rfl

theorem exists_sign (cs : List Char) :
    ∃ sign : List Char, (sign = [] ∨ sign = ['+'] ∨ sign = ['-']) ∧
      cs = sign ++ (Numeral.scanSign cs).2 ∧ (Numeral.scanSign cs).1 = decide (sign = ['-']) := by
  rw [Numeral.scanSign.eq_def]
  split
  · exact ⟨['-'], .inr (.inr rfl), rfl, rfl⟩
  · exact ⟨['+'], .inr (.inl rfl), rfl, rfl⟩
  · exact ⟨[], .inl rfl, rfl, rfl⟩

theorem scanExponent_append (power : Option Power) (hrest : Ends rest) :
    Numeral.scanExponent ((power.map Power.text).getD [] ++ rest) =
      .ok ((power.map Power.value).getD 0, rest) := by
  cases power with
  | none =>
    cases rest with
    | nil => rfl
    | cons c rest =>
      have hends := hrest c rfl
      simp only [goesOn, Bool.or_eq_false_iff, decide_eq_false_iff_not] at hends
      exact if_neg (not_or.2 ⟨hends.1.2, hends.2⟩)
  | some power =>
    have hsign : Numeral.scanSign (power.sign ++ (power.digits.toList ++ rest)) =
        (decide (power.sign = ['-']), power.digits.toList ++ rest) :=
      scanSign_append power.sign_eq power.isNumeral_digits
    have hdigits := digits_append power.isNumeral_digits hrest.isDigit_eq_false
    show Numeral.scanExponent (power.letter :: (power.sign ++ power.digits.toList ++ rest)) = _
    rw [List.append_assoc, Numeral.scanExponent, if_pos power.letter_eq, hsign]
    simp only [hdigits, decide_eq_true_eq]
    rfl

theorem exists_power {exponent : Int} (h : Numeral.scanExponent cs = .ok (exponent, rest)) :
    ∃ power : Option Power, exponent = (power.map Power.value).getD 0 ∧
      cs = (power.map Power.text).getD [] ++ rest := by
  rw [Numeral.scanExponent.eq_def] at h
  split at h
  · cases h
    exact ⟨none, rfl, rfl⟩
  · next c tail =>
    split at h
    · next hletter =>
      split at h
      · cases h
      · next digits behind hdigits =>
        cases h
        obtain ⟨sign, hsign, htail, hminus⟩ := exists_sign tail
        obtain ⟨number, hnumber, rfl, hbehind⟩ := exists_digits hdigits
        refine ⟨some ⟨c, sign, number, hletter, hsign, hnumber⟩, ?_, ?_⟩
        · simp only [hminus, decide_eq_true_eq]
          rfl
        · rw [hbehind] at htail
          rw [htail]
          simp [Power.text]
    · cases h
      exact ⟨none, rfl, rfl⟩

/-- What begins a power of ten is no digit and no point. -/
theorem head?_powerText (magnitude : Magnitude) (hrest : Ends rest) :
    ∀ c ∈ (magnitude.powerText ++ rest).head?, c.isDigit = false ∧ c ≠ '.' := by
  intro c hc
  cases hpower : magnitude.power with
  | none =>
    have hends := hrest c (by simpa [Magnitude.powerText, hpower] using hc)
    simp only [goesOn, Bool.or_eq_false_iff, decide_eq_false_iff_not] at hends
    exact hends.1.1
  | some power =>
    have hletter : power.letter = c := by
      simpa [Magnitude.powerText, hpower, Power.text] using hc
    rw [← hletter]
    rcases power.letter_eq with heq | heq <;> rw [heq] <;> decide

/-- What begins behind the digits before the point is no digit. -/
theorem head?_fractionText (magnitude : Magnitude) (hrest : Ends rest) :
    ∀ c ∈ (magnitude.fractionText ++ (magnitude.powerText ++ rest)).head?,
      c.isDigit = false := by
  intro c hc
  cases hfraction : magnitude.fraction with
  | none =>
    refine (head?_powerText magnitude hrest c ?_).1
    simpa [Magnitude.fractionText, hfraction] using hc
  | some digits =>
    have hpoint : '.' = c := by simpa [Magnitude.fractionText, hfraction] using hc
    rw [← hpoint]
    rfl

/-- **A number is scanned up to its end**, where the text does not go on with it. -/
theorem scan_magnitude (magnitude : Magnitude) (hrest : Ends rest) :
    Numeral.scan (magnitude.text ++ rest) = .ok (magnitude.numeral, rest) := by
  have hwhole := scanWhole_append magnitude.isDecimal_whole (head?_fractionText magnitude hrest)
  have hfraction :=
    scanFraction_append magnitude.isNumeral_fraction (head?_powerText magnitude hrest)
  have hpower := scanExponent_append magnitude.power hrest
  rw [Magnitude.text, List.append_assoc, List.append_assoc, Numeral.scan, hwhole]
  simp only [Magnitude.fractionText, hfraction]
  simp only [Magnitude.powerText, hpower]
  rfl

/-- What is scanned is a number. -/
theorem exists_magnitude {numeral : Numeral} (h : Numeral.scan cs = .ok (numeral, rest)) :
    ∃ magnitude : Magnitude, cs = magnitude.text ++ rest ∧ numeral = magnitude.numeral := by
  rw [Numeral.scan] at h
  split at h
  · cases h
  next hscan =>
  obtain ⟨whole, hwhole, rfl, rfl⟩ := exists_whole hscan
  split at h
  · cases h
  next hscan =>
  obtain ⟨fraction, hfraction, rfl, rfl⟩ := exists_fraction hscan
  split at h
  · cases h
  next hscan =>
  obtain ⟨power, rfl, rfl⟩ := exists_power hscan
  cases h
  refine ⟨⟨whole, fraction, power, hwhole, hfraction⟩, ?_, rfl⟩
  simp [Magnitude.text, Magnitude.fractionText, Magnitude.powerText]

end Numbers

end StagedQuery.Json
