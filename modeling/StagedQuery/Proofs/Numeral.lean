/-
StagedQuery/Proofs/Numeral.lean

Numbers as texts.

A numeral is a run of ASCII digits; it is in decimal form where it does not begin
with a zero that says nothing.  Decimal form is what numbers are written in, and
only that: writing is undone by adding up the digits, and adding up is undone by
writing where there is no leading zero, since behind a number that is not zero

    toDigits (10 * n + d) = toDigits n ++ toDigits d

lets the digits that follow be taken off one by one.

Main statement: `isDecimal_iff`, a text is in decimal form where it is what its value
is written as.
-/
namespace StagedQuery

/-! ### Numerals -/

/-- A text that is a number: at least one digit, and no other characters. -/
structure IsNumeral (text : String) : Prop where
  /-- There is a digit. -/
  nonempty : text ≠ ""
  /-- There are only digits. -/
  digit : ∀ c ∈ text.toList, '0' ≤ c ∧ c ≤ '9'

/-- A numeral without leading zeros; zero itself is the one that begins with one. -/
structure IsDecimal (text : String) : Prop extends IsNumeral text where
  /-- Nothing follows a zero at the start. -/
  leading : ∀ rest, text = "0" ++ rest → rest = ""

/-- The number that digits add up to. -/
def numeralValue (text : String) : Nat :=
  Nat.ofDigitChars 10 text.toList 0

theorem isNumeral_iff {text : String} :
    IsNumeral text ↔ text.toList ≠ [] ∧ ∀ c ∈ text.toList, c.isDigit = true := by
  have hdigit : ∀ c : Char, c.isDigit = true ↔ '0' ≤ c ∧ c ≤ '9' := by
    intro c
    rw [Char.isDigit, Bool.and_eq_true, decide_eq_true_eq, decide_eq_true_eq]
    rfl
  have hempty : text = "" ↔ text.toList = [] := by rw [← String.toList_inj, String.toList_empty]
  constructor
  · intro h
    exact ⟨fun heq => h.nonempty (hempty.2 heq), fun c hc => (hdigit c).2 (h.digit c hc)⟩
  · rintro ⟨hne, hdigits⟩
    exact ⟨fun heq => hne (hempty.1 heq), fun c hc => (hdigit c).1 (hdigits c hc)⟩

/-- A text in decimal form, by its characters. -/
theorem isDecimal_iff_toList {text : String} :
    IsDecimal text ↔ (text.toList ≠ [] ∧ ∀ c ∈ text.toList, c.isDigit = true) ∧
      ∀ rest, text.toList = '0' :: rest → rest = [] := by
  constructor
  · intro h
    refine ⟨isNumeral_iff.1 h.toIsNumeral, fun rest hrest => ?_⟩
    have htext : text = "0" ++ String.ofList rest := by
      rw [← String.toList_inj, hrest]
      simp
    simpa using h.leading _ htext
  · rintro ⟨hnumeral, hleading⟩
    refine ⟨isNumeral_iff.2 hnumeral, fun rest hrest => ?_⟩
    have hlist : text.toList = '0' :: rest.toList := by simp [hrest]
    simpa using hleading _ hlist

/-! ### Digits -/

section Digits

variable {c : Char} {cs rest : List Char} {n : Nat}

theorem exists_digitChar (h : c.isDigit = true) : ∃ d < 10, c = Nat.digitChar d := by
  simp only [Char.isDigit, Bool.and_eq_true, decide_eq_true_eq] at h
  have hlow : 48 ≤ c.toNat := h.1
  have hhigh : c.toNat ≤ 57 := h.2
  refine ⟨c.toNat - 48, by omega, Char.toNat_inj.1 ?_⟩
  rw [Nat.toNat_digitChar_of_lt_ten (by omega)]
  omega

/-- More digits only make a number larger. -/
theorem le_ofDigitChars (cs : List Char) (n : Nat) : n ≤ Nat.ofDigitChars 10 cs n := by
  induction cs generalizing n with
  | nil => simp
  | cons c rest ih =>
    rw [Nat.ofDigitChars_cons]
    refine Nat.le_trans ?_ (ih _)
    omega

/-- Digits behind a number that is not zero stay as they are. -/
theorem toDigits_ofDigitChars (hdigits : ∀ c ∈ cs, c.isDigit = true) (hpos : 0 < n) :
    Nat.toDigits 10 (Nat.ofDigitChars 10 cs n) = Nat.toDigits 10 n ++ cs := by
  induction cs generalizing n with
  | nil => simp
  | cons c rest ih =>
    obtain ⟨hc, hrest⟩ := List.forall_mem_cons.1 hdigits
    obtain ⟨d, hd, rfl⟩ := exists_digitChar hc
    rw [Nat.ofDigitChars_cons_digitChar_of_lt_ten hd, ih hrest (by omega),
      ← Nat.toDigits_append_toDigits (by decide) hpos hd, Nat.toDigits_of_lt_base hd,
      List.append_assoc, List.singleton_append]

/-- No number is written with a leading zero but zero. -/
theorem eq_nil_of_toDigits_eq (h : Nat.toDigits 10 n = '0' :: rest) : rest = [] := by
  induction n using Nat.base_induction 10 (by decide) generalizing rest with
  | single m hm =>
    rw [Nat.toDigits_of_lt_base hm] at h
    exact (List.cons.inj h).2.symm
  | digit m k hk hm ih =>
    rw [← Nat.toDigits_append_toDigits (by decide) hm hk] at h
    -- the first digit is that of the number without its last one, which is not zero
    obtain ⟨first, more, hfirst⟩ := List.exists_cons_of_ne_nil (Nat.toDigits_ne_nil (n := m) (b := 10))
    rw [hfirst, List.cons_append, List.cons.injEq] at h
    obtain ⟨rfl, -⟩ := h
    have hzero : Nat.toDigits 10 m = Nat.toDigits 10 0 := by
      rw [hfirst, ih hfirst, Nat.toDigits_zero]
    have hm' := congrArg (fun digits => Nat.ofDigitChars 10 digits 0) hzero
    simp only [Nat.ofDigitChars_ten_toDigits] at hm'
    omega

end Digits

/-! ### Decimal form -/

/-- **Decimal form is what numbers are written in.** -/
theorem isDecimal_iff {text : String} :
    IsDecimal text ↔ text.toList = Nat.toDigits 10 (numeralValue text) := by
  rw [isDecimal_iff_toList]
  constructor
  · rintro ⟨⟨hne, hdigits⟩, hleading⟩
    obtain ⟨c, rest, htext⟩ := List.exists_cons_of_ne_nil hne
    rw [htext] at hdigits
    obtain ⟨hc, hrest⟩ := List.forall_mem_cons.1 hdigits
    obtain ⟨d, hd, rfl⟩ := exists_digitChar hc
    rw [numeralValue, htext, Nat.ofDigitChars_cons_digitChar_of_lt_ten hd, Nat.mul_zero,
      Nat.zero_add]
    rcases Nat.eq_zero_or_pos d with rfl | hpos
    · rw [hleading rest htext]
      rfl
    · rw [toDigits_ofDigitChars hrest hpos, Nat.toDigits_of_lt_base hd, List.singleton_append]
  · intro htext
    rw [htext]
    refine ⟨⟨Nat.toDigits_ne_nil, fun c hc => ?_⟩, fun rest => eq_nil_of_toDigits_eq⟩
    exact Nat.isDigit_of_mem_toDigits (by decide) (by decide) hc

end StagedQuery
