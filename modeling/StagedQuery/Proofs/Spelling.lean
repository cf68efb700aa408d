/-
StagedQuery/Proofs/Spelling.lean

Tokens as they are spelled, and texts as spellings with blanks between them.

A `Spelling` is a token together with one of the ways to spell it.  A text is a
sequence of spellings `Spaced` by blanks: any of them before a spelling and behind the
last.  Its tokens are then those that are spelled,

    tokens text = spellings.map Spelling.token,

wherever the blanks stand, as long as no two numbers are next to each other, since
these would run together.  And every text without a broken token is made that way, so
nothing else can stand between tokens.

Main statements: `tokens_of_spaced` and `exists_spaced`.
-/
import StagedQuery.Json.Token
import StagedQuery.Proofs.Literal

namespace StagedQuery.Json

/-! ### Spellings -/

/-- A token, as it is spelled. -/
inductive Spelling where
  /-- `[` -/
  | openList
  /-- `]` -/
  | closeList
  /-- `{` -/
  | openRecord
  /-- `}` -/
  | closeRecord
  /-- `,` -/
  | comma
  /-- `:` -/
  | colon
  /-- The empty value. -/
  | null
  /-- A truth value. -/
  | bool (value : Bool)
  /-- A number, and whether a minus stands before it. -/
  | number (negative : Bool) (magnitude : Magnitude)
  /-- A string. -/
  | string (glyphs : List Glyph)

namespace Spelling

/-- The text it is spelled as. -/
def text : Spelling → List Char
  | openList => ['[']
  | closeList => [']']
  | openRecord => ['{']
  | closeRecord => ['}']
  | comma => [',']
  | colon => [':']
  | null => ['n', 'u', 'l', 'l']
  | bool true => ['t', 'r', 'u', 'e']
  | bool false => ['f', 'a', 'l', 's', 'e']
  | number true magnitude => '-' :: magnitude.text
  | number false magnitude => magnitude.text
  | string glyphs => '"' :: (glyphs.flatMap Glyph.text ++ ['"'])

/-- The token that is spelled. -/
def token : Spelling → Token
  | openList => .openList
  | closeList => .closeList
  | openRecord => .openRecord
  | closeRecord => .closeRecord
  | comma => .comma
  | colon => .colon
  | null => .null
  | bool value => .bool value
  | number _ magnitude => .num magnitude.numeral.inRange
  | string glyphs => .str (valueOf? glyphs)

/-- Whether it is that of a number. -/
def isNumber : Spelling → Bool
  | number .. => true
  | _ => false

end Spelling

/-- Whether a token is one in which the text breaks. -/
def Token.isBroken : Token → Bool
  | .brokenStr _ => true
  | .broken _ => true
  | _ => false

/-! ### One token -/

section Single

variable {c : Char} {cs rest : List Char} {token : Token}

/-- A number begins with a digit. -/
theorem exists_digit (magnitude : Magnitude) :
    ∃ c more, magnitude.text = c :: more ∧ c.isDigit = true := by
  obtain ⟨⟨hne, hdigits⟩, -⟩ := isDecimal_iff_toList.1 magnitude.isDecimal_whole
  obtain ⟨c, more, hcons⟩ := List.exists_cons_of_ne_nil hne
  refine ⟨c, more ++ (magnitude.fractionText ++ magnitude.powerText), ?_,
    hdigits c (hcons ▸ List.mem_cons_self)⟩
  rw [Magnitude.text, hcons, List.cons_append]

theorem number_append (magnitude : Magnitude) (hrest : Ends rest) :
    Token.number (magnitude.text ++ rest) = (.num magnitude.numeral.inRange, some rest) := by
  rw [Token.number, scan_magnitude magnitude hrest]

/-- A digit begins a number and nothing else, and is no blank. -/
theorem first_of_isDigit (h : c.isDigit = true) (cs : List Char) :
    isSpace c = false ∧ Token.first c cs = Token.number (c :: cs) := by
  have hne : ∀ other : Char, other.isDigit = false → c ≠ other := by
    rintro other hother rfl
    rw [h] at hother
    cases hother
  constructor
  · simp [isSpace, hne ' ' rfl, hne '\t' rfl, hne '\n' rfl, hne '\r' rfl]
  · rw [Token.first.eq_def]
    split
    case h_12 => rw [if_pos h]
    all_goals exact absurd h (by decide)

/-- What is spelled is read as the token, and nothing of what follows with it. -/
theorem tokens_spelling (spelling : Spelling) (hends : spelling.isNumber = true → Ends rest) :
    tokens (spelling.text ++ rest) = spelling.token :: tokens rest := by
  cases spelling with
  | number negative magnitude =>
    have hnumber := number_append magnitude (hends rfl)
    cases negative with
    | true => exact tokens_of_first rfl hnumber
    | false =>
      obtain ⟨c, more, htext, hdigit⟩ := exists_digit magnitude
      obtain ⟨hspace, hfirst⟩ := first_of_isDigit hdigit (more ++ rest)
      rw [htext, List.cons_append, ← hfirst] at hnumber
      rw [Spelling.text, htext, List.cons_append]
      exact tokens_of_first hspace hnumber
  | string glyphs =>
    have hscan := scan_glyphs glyphs rest
    rw [Spelling.text, List.cons_append, List.append_assoc, List.singleton_append]
    refine tokens_of_first rfl ?_
    show Token.string _ = _
    rw [Token.string, hscan]
    rfl
  | bool value => cases value <;> exact tokens_of_first rfl rfl
  | _ => exact tokens_of_first rfl rfl

theorem eq_append_of_word {found : Token} {expected : List Char}
    (h : Token.word token expected cs = (found, some rest)) :
    token = found ∧ cs = expected ++ rest := by
  fun_induction Token.word token expected cs with
  | case1 => cases h; exact ⟨rfl, rfl⟩
  | case2 => cases h
  | case3 expected e cs ih =>
    obtain ⟨rfl, rfl⟩ := ih h
    exact ⟨rfl, rfl⟩
  | case4 => cases h

theorem exists_number (h : Token.number cs = (token, some rest)) :
    ∃ magnitude : Magnitude, cs = magnitude.text ++ rest ∧
      token = .num magnitude.numeral.inRange := by
  rw [Token.number] at h
  split at h
  · next hscan =>
    cases h
    obtain ⟨magnitude, rfl, rfl⟩ := exists_magnitude hscan
    exact ⟨magnitude, rfl, rfl⟩
  · cases h

theorem exists_string (h : Token.string cs = (token, some rest)) :
    ∃ glyphs : List Glyph, cs = glyphs.flatMap Glyph.text ++ '"' :: rest ∧
      token = .str (valueOf? glyphs) := by
  rw [Token.string] at h
  split at h
  · next hclose =>
    cases h
    obtain ⟨glyphs, hcs, hpieces⟩ := exists_glyphs hclose
    exact ⟨glyphs, hcs, by rw [hpieces]; rfl⟩
  · cases h

/-- Whatever is read as a token that is not broken is spelled. -/
theorem exists_spelling (h : Token.first c cs = (token, some rest)) :
    ∃ spelling : Spelling, c :: cs = spelling.text ++ rest ∧ spelling.token = token := by
  rw [Token.first.eq_def] at h
  split at h
  · cases h; exact ⟨.openList, rfl, rfl⟩
  · cases h; exact ⟨.closeList, rfl, rfl⟩
  · cases h; exact ⟨.openRecord, rfl, rfl⟩
  · cases h; exact ⟨.closeRecord, rfl, rfl⟩
  · cases h; exact ⟨.comma, rfl, rfl⟩
  · cases h; exact ⟨.colon, rfl, rfl⟩
  · obtain ⟨glyphs, rfl, rfl⟩ := exists_string h
    exact ⟨.string glyphs, by simp [Spelling.text], rfl⟩
  · obtain ⟨rfl, rfl⟩ := eq_append_of_word h
    exact ⟨.null, rfl, rfl⟩
  · obtain ⟨rfl, rfl⟩ := eq_append_of_word h
    exact ⟨.bool true, rfl, rfl⟩
  · obtain ⟨rfl, rfl⟩ := eq_append_of_word h
    exact ⟨.bool false, rfl, rfl⟩
  · obtain ⟨magnitude, rfl, rfl⟩ := exists_number h
    exact ⟨.number true magnitude, rfl, rfl⟩
  · split at h
    · obtain ⟨magnitude, hcs, rfl⟩ := exists_number h
      exact ⟨.number false magnitude, hcs, rfl⟩
    · cases h

theorem word_broken {expected : List Char} (h : (Token.word token expected cs).2 = none) :
    (Token.word token expected cs).1.isBroken = true := by
  fun_induction Token.word token expected cs with
  | case1 => cases h
  | case2 => rfl
  | case3 expected e cs ih => exact ih h
  | case4 => rfl

/-- A token behind which no text is left to read is a broken one. -/
theorem isBroken_first (h : (Token.first c cs).2 = none) :
    (Token.first c cs).1.isBroken = true := by
  have hnumber : ∀ cs, (Token.number cs).2 = none → (Token.number cs).1.isBroken = true := by
    intro cs h
    rw [Token.number] at h ⊢
    split at h
    · cases h
    · rfl
  rw [Token.first.eq_def] at h ⊢
  split at h
  case h_7 =>
    rw [Token.string] at h ⊢
    split at h
    · cases h
    · rfl
  case h_8 => exact word_broken h
  case h_9 => exact word_broken h
  case h_10 => exact word_broken h
  case h_11 => exact hnumber _ h
  case h_12 =>
    split at h
    · next hdigit => rw [if_pos hdigit]; exact hnumber _ h
    · next hdigit => rw [if_neg hdigit]; rfl
  all_goals cases h

end Single

/-! ### All tokens -/

/-- Blanks, as they may stand between tokens. -/
def IsSpaces (cs : List Char) : Prop :=
  ∀ c ∈ cs, isSpace c = true

instance : DecidablePred IsSpaces :=
  List.decidableBAll _

/-- A text that spells tokens one after the other, with blanks between them. -/
inductive Spaced : List Spelling → List Char → Prop
  | done {blanks : List Char} (hblanks : IsSpaces blanks) : Spaced [] blanks
  | spelling {blanks behind : List Char} {spelling : Spelling} {spellings : List Spelling}
      (hblanks : IsSpaces blanks) (hbehind : Spaced spellings behind) :
      Spaced (spelling :: spellings) (blanks ++ (spelling.text ++ behind))

/-- No two numbers are next to each other. -/
def Apart : List Spelling → Prop
  | [] => True
  | spelling :: behind =>
    (spelling.isNumber = true → ∀ next ∈ behind.head?, next.isNumber = false) ∧ Apart behind

/-- Blanks are no tokens. -/
theorem tokens_blanks {blanks : List Char} (h : IsSpaces blanks) (rest : List Char) :
    tokens (blanks ++ rest) = tokens rest := by
  induction blanks with
  | nil => rfl
  | cons c blanks ih =>
    obtain ⟨hc, hblanks⟩ := List.forall_mem_cons.1 h
    rw [List.cons_append, tokens_space hc, ih hblanks]

section Texts

variable {cs : List Char} {spelling : Spelling} {spellings : List Spelling}

/-- No blank goes on with a number, and no token but another number does. -/
theorem Spaced.ends (h : Spaced spellings cs)
    (hnext : ∀ next ∈ spellings.head?, next.isNumber = false) : Ends cs := by
  have hspace : ∀ c, isSpace c = true → goesOn c = false := by
    intro c hc
    simp only [isSpace, Bool.or_eq_true, decide_eq_true_eq] at hc
    rcases hc with ((rfl | rfl) | rfl) | rfl <;> rfl
  cases h with
  | done hblanks => exact fun c hc => hspace c (hblanks c (List.mem_of_mem_head? hc))
  | @spelling blanks behind spelling spellings hblanks hbehind =>
    cases blanks with
    | cons blank blanks =>
      intro c hc
      cases hc
      exact hspace blank (hblanks blank List.mem_cons_self)
    | nil =>
      have hnumber := hnext spelling rfl
      intro c hc
      cases spelling with
      | number => cases hnumber
      | bool value => cases value <;> cases hc <;> rfl
      | _ => cases hc; rfl

/-- **A text has the tokens that are spelled in it**, wherever its blanks stand. -/
theorem tokens_of_spaced (h : Spaced spellings cs) (hapart : Apart spellings) :
    tokens cs = spellings.map Spelling.token := by
  induction h with
  | done hblanks =>
    have hread := tokens_blanks hblanks []
    rw [List.append_nil] at hread
    rw [hread, tokens]
    rfl
  | spelling hblanks hbehind ih =>
    obtain ⟨hnumber, hrest⟩ := hapart
    rw [tokens_blanks hblanks, tokens_spelling _ fun h => hbehind.ends (hnumber h), ih hrest,
      List.map_cons]

theorem Spaced.blank {c : Char} (hc : isSpace c = true) (h : Spaced spellings cs) :
    Spaced spellings (c :: cs) := by
  cases h with
  | done hblanks => exact .done (List.forall_mem_cons.2 ⟨hc, hblanks⟩)
  | spelling hblanks hbehind =>
    exact @Spaced.spelling (c :: _) _ _ _ (List.forall_mem_cons.2 ⟨hc, hblanks⟩) hbehind

/-- Tokens can be spelled without any blanks. -/
theorem spaced_flatMap : ∀ spellings : List Spelling,
    Spaced spellings (spellings.flatMap Spelling.text)
  | [] => .done (List.forall_mem_nil _)
  | _ :: rest => @Spaced.spelling [] _ _ _ (List.forall_mem_nil _) (spaced_flatMap rest)

/-- **A text without a broken token spells its tokens.** -/
theorem exists_spaced (h : ∀ token ∈ tokens cs, token.isBroken = false) :
    ∃ spellings, Spaced spellings cs ∧ tokens cs = spellings.map Spelling.token := by
  fun_induction tokens cs with
  | case1 => exact ⟨[], .done (List.forall_mem_nil _), rfl⟩
  | case2 c rest hspace ih =>
    obtain ⟨spellings, hspaced, htokens⟩ := ih h
    exact ⟨spellings, hspaced.blank hspace, htokens⟩
  | case3 c rest hspace token hfirst =>
    have hbroken := isBroken_first (congrArg Prod.snd hfirst)
    rw [hfirst, h token List.mem_cons_self] at hbroken
    cases hbroken
  | case4 c rest hspace token behind hfirst ih =>
    obtain ⟨spelling, htext, rfl⟩ := exists_spelling hfirst
    obtain ⟨spellings, hspaced, htokens⟩ := ih fun token hmem =>
      h token (List.mem_cons_of_mem _ hmem)
    refine ⟨spelling :: spellings, ?_, by rw [htokens, List.map_cons]⟩
    rw [htext]
    exact @Spaced.spelling [] _ _ _ (List.forall_mem_nil _) hspaced

end Texts

end StagedQuery.Json
