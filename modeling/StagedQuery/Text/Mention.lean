/-
StagedQuery/Text/Mention.lean

Which names a pipeline body mentions.  A body is opaque text: a name is
mentioned when the sigil `@` stands directly before it somewhere in the body.
Nothing is parsed, so a mention inside a quoted text or a comment counts, and
`@ab` mentions `a` as well as `ab`.

`occurs_iff` ties the search to the list relation it decides, `mentions_iff` a
mention to the text around it; `mentions_of_append`, a mention of a name is one of
all that the name begins with.
-/

namespace StagedQuery.Text

/-! ### Search for a word -/

/-- Whether `word` stands somewhere in the text. -/
def occurs (word : List Char) : List Char → Bool
  | [] => word.isEmpty
  | c :: rest => word.isPrefixOf (c :: rest) || occurs word rest

/-- A word occurs exactly where the text splits around it. -/
theorem occurs_iff {word text : List Char} :
    occurs word text = true ↔ ∃ before after, text = before ++ word ++ after := by
  induction text with
  | nil => simp [occurs]
  | cons c rest ih =>
    rw [occurs, Bool.or_eq_true, List.isPrefixOf_iff_prefix, ih]
    constructor
    · rintro (⟨after, h⟩ | ⟨before, after, h⟩)
      · exact ⟨[], after, by simpa using h.symm⟩
      · exact ⟨c :: before, after, by simp [h]⟩
    · rintro ⟨before, after, h⟩
      cases before with
      | nil => exact .inl ⟨after, by simpa using h.symm⟩
      | cons b before =>
        -- the split lies strictly inside the rest
        simp only [List.cons_append, List.cons.injEq] at h
        exact .inr ⟨before, after, by simpa using h.2⟩

/-! ### Mentions -/

/-- The character that marks a mention. -/
def sigil : Char := '@'

/-- Whether `body` mentions `name`. -/
def mentions (body name : String) : Bool :=
  occurs (sigil :: name.toList) body.toList

/-- A name is mentioned exactly where the body splits around the sigil and it. -/
theorem mentions_iff {body name : String} :
    mentions body name = true ↔ ∃ before after, body = before ++ "@" ++ name ++ after := by
  rw [mentions, occurs_iff]
  constructor
  · rintro ⟨before, after, h⟩
    refine ⟨String.ofList before, String.ofList after, String.toList_inj.1 ?_⟩
    simpa [sigil] using h
  · rintro ⟨before, after, rfl⟩
    exact ⟨before.toList, after.toList, by simp [sigil]⟩

/-- The empty name is mentioned by every sigil. -/
theorem mentions_empty_iff {body : String} : mentions body "" = true ↔ sigil ∈ body.toList := by
  rw [mentions, occurs_iff, List.mem_iff_append]
  simp

/-- A mention of a name is a mention of all that the name begins with. -/
theorem mentions_of_append {body name rest : String} (h : mentions body (name ++ rest) = true) :
    mentions body name = true := by
  obtain ⟨before, after, rfl⟩ := mentions_iff.1 h
  exact mentions_iff.2 ⟨before, rest ++ after, by simp [String.append_assoc]⟩

/-- The candidates that `body` mentions, in the order and multiplicity given.
The empty name is never a candidate: a lone sigil mentions nothing. -/
def mentioned (body : String) (candidates : List String) : List String :=
  candidates.filter fun name => !name.isEmpty && mentions body name

theorem mem_mentioned {body name : String} {candidates : List String} :
    name ∈ mentioned body candidates ↔
      name ∈ candidates ∧ name ≠ "" ∧ mentions body name = true := by
  simp [mentioned]

end StagedQuery.Text
