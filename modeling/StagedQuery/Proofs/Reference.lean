/-
StagedQuery/Proofs/Reference.lean

How references to datasets are written.

A `Reference` is a way to write one: the number of a dataset, which may follow the
stem of an object and may be followed by a slash and the number of a version, with
blanks on either side.  The validator at hand reads exactly these texts, and of each
the number of its dataset:

    bareId? text = some id  ↔  ∃ r : Reference, r.text = text ∧ r.id = id.

Numbers are runs of ASCII digits and blanks are no digits, so a text is written in
one way only, as far as the number is concerned.

Main statement: `bareId?_reads_references`, with what it means for stored queries:
the ids in them are references again, to the datasets they are ids of.
-/
import StagedQuery.Proofs.Dataset
import StagedQuery.Proofs.Numeral
import StagedQuery.Proofs.WellFormed

namespace StagedQuery

namespace Dataset

/-! ### References -/

/-- A text of blanks only. -/
def IsBlanks (text : String) : Prop :=
  ∀ c ∈ text.toList, Text.isBlank c = true

instance : DecidablePred IsBlanks := fun text =>
  List.decidableBAll _ text.toList

/-- A reference, as it is written. -/
structure Reference where
  /-- The blanks at the start. -/
  before : String
  /-- What the number follows. -/
  stem : String
  /-- The number of the dataset. -/
  id : String
  /-- What follows the number. -/
  version : String
  /-- The blanks at the end. -/
  after : String
  isBlanks_before : IsBlanks before
  stem_eq : stem = "" ∨ stem = "o:::dataset:"
  isNumeral_id : IsNumeral id
  version_eq : version = "" ∨ ∃ number, version = "/" ++ number ∧ IsNumeral number
  isBlanks_after : IsBlanks after

/-- The text of a reference. -/
def Reference.text (r : Reference) : String :=
  r.before ++ r.stem ++ r.id ++ r.version ++ r.after

/-! ### Their parts -/

theorem isNumber_toList_iff {text : String} : isNumber text.toList = true ↔ IsNumeral text := by
  rw [isNumber_iff, isNumeral_iff]

namespace Reference

theorem isVersion_version (r : Reference) : isVersion r.version.toList = true := by
  rw [isVersion_iff]
  rcases r.version_eq with hversion | ⟨number, hversion, hnumber⟩
  · exact .inl (by rw [hversion, String.toList_empty])
  · exact .inr ⟨number.toList, by simp [hversion], isNumber_toList_iff.2 hnumber⟩

/-- What stands between the blanks has none in it. -/
theorem isBlank_eq_false (r : Reference) :
    ∀ c ∈ r.stem.toList ++ (r.id.toList ++ r.version.toList), Text.isBlank c = false := by
  have hid := isBlank_eq_false_of_isNumber (isNumber_toList_iff.2 r.isNumeral_id)
  have hstem : ∀ c ∈ r.stem.toList, Text.isBlank c = false := by
    have hall : "o:::dataset:".toList.all (fun c => !Text.isBlank c) = true := by decide
    intro c hc
    rcases r.stem_eq with hstem | hstem
    · rw [hstem] at hc
      cases hc
    · rw [hstem] at hc
      simpa using List.all_eq_true.1 hall c hc
  have hversion : ∀ c ∈ r.version.toList, Text.isBlank c = false := by
    rcases isVersion_iff.1 r.isVersion_version with hversion | ⟨number, hversion, hnumber⟩
    · rw [hversion]
      exact List.forall_mem_nil _
    · rw [hversion]
      exact List.forall_mem_cons.2 ⟨by decide, isBlank_eq_false_of_isNumber hnumber⟩
  intro c hc
  rcases List.mem_append.1 hc with hc | hc
  · exact hstem c hc
  · exact (List.mem_append.1 hc).elim (hid c) (hversion c)

/-- Between its blanks a reference has the number where a number is found. -/
theorem number?_trim_text (r : Reference) : number? (Text.trim r.text.toList) = some r.id.toList := by
  have htext : r.text.toList = r.before.toList ++
      ((r.stem.toList ++ (r.id.toList ++ r.version.toList)) ++ r.after.toList) := by
    simp [text]
  rw [htext, Text.trim_append r.isBlanks_before r.isBlank_eq_false r.isBlanks_after]
  refine number?_eq_some_iff.2 ⟨r.stem.toList, r.version.toList, rfl, ?_,
    isNumber_toList_iff.2 r.isNumeral_id, r.isVersion_version⟩
  rcases r.stem_eq with hstem | hstem
  · exact .inl (by rw [hstem, String.toList_empty])
  · exact .inr (by rw [hstem]; rfl)

theorem bareId?_text (r : Reference) : bareId? r.text = some r.id :=
  bareId?_eq_some_iff.2 r.number?_trim_text

end Reference

/-- Whatever has a bare id is a reference. -/
theorem exists_reference {text id : String} (h : bareId? text = some id) :
    ∃ r : Reference, r.text = text ∧ r.id = id := by
  obtain ⟨before, after, htext, hbefore, hafter⟩ := Text.exists_blanks text.toList
  obtain ⟨stem, version, htrim, hstem, hnumber, hversion⟩ :=
    number?_eq_some_iff.1 (bareId?_eq_some_iff.1 h)
  rw [htrim] at htext
  have hstem' : String.ofList stem = "" ∨ String.ofList stem = objectStem := by
    rcases hstem with rfl | rfl
    · exact .inl rfl
    · exact .inr String.ofList_toList
  refine ⟨⟨.ofList before, .ofList stem, id, .ofList version, .ofList after, ?_, hstem',
    isNumber_toList_iff.1 hnumber, ?_, ?_⟩, ?_, rfl⟩
  · rwa [IsBlanks, String.toList_ofList]
  · rcases isVersion_iff.1 hversion with rfl | ⟨number, rfl, hnumber⟩
    · exact .inl rfl
    · rw [← String.toList_ofList (l := number), isNumber_toList_iff] at hnumber
      exact .inr ⟨.ofList number, String.ofList_cons .., hnumber⟩
  · rwa [IsBlanks, String.toList_ofList]
  · rw [← String.toList_inj]
    simp [Reference.text, htext]

end Dataset

/-! ### Ids in stored queries -/

open Dataset

/-- A dataset that an expanded query refers to has an id that the validator gave. -/
theorem Surface.Query.Meaning.exists_reference {query : Surface.Query} {validate : Validator}
    {stored : Backend.Query} (hm : query.Meaning validate stored) {name id : String}
    (h : stored.Refers name (.dataset id)) : ∃ reference, validate reference = some id := by
  obtain ⟨input, hinput, rfl, htarget⟩ := h
  obtain ⟨position, expanded, hexpanded, hmem⟩ := mem_allInputs.1 hinput
  have hbound := Surface.Query.mem_visible_dataset.1
    (hm.mem_visible_of_refersTo hexpanded hmem htarget)
  obtain ⟨_, reference, _, -, hid, heq⟩ := Inputs.mem_bound.1 hbound
  cases heq
  exact ⟨reference, hid⟩

/-- **Bare ids are read off references**, exactly, and off each of them one; a bare id
is a reference itself, to its own dataset, and so are all ids of datasets in a stored
query that was expanded. -/
theorem bareId?_reads_references :
    (∀ text id, bareId? text = some id ↔ ∃ r : Reference, r.text = text ∧ r.id = id) ∧
      (∀ r other : Reference, r.text = other.text → r.id = other.id) ∧
      (∀ text id, bareId? text = some id → bareId? id = some id ∧ Text.allBlank id = false) ∧
      ∀ (query : Surface.Query) (stored : Backend.Query), query.expand = .ok stored →
        ∀ name id, stored.Refers name (.dataset id) →
          bareId? id = some id ∧ Text.allBlank id = false := by
  refine ⟨fun text id => ⟨exists_reference, ?_⟩, fun r other hsame => ?_, steady_bareId?, ?_⟩
  · rintro ⟨r, rfl, rfl⟩
    exact r.bareId?_text
  · have hid := r.bareId?_text
    rw [hsame, other.bareId?_text] at hid
    exact (Option.some.inj hid).symm
  · intro query stored hexpand name id hrefers
    obtain ⟨reference, hid⟩ :=
      (Surface.Query.meaning_of_expandWith hexpand).exists_reference hrefers
    exact steady_bareId? reference id hid

/-- A reference to a version, with blanks around it, and its bare id in a stored query. -/
theorem versioned_bareId? :
    bareId? " o:::dataset:41/2\t" = some "41" ∧ bareId? "41" = some "41" ∧
      joined.expand = .ok joinedStored ∧ joinedStored.Refers "in" (.dataset "41") := by
  obtain ⟨hread, -, hsteady, hstored⟩ := bareId?_reads_references
  have hversion : "/2" = "" ∨ ∃ number, "/2" = "/" ++ number ∧ IsNumeral number :=
    .inr ⟨"2", rfl, isNumber_toList_iff.1 (by decide)⟩
  have hversioned : bareId? " o:::dataset:41/2\t" = some "41" :=
    (hread _ _).2 ⟨⟨" ", objectStem, "41", "/2", "\t", by decide, .inr rfl,
      isNumber_toList_iff.1 (by decide), hversion, by decide⟩, rfl, rfl⟩
  have hrefers : joinedStored.Refers "in" (.dataset "41") :=
    ⟨.dataset "in" "41", by decide, rfl, rfl⟩
  exact ⟨hversioned, (hstored _ _ expand_joined _ _ hrefers).1, expand_joined, hrefers⟩

end StagedQuery
