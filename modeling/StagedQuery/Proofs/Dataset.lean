/-
StagedQuery/Proofs/Dataset.lean

Which references are to datasets, and that a bare id stands for itself.

A reference is read by dropping the blanks at its ends, then an optional stem, and
by splitting what is left behind its leading digits.  Each of these steps is undone
by writing: blanks are what may stand at the ends (`Text.trim_append`), and the
digits end where a version begins or nothing follows.  So a number is found exactly
where the text is a stem, the number and a version (`number?_eq_some_iff`).

The backend carries bare ids, and a condensed query declares them as references, so
expanding it again asks the validator about ids it gave out before.  A validator is
*steady* when this makes no difference; the one at hand is (`steady_bareId?`).
-/
import Mathlib.Data.List.TakeWhile
import StagedQuery.Dataset

namespace StagedQuery

/-- The ids a validator gives are accepted as they are, and none is blank. -/
def Validator.Steady (validate : Validator) : Prop :=
  ∀ reference id, validate reference = some id →
    validate id = some id ∧ Text.allBlank id = false

/-! ### Blanks at the ends -/

namespace Text

variable {before cs after : List Char}

/-- Where the first character is not blank, dropping blanks drops nothing. -/
theorem dropWhile_isBlank_eq_self (h : ∀ c ∈ cs, isBlank c = false) :
    cs.dropWhile isBlank = cs := by
  cases cs with
  | nil => rfl
  | cons c rest => exact List.dropWhile_cons_of_neg (by simp [h c List.mem_cons_self])

theorem trimEnd_append (hcs : ∀ c ∈ cs, isBlank c = false)
    (hafter : ∀ c ∈ after, isBlank c = true) : trimEnd (cs ++ after) = cs := by
  have hreverse : ∀ c ∈ cs.reverse, isBlank c = false := fun c hc => hcs c (List.mem_reverse.1 hc)
  have hblank : ∀ c ∈ after.reverse, isBlank c = true :=
    fun c hc => hafter c (List.mem_reverse.1 hc)
  rw [trimEnd, List.reverse_append, List.dropWhile_append_of_pos hblank,
    dropWhile_isBlank_eq_self hreverse, List.reverse_reverse]

/-- Blanks at the ends are dropped from what has none. -/
theorem trim_append (hbefore : ∀ c ∈ before, isBlank c = true)
    (hcs : ∀ c ∈ cs, isBlank c = false) (hafter : ∀ c ∈ after, isBlank c = true) :
    trim (before ++ (cs ++ after)) = cs := by
  rw [trim, List.dropWhile_append_of_pos hbefore]
  cases cs with
  | nil =>
    have hdrop : after.dropWhile isBlank = [] := List.dropWhile_eq_nil_iff.2 hafter
    rw [List.nil_append, hdrop]
    rfl
  | cons c rest =>
    have hc : ¬ isBlank c = true := by simp [hcs c List.mem_cons_self]
    rw [List.cons_append, List.dropWhile_cons_of_neg hc, ← List.cons_append]
    exact trimEnd_append hcs hafter

theorem trim_eq_self (h : ∀ c ∈ cs, isBlank c = false) : trim cs = cs := by
  have htrim : trim ([] ++ (cs ++ [])) = cs :=
    trim_append (List.forall_mem_nil _) h (List.forall_mem_nil _)
  rwa [List.nil_append, List.append_nil] at htrim

/-- Nothing but blanks is dropped. -/
theorem exists_blanks (cs : List Char) :
    ∃ before after, cs = before ++ (trim cs ++ after) ∧
      (∀ c ∈ before, isBlank c = true) ∧ ∀ c ∈ after, isBlank c = true := by
  have hends : cs.dropWhile isBlank =
      trim cs ++ ((cs.dropWhile isBlank).reverse.takeWhile isBlank).reverse := by
    rw [trim, trimEnd, ← List.reverse_append, List.takeWhile_append_dropWhile,
      List.reverse_reverse]
  refine ⟨cs.takeWhile isBlank, ((cs.dropWhile isBlank).reverse.takeWhile isBlank).reverse,
    ?_, fun c hc => List.mem_takeWhile_imp hc, fun c hc => ?_⟩
  · rw [← hends, List.takeWhile_append_dropWhile]
  · exact List.mem_takeWhile_imp (List.mem_reverse.1 hc)

end Text

/-! ### Numbers -/

namespace Dataset

variable {digits version : List Char}

theorem isNumber_iff : isNumber digits = true ↔ digits ≠ [] ∧ ∀ c ∈ digits, c.isDigit = true := by
  simp [isNumber]

theorem isVersion_iff :
    isVersion version = true ↔
      version = [] ∨ ∃ number, version = '/' :: number ∧ isNumber number = true := by
  cases version with
  | nil => simp [isVersion]
  | cons c number =>
    simp only [isVersion, Bool.and_eq_true, decide_eq_true_eq, reduceCtorEq, false_or,
      List.cons.injEq]
    constructor
    · rintro ⟨hslash, hnumber⟩
      exact ⟨number, ⟨hslash, rfl⟩, hnumber⟩
    · rintro ⟨_, ⟨hslash, rfl⟩, hnumber⟩
      exact ⟨hslash, hnumber⟩

theorem isBlank_eq_false_of_isNumber (h : isNumber digits = true) :
    ∀ c ∈ digits, Text.isBlank c = false :=
  fun c hc => Text.isBlank_eq_false_of_isDigit ((isNumber_iff.1 h).2 c hc)

/-- What begins with a number does not begin with the stem of an object. -/
theorem behind?_objectStem_eq_none (h : isNumber digits = true) (rest : List Char) :
    Text.behind? objectStem.toList (digits ++ rest) = none := by
  obtain ⟨hne, hdigits⟩ := isNumber_iff.1 h
  obtain ⟨c, more, rfl⟩ := List.exists_cons_of_ne_nil hne
  have hc : c.isDigit = true := hdigits c List.mem_cons_self
  have hstem : 'o' ≠ c := by
    rintro rfl
    exact absurd hc (by decide)
  show Text.behind? ('o' :: ":::dataset:".toList) (c :: (more ++ rest)) = none
  rw [Text.behind?, if_neg hstem]

/-- A number ends where a version begins. -/
theorem span_number (hnumber : isNumber digits = true) (hversion : isVersion version = true) :
    (digits ++ version).takeWhile Char.isDigit = digits ∧
      (digits ++ version).dropWhile Char.isDigit = version := by
  have hdigits := (isNumber_iff.1 hnumber).2
  rw [List.takeWhile_append_of_pos hdigits, List.dropWhile_append_of_pos hdigits]
  rcases isVersion_iff.1 hversion with rfl | ⟨number, rfl, -⟩
  · simp
  · have hslash : ¬ Char.isDigit '/' = true := by decide
    rw [List.takeWhile_cons_of_neg hslash, List.dropWhile_cons_of_neg hslash, List.append_nil]
    exact ⟨rfl, rfl⟩

/-- **A number is found where it is written**: behind the stem of an object or at the
start, and before a version or the end. -/
theorem number?_eq_some_iff {text : List Char} :
    number? text = some digits ↔
      ∃ stem version, text = stem ++ (digits ++ version) ∧
        (stem = [] ∨ stem = objectStem.toList) ∧
        isNumber digits = true ∧ isVersion version = true := by
  constructor
  · intro h
    simp only [number?] at h
    obtain ⟨hnumber, hdigits⟩ := Option.ite_none_right_eq_some.1 h
    obtain ⟨hnumber, hversion⟩ := Bool.and_eq_true_iff.1 hnumber
    cases hdigits
    cases hbehind : Text.behind? objectStem.toList text with
    | some rest =>
      rw [hbehind, Option.getD_some] at hnumber hversion
      refine ⟨objectStem.toList, rest.dropWhile Char.isDigit, ?_, .inr rfl, hnumber, hversion⟩
      rw [Option.getD_some, List.takeWhile_append_dropWhile]
      exact Text.behind?_eq_some_iff.1 hbehind
    | none =>
      rw [hbehind, Option.getD_none] at hnumber hversion
      refine ⟨[], text.dropWhile Char.isDigit, ?_, .inl rfl, hnumber, hversion⟩
      rw [Option.getD_none, List.takeWhile_append_dropWhile, List.nil_append]
  · rintro ⟨stem, version, rfl, hstem, hnumber, hversion⟩
    obtain ⟨htake, hdrop⟩ := span_number hnumber hversion
    have hrest : (Text.behind? objectStem.toList (stem ++ (digits ++ version))).getD
        (stem ++ (digits ++ version)) = digits ++ version := by
      rcases hstem with rfl | rfl
      · rw [List.nil_append, behind?_objectStem_eq_none hnumber, Option.getD_none]
      · rw [Text.behind?_append, Option.getD_some]
    simp only [number?, hrest, htake, hdrop, hnumber, hversion, Bool.and_self, if_true]

/-! ### Bare ids -/

/-- The bare id is the number between the blanks. -/
theorem bareId?_eq_some_iff {reference id : String} :
    bareId? reference = some id ↔ number? (Text.trim reference.toList) = some id.toList := by
  rw [bareId?, Option.map_eq_some_iff]
  constructor
  · rintro ⟨digits, hdigits, rfl⟩
    rw [hdigits, String.toList_ofList]
  · exact fun hdigits => ⟨id.toList, hdigits, String.ofList_toList⟩

/-- A number is its own bare id. -/
theorem bareId?_of_isNumber {id : String} (h : isNumber id.toList = true) :
    bareId? id = some id := by
  rw [bareId?_eq_some_iff, Text.trim_eq_self (isBlank_eq_false_of_isNumber h)]
  exact number?_eq_some_iff.2 ⟨[], [], by simp, .inl rfl, h, rfl⟩

theorem isNumber_of_bareId? {reference id : String} (h : bareId? reference = some id) :
    isNumber id.toList = true := by
  obtain ⟨-, -, -, -, hnumber, -⟩ := number?_eq_some_iff.1 (bareId?_eq_some_iff.1 h)
  exact hnumber

theorem allBlank_eq_false_of_isNumber {id : String} (h : isNumber id.toList = true) :
    Text.allBlank id = false := by
  obtain ⟨c, hc⟩ := List.exists_mem_of_ne_nil _ (isNumber_iff.1 h).1
  rw [Text.allBlank, List.all_eq_false]
  exact ⟨c, hc, by simp [isBlank_eq_false_of_isNumber h c hc]⟩

/-- **Bare ids are steady**: whatever reference an id was found in, the id is
accepted and is its own bare id. -/
theorem steady_bareId? : Validator.Steady bareId? := by
  intro reference id h
  have hnumber := isNumber_of_bareId? h
  exact ⟨bareId?_of_isNumber hnumber, allBlank_eq_false_of_isNumber hnumber⟩

end Dataset

end StagedQuery
