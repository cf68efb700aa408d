/-
StagedQuery/Inputs.lean

The declared inputs of a query: names with a reference each.  A name is declared
once, and the order of declaration means nothing, so the entries are kept in
strictly increasing code-point order of their names.  That the order is strict
is part of the type: two sets of declarations with the same entries are equal,
and walking the entries is walking the names in order.

`insert` declares a name, replacing what it stood for.

Main statements: `mem_insert`, what is declared after that; `ext_entries`, inputs
that declare the same are equal.
-/

namespace StagedQuery

/-- Entries in strictly increasing order of their names. -/
def Increasing (entries : List (String × String)) : Prop :=
  entries.Pairwise fun a b => a.1 < b.1

/-- Declared inputs, in order of their names. -/
structure Inputs where
  /-- Each declared name with its reference. -/
  entries : List (String × String)
  /-- The names increase. -/
  increasing : Increasing entries := by exact List.Pairwise.nil
  deriving DecidableEq

/-! ### Insertion into ordered entries -/

/-- Put an entry at its place, over any entry of the same name. -/
def insertEntry (name reference : String) : List (String × String) → List (String × String)
  | [] => [(name, reference)]
  | entry :: rest =>
    if name < entry.1 then (name, reference) :: entry :: rest
    else if name = entry.1 then (name, reference) :: rest
    else entry :: insertEntry name reference rest

/-- In increasing entries every name is beyond the one of the first entry. -/
theorem lt_of_mem_rest {first entry : String × String} {rest : List (String × String)}
    (h : Increasing (first :: rest)) (hentry : entry ∈ rest) : first.1 < entry.1 :=
  (List.pairwise_cons.1 h).1 entry hentry

theorem Increasing.rest {first : String × String} {rest : List (String × String)}
    (h : Increasing (first :: rest)) : Increasing rest :=
  (List.pairwise_cons.1 h).2

/-- Insertion leaves the entries of all other names and the new one. -/
theorem mem_insertEntry {name reference : String} {entry : String × String}
    {entries : List (String × String)} (h : Increasing entries) :
    entry ∈ insertEntry name reference entries ↔
      entry = (name, reference) ∨ (entry.1 ≠ name ∧ entry ∈ entries) := by
  induction entries with
  | nil => simp [insertEntry]
  | cons first rest ih =>
    rw [insertEntry]
    split
    · next hlt =>
      -- every name there is beyond the new one
      have hne : ∀ e ∈ first :: rest, e.1 ≠ name := by
        intro e he heq
        rcases List.mem_cons.1 he with rfl | he
        · exact String.lt_irrefl _ (heq ▸ hlt)
        · exact String.lt_irrefl _ (String.lt_trans hlt (heq ▸ lt_of_mem_rest h he))
      rw [List.mem_cons]
      exact or_congr_right ⟨fun he => ⟨hne _ he, he⟩, And.right⟩
    · split
      · next heq =>
        rw [List.mem_cons, List.mem_cons]
        refine or_congr_right ⟨fun he => ⟨fun hname => ?_, .inr he⟩, ?_⟩
        · have hlt := lt_of_mem_rest h he
          rw [hname, ← heq] at hlt
          exact String.lt_irrefl _ hlt
        · rintro ⟨hname, rfl | he⟩
          · exact absurd heq.symm hname
          · exact he
      · next hne =>
        rw [List.mem_cons, List.mem_cons, ih h.rest]
        constructor
        · rintro (rfl | rfl | ⟨hname, he⟩)
          · exact .inr ⟨Ne.symm hne, .inl rfl⟩
          · exact .inl rfl
          · exact .inr ⟨hname, .inr he⟩
        · rintro (rfl | ⟨hname, rfl | he⟩)
          · exact .inr (.inl rfl)
          · exact .inl rfl
          · exact .inr (.inr ⟨hname, he⟩)

theorem increasing_insertEntry (name reference : String) {entries : List (String × String)}
    (h : Increasing entries) : Increasing (insertEntry name reference entries) := by
  induction entries with
  | nil => exact List.pairwise_singleton _ _
  | cons first rest ih =>
    rw [insertEntry]
    split
    · next hlt =>
      refine List.pairwise_cons.2 ⟨fun entry hentry => ?_, h⟩
      rcases List.mem_cons.1 hentry with rfl | hentry
      · exact hlt
      · exact String.lt_trans hlt (lt_of_mem_rest h hentry)
    · split
      · next heq =>
        refine List.pairwise_cons.2 ⟨fun entry hentry => ?_, h.rest⟩
        have hlt := lt_of_mem_rest h hentry
        rwa [← heq] at hlt
      · next hlt hne =>
        refine List.pairwise_cons.2 ⟨fun entry hentry => ?_, ih h.rest⟩
        rcases (mem_insertEntry h.rest).1 hentry with rfl | ⟨_, hentry⟩
        · exact Std.lt_of_le_of_ne (Std.not_lt.1 hlt) (Ne.symm hne)
        · exact lt_of_mem_rest h hentry

/-- Increasing entries are determined by what they hold. -/
theorem Increasing.eq_of_mem_iff {entries others : List (String × String)}
    (h : Increasing entries) (h' : Increasing others)
    (same : ∀ entry, entry ∈ entries ↔ entry ∈ others) : entries = others := by
  induction entries generalizing others with
  | nil =>
    cases others with
    | nil => rfl
    | cons other rest => exact absurd ((same other).2 List.mem_cons_self) List.not_mem_nil
  | cons first rest ih =>
    cases others with
    | nil => exact absurd ((same first).1 List.mem_cons_self) List.not_mem_nil
    | cons other others =>
      -- the least entry of either list is the least of both
      have hfirst : first = other := by
        rcases List.mem_cons.1 ((same first).1 List.mem_cons_self) with heq | hfirst
        · exact heq
        · rcases List.mem_cons.1 ((same other).2 List.mem_cons_self) with heq | hother
          · exact heq.symm
          · exact absurd (String.lt_trans (lt_of_mem_rest h hother) (lt_of_mem_rest h' hfirst))
              (String.lt_irrefl _)
      subst hfirst
      rw [ih h.rest h'.rest]
      intro entry
      have hiff := same entry
      rw [List.mem_cons, List.mem_cons] at hiff
      constructor
      · intro hentry
        rcases hiff.1 (.inr hentry) with rfl | hentry'
        · exact absurd (lt_of_mem_rest h hentry) (String.lt_irrefl _)
        · exact hentry'
      · intro hentry
        rcases hiff.2 (.inr hentry) with rfl | hentry'
        · exact absurd (lt_of_mem_rest h' hentry) (String.lt_irrefl _)
        · exact hentry'

/-! ### Declaring names -/

namespace Inputs

/-- No declaration. -/
def empty : Inputs := ⟨[], List.Pairwise.nil⟩

instance : EmptyCollection Inputs := ⟨empty⟩

instance : Inhabited Inputs := ⟨empty⟩

/-- Declare a name, in place of any earlier declaration of it. -/
def insert (inputs : Inputs) (name reference : String) : Inputs :=
  ⟨insertEntry name reference inputs.entries,
    increasing_insertEntry name reference inputs.increasing⟩

/-- Declare one name after the other, the last declaration of a name winning. -/
def ofList (entries : List (String × String)) : Inputs :=
  entries.foldl (fun inputs entry => inputs.insert entry.1 entry.2) empty

/-- The reference a name is declared with. -/
def get? (inputs : Inputs) (name : String) : Option String :=
  (inputs.entries.find? fun entry => entry.1 = name).map (·.2)

/-- Whether a name is declared. -/
def contains (inputs : Inputs) (name : String) : Bool :=
  inputs.entries.any fun entry => entry.1 = name

/-- Whether nothing is declared. -/
def isEmpty (inputs : Inputs) : Bool :=
  inputs.entries.isEmpty

/-- How many names are declared. -/
def size (inputs : Inputs) : Nat :=
  inputs.entries.length

/-- A declaration replaces that of the same name and leaves all others. -/
theorem mem_insert {inputs : Inputs} {name reference : String} {entry : String × String} :
    entry ∈ (inputs.insert name reference).entries ↔
      entry = (name, reference) ∨ (entry.1 ≠ name ∧ entry ∈ inputs.entries) :=
  mem_insertEntry inputs.increasing

/-- A name is declared with one reference. -/
theorem reference_unique {inputs : Inputs} {name reference reference' : String}
    (h : (name, reference) ∈ inputs.entries) (h' : (name, reference') ∈ inputs.entries) :
    reference = reference' := by
  have key : ∀ a ∈ inputs.entries, ∀ b ∈ inputs.entries, a.1 = b.1 → a = b := by
    intro a ha b hb
    refine List.Pairwise.forall_of_forall_of_flip (R := fun a b => a.1 = b.1 → a = b)
      (fun _ _ _ => rfl) (inputs.increasing.imp ?_) (inputs.increasing.imp ?_) ha hb
    · exact fun hlt heq => absurd (heq ▸ hlt) (String.lt_irrefl _)
    · exact fun hlt heq => absurd (heq ▸ hlt) (String.lt_irrefl _)
  exact congrArg Prod.snd (key _ h _ h' rfl)

theorem get?_eq_some_iff {inputs : Inputs} {name reference : String} :
    inputs.get? name = some reference ↔ (name, reference) ∈ inputs.entries := by
  rw [get?, Option.map_eq_some_iff]
  constructor
  · rintro ⟨entry, hfind, rfl⟩
    have hname : entry.1 = name := by simpa using List.find?_some hfind
    rw [← hname]
    exact List.mem_of_find?_eq_some hfind
  · intro hentry
    cases hfind : inputs.entries.find? fun entry => entry.1 = name with
    | none =>
      have hne := List.find?_eq_none.1 hfind _ hentry
      simp at hne
    | some entry =>
      obtain ⟨name', reference'⟩ := entry
      have hname : name' = name := by simpa using List.find?_some hfind
      subst hname
      have hmem := List.mem_of_find?_eq_some hfind
      exact ⟨_, rfl, reference_unique hmem hentry⟩

theorem get?_eq_none_iff {inputs : Inputs} {name : String} :
    inputs.get? name = none ↔ ∀ reference, (name, reference) ∉ inputs.entries := by
  simp only [Option.eq_none_iff_forall_ne_some, ne_eq, get?_eq_some_iff]

/-- A declaration of a new name replaces nothing. -/
theorem mem_insert_of_get?_eq_none {inputs : Inputs} {name reference : String}
    {entry : String × String} (h : inputs.get? name = none) :
    entry ∈ (inputs.insert name reference).entries ↔
      entry = (name, reference) ∨ entry ∈ inputs.entries := by
  have hnew : entry ∈ inputs.entries → entry.1 ≠ name := by
    rintro hentry rfl
    exact get?_eq_none_iff.1 h entry.2 hentry
  rw [mem_insert]
  exact or_congr_right ⟨And.right, fun hentry => ⟨hnew hentry, hentry⟩⟩

theorem contains_iff {inputs : Inputs} {name : String} :
    inputs.contains name = true ↔ ∃ reference, (name, reference) ∈ inputs.entries := by
  simp [contains]

/-- Inputs that declare the same are equal. -/
theorem ext_entries {inputs others : Inputs}
    (same : ∀ entry, entry ∈ inputs.entries ↔ entry ∈ others.entries) : inputs = others := by
  obtain ⟨entries, h⟩ := inputs
  obtain ⟨otherEntries, h'⟩ := others
  cases h.eq_of_mem_iff h' same
  rfl

end Inputs

end StagedQuery
