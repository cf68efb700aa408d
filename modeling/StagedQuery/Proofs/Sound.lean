/-
StagedQuery/Proofs/Sound.lean

Sound trees: those of texts that are not broken anywhere.

Passing over a tree fails only where something in it is broken, so what can be passed
over is sound (`Tree.IsSound`).  Where a text breaks, its tree is not sound, whatever
was open there: a container that is not closed keeps why it is not, and so does each
around it.  A sound tree is therefore built from tokens of which none is broken.

Reading asks for more than passing over: what is read as a value, by whatever reader,
is sound.  In a record this is so since members of other names are passed over.

Main statements: `isBroken_eq_false_of_build` and `Reader.OfSound.record`.
-/
import StagedQuery.Json.Record
import StagedQuery.Proofs.FirstFault
import StagedQuery.Proofs.Spelling

namespace StagedQuery.Json

/-! ### Sound trees -/

/-- Nothing in the tree is broken. -/
def Tree.IsSound (tree : Tree) : Prop :=
  tree.skip = .ok ()

theorem skipStop_eq_ok_iff {stop : Option Break} : skipStop stop = .ok () ↔ stop = none := by
  cases stop <;> simp [skipStop]

theorem skipItems_eq_ok_iff {items : List Tree} {stop : Option Break} :
    skipItems items stop = .ok () ↔ (∀ item ∈ items, item.IsSound) ∧ stop = none := by
  induction items with
  | nil => simp [skipItems, skipStop_eq_ok_iff]
  | cons item items ih =>
    rw [skipItems, List.forall_mem_cons, Tree.IsSound, and_assoc, ← ih]
    cases item.skip <;> simp

theorem skipMembers_eq_ok_iff {members : List Member} {stop : Option Break} :
    skipMembers members stop = .ok () ↔ (∀ member ∈ members, member.2.IsSound) ∧ stop = none := by
  induction members with
  | nil => simp [skipMembers, skipStop_eq_ok_iff]
  | cons member members ih =>
    rw [skipMembers, List.forall_mem_cons, Tree.IsSound, and_assoc, ← ih]
    cases member.2.skip <;> simp

namespace Tree

theorem isSound_list {items : List Tree} {stop : Option Break} :
    (list items stop).IsSound ↔ (∀ item ∈ items, item.IsSound) ∧ stop = none := by
  rw [IsSound, skip, skipItems_eq_ok_iff]

theorem isSound_record {members : List Member} {stop : Option Break} :
    (record members stop).IsSound ↔ (∀ member ∈ members, member.2.IsSound) ∧ stop = none := by
  rw [IsSound, skip, skipMembers_eq_ok_iff]

theorem not_isSound_broken {why : Break} : ¬ (broken why).IsSound := by
  intro h
  cases h

end Tree

/-! ### Where a text breaks -/

section Breaking

variable {why : Break} {tree : Tree} {around : List Frame}

theorem State.not_isSound_abandon (h : ¬ tree.IsSound) :
    ¬ (State.abandon why tree around).IsSound := by
  induction around generalizing tree with
  | nil => exact h
  | cons frame around ih =>
    cases frame with
    | list before => exact ih fun hsound => nomatch (Tree.isSound_list.1 hsound).2
    | record before name => exact ih fun hsound => nomatch (Tree.isSound_record.1 hsound).2

/-- **Where a text breaks before its tree is complete, that is not sound.** -/
theorem State.not_isSound_stop {state : State} (h : ∀ tree, state ≠ .done tree) :
    ¬ (state.stop why).IsSound := by
  cases state with
  | value around => exact not_isSound_abandon Tree.not_isSound_broken
  | item before around =>
    exact not_isSound_abandon fun hsound => nomatch (Tree.isSound_list.1 hsound).2
  | key before around =>
    exact not_isSound_abandon fun hsound => nomatch (Tree.isSound_record.1 hsound).2
  | colon before name around => exact not_isSound_abandon Tree.not_isSound_broken
  | member before around =>
    exact not_isSound_abandon fun hsound => nomatch (Tree.isSound_record.1 hsound).2
  | done tree => exact absurd rfl (h tree)

/-- A text holds one sound tree and nothing else. -/
structure Document.IsSound (document : Document) : Prop where
  /-- The tree is sound. -/
  tree : document.tree.IsSound
  /-- Nothing follows it. -/
  trailing : document.trailing = false

theorem Document.not_isSound_stop {state : State} (h : ∀ tree, state ≠ .done tree) :
    ¬ Document.IsSound ⟨state.stop why, false⟩ :=
  fun hsound => State.not_isSound_stop h hsound.tree

/-- A sound document is built from tokens that are not broken. -/
theorem isBroken_eq_false_of_build {state : State} {tokens : List Token}
    (h : (build state tokens).IsSound) : ∀ token ∈ tokens, token.isBroken = false := by
  fun_induction build state tokens with
  | case1 => exact List.forall_mem_nil _
  | case2 => cases h.trailing
  | _ =>
    -- either the text is taken to break at the token, or that leads on
    first
    | exact absurd h (Document.not_isSound_stop nofun)
    | rename_i ih
      exact List.forall_mem_cons.2 ⟨rfl, ih h⟩

end Breaking

/-! ### What can be read -/

namespace Reader

variable {α : Type} {reader : Reader α}

/-- Only sound trees are read as values. -/
def OfSound (reader : Reader α) : Prop :=
  ∀ tree value, reader tree = .ok value → tree.IsSound

theorem readStop_eq_ok_iff {value result : α} {stop : Option Break} :
    readStop value stop = .ok result ↔ stop = none ∧ value = result := by
  cases stop <;> simp [readStop]

theorem OfSound.text : Reader.text.OfSound := by
  intro tree value h
  rw [Reader.text.eq_def] at h
  split at h
  · rfl
  · cases h

theorem OfSound.map {β : Type} (h : reader.OfSound) (f : α → β) :
    Reader.OfSound fun tree => (reader tree).map f := by
  intro tree value hread
  cases hvalue : reader tree with
  | ok result => exact h tree result hvalue
  | error fault =>
    simp only [hvalue] at hread
    cases hread

theorem OfSound.optional (h : reader.OfSound) : (Reader.optional reader).OfSound := by
  intro tree value hread
  rw [Reader.optional.eq_def] at hread
  split at hread
  · rfl
  · exact h.map some _ _ hread

theorem OfSound.items (h : reader.OfSound) {trees : List Tree} {stop : Option Break}
    {values : List α} (hread : Reader.items reader trees stop = .ok values) :
    (∀ tree ∈ trees, tree.IsSound) ∧ stop = none := by
  induction trees generalizing values with
  | nil => exact ⟨List.forall_mem_nil _, (readStop_eq_ok_iff.1 hread).1⟩
  | cons tree trees ih =>
    rw [Reader.items] at hread
    split at hread
    · cases hread
    · next value hvalue =>
      obtain ⟨rest, hrest, -⟩ := map_eq_ok_iff.1 hread
      obtain ⟨htrees, hstop⟩ := ih hrest
      exact ⟨List.forall_mem_cons.2 ⟨h _ _ hvalue, htrees⟩, hstop⟩

theorem OfSound.pairs (h : reader.OfSound) {members : List Member} {stop : Option Break}
    {values : List (String × α)} (hread : Reader.pairs reader members stop = .ok values) :
    (∀ member ∈ members, member.2.IsSound) ∧ stop = none := by
  induction members generalizing values with
  | nil => exact ⟨List.forall_mem_nil _, (readStop_eq_ok_iff.1 hread).1⟩
  | cons member members ih =>
    rw [Reader.pairs.eq_def] at hread
    split at hread
    · next heq => cases heq
    · cases hread
    · next name tree rest _ heq =>
      cases heq
      split at hread
      · cases hread
      · next value hvalue =>
        obtain ⟨rest, hrest, -⟩ := map_eq_ok_iff.1 hread
        obtain ⟨hmembers, hstop⟩ := ih hrest
        exact ⟨List.forall_mem_cons.2 ⟨h _ _ hvalue, hmembers⟩, hstop⟩

theorem OfSound.list (h : reader.OfSound) : (Reader.list reader).OfSound := by
  intro tree values hread
  rw [Reader.list.eq_def] at hread
  split at hread
  · next items stop =>
    exact Tree.isSound_list.2 (h.items hread)
  · cases hread

theorem OfSound.mapping (h : reader.OfSound) : (Reader.mapping reader).OfSound := by
  intro tree values hread
  rw [Reader.mapping.eq_def] at hread
  split at hread
  · exact Tree.isSound_record.2 (h.pairs hread)
  · cases hread

end Reader

section Record

variable {α : Type} {fields : List (RecordField α)} {stop : Option Break} {start result : α}

/-- The value of each field is read from a sound tree only. -/
def RecordField.AllOfSound (fields : List (RecordField α)) : Prop :=
  ∀ field ∈ fields, ∀ tree record result, field.take tree record = .ok result → tree.IsSound

theorem Reader.OfSound.field {β : Type} {reader : Reader β} (h : reader.OfSound) (name : String)
    (wanted : Bool) (put : β → α → α) : ∀ tree record result,
      (RecordField.of name wanted reader put).take tree record = .ok result → tree.IsSound :=
  fun tree record result htake => h.map (put · record) tree result htake

theorem RecordField.AllOfSound.members (h : AllOfSound fields) {members : List Member}
    {seen : List String} (hread : readMembers fields stop members seen start = .ok result) :
    (∀ member ∈ members, member.2.IsSound) ∧ stop = none := by
  fun_induction readMembers fields stop members seen start with
  | case1 => cases hread
  | case2 => cases hread
  | case3 _ _ hstop _ => exact ⟨List.forall_mem_nil _, hstop⟩
  | case4 => cases hread
  | case5 => cases hread
  | case6 name tree rest _ _ _ hskip ih =>
    -- a value that is passed over
    obtain ⟨hrest, hstop⟩ := ih hread
    exact ⟨List.forall_mem_cons.2 ⟨hskip, hrest⟩, hstop⟩
  | case7 => cases hread
  | case8 => cases hread
  | case9 name tree rest _ record field hfind _ next htake ih =>
    obtain ⟨hrest, hstop⟩ := ih hread
    exact ⟨List.forall_mem_cons.2
      ⟨h field (List.mem_of_find?_eq_some hfind) tree record next htake, hrest⟩, hstop⟩

theorem RecordField.AllOfSound.items (h : AllOfSound fields) {items : List Tree}
    (hread : readItems stop fields items start = .ok result) :
    (∀ item ∈ items, item.IsSound) ∧ stop = none := by
  fun_induction readItems stop fields items start with
  | case1 => exact ⟨List.forall_mem_nil _, (Reader.readStop_eq_ok_iff.1 hread).1⟩
  | case2 => cases hread
  | case3 => cases hread
  | case4 => cases hread
  | case5 _ _ _ hstop _ _ => exact ⟨List.forall_mem_nil _, hstop⟩
  | case6 => cases hread
  | case7 field fields tree rest record next htake ih =>
    obtain ⟨hfield, hfields⟩ := List.forall_mem_cons.1 h
    obtain ⟨hrest, hstop⟩ := ih hfields hread
    exact ⟨List.forall_mem_cons.2 ⟨hfield tree record next htake, hrest⟩, hstop⟩

/-- **A record is read from a sound tree**, if the values of its fields are. -/
theorem Reader.OfSound.record (h : RecordField.AllOfSound fields) (initial : α) :
    (Reader.record fields initial).OfSound := by
  intro tree result hread
  rw [Reader.record.eq_def] at hread
  split at hread
  · exact Tree.isSound_record.2 (h.members hread)
  · exact Tree.isSound_list.2 (h.items hread)
  · cases hread

end Record

end StagedQuery.Json
