/-
StagedQuery/Proofs/Node.lean

Values as the grammar of JSON has them.

A `Node` is a value as it is written, down to the spelling of its strings and numbers,
with only the blanks between tokens left out.  `Writes` says that a text writes it: the
text spells its tokens, with any blanks between them.  Whoever reads such a text finds
the tree of the node in it,

    build (.value around) (tokens of the node ++ rest)
      = build (.behind node.tree around) rest,

and nothing else: the right-hand side goes on from the end of the value, whatever was
open around it.  This is an induction over the node, with one lemma for what is
between brackets.

The other way round, every sound text writes a node.  Where a value is due, a node can
be split off from the tokens to come, and where items or members are due, all of them
with the closing bracket; the recursion is on the number of tokens left.

Main statements: `Writes.document`, the tree of a text that writes a node, and
`exists_writes`, there is a node where the text is sound.
-/
import Mathlib.Data.List.Forall2
import StagedQuery.Proofs.Sound

namespace StagedQuery.Json

/-! ### Nodes -/

/-- A value, as it is written. -/
inductive Node where
  /-- The empty value. -/
  | null
  /-- A truth value. -/
  | bool (value : Bool)
  /-- A number, and whether a minus stands before it. -/
  | number (negative : Bool) (magnitude : Magnitude)
  /-- A string. -/
  | string (glyphs : List Glyph)
  /-- A list. -/
  | list (items : List Node)
  /-- A record: its members, each with its name as a string. -/
  | record (members : List (List Glyph × Node))

/-- Parts with a comma between any two of them. -/
def separated : List (List Spelling) → List Spelling
  | [] => []
  | part :: parts => part ++ parts.flatMap (.comma :: ·)

mutual

/-- The tokens of a value. -/
def Node.spellings : Node → List Spelling
  | .null => [.null]
  | .bool value => [.bool value]
  | .number negative magnitude => [.number negative magnitude]
  | .string glyphs => [.string glyphs]
  | .list items => .openList :: (separated (itemSpellings items) ++ [.closeList])
  | .record members => .openRecord :: (separated (memberSpellings members) ++ [.closeRecord])

/-- The tokens of each item. -/
def itemSpellings : List Node → List (List Spelling)
  | [] => []
  | item :: rest => item.spellings :: itemSpellings rest

/-- The tokens of each member. -/
def memberSpellings : List (List Glyph × Node) → List (List Spelling)
  | [] => []
  | (key, value) :: rest => (.string key :: .colon :: value.spellings) :: memberSpellings rest

end

mutual

/-- The value as a tree. -/
def Node.tree : Node → Tree
  | .null => .null
  | .bool value => .bool value
  | .number _ magnitude => .num magnitude.numeral.inRange
  | .string glyphs => .str (valueOf? glyphs)
  | .list items => .list (nodeTrees items) none
  | .record members => .record (nodeMembers members) none

/-- Items as trees. -/
def nodeTrees : List Node → List Tree
  | [] => []
  | item :: rest => item.tree :: nodeTrees rest

/-- Members of a record as members of a tree. -/
def nodeMembers : List (List Glyph × Node) → List Member
  | [] => []
  | (key, value) :: rest => (valueOf? key, value.tree) :: nodeMembers rest

end

theorem nodeTrees_eq_map (items : List Node) : nodeTrees items = items.map Node.tree := by
  induction items with
  | nil => rfl
  | cons item items ih => rw [nodeTrees, ih, List.map_cons]

theorem nodeMembers_eq_map (members : List (List Glyph × Node)) :
    nodeMembers members = members.map fun member => (valueOf? member.1, member.2.tree) := by
  induction members with
  | nil => rfl
  | cons member members ih => rw [nodeMembers, ih, List.map_cons]

/-- The text writes the value: its tokens, with blanks between them. -/
def Writes (text : String) (node : Node) : Prop :=
  Spaced node.spellings text.toList

/-- The text without any blanks. -/
def Node.text (node : Node) : String :=
  .ofList (node.spellings.flatMap Spelling.text)

theorem Node.writes_text (node : Node) : Writes node.text node := by
  rw [Writes, Node.text, String.toList_ofList]
  exact spaced_flatMap _

/-! ### Numbers stand apart -/

/-- No two numbers come to stand next to each other where the part is put. -/
def Clear (part : List Spelling) : Prop :=
  ∀ rest, (∀ next ∈ rest.head?, next.isNumber = false) → Apart rest → Apart (part ++ rest)

section Clear

theorem clear_single (spelling : Spelling) : Clear [spelling] :=
  fun _ hnext hrest => ⟨fun _ => hnext, hrest⟩

theorem Clear.cons {spelling : Spelling} {part : List Spelling} (h : Clear part)
    (hnumber : spelling.isNumber = false) : Clear (spelling :: part) := by
  intro rest hnext hrest
  refine ⟨fun hnumber' => ?_, h rest hnext hrest⟩
  rw [hnumber] at hnumber'
  cases hnumber'

theorem Clear.close {part : List Spelling} {spelling : Spelling} (h : Clear part)
    (hnumber : spelling.isNumber = false) : Clear (part ++ [spelling]) := by
  intro rest hnext hrest
  rw [List.append_assoc]
  refine h _ (fun next hnext' => ?_) (clear_single spelling rest hnext hrest)
  cases hnext'
  exact hnumber

/-- Commas stand between the parts. -/
theorem clear_separated {parts : List (List Spelling)} (h : ∀ part ∈ parts, Clear part) :
    Clear (separated parts) := by
  have hbehind : ∀ parts : List (List Spelling), (∀ part ∈ parts, Clear part) →
      ∀ rest, (∀ next ∈ rest.head?, next.isNumber = false) → Apart rest →
        Apart (parts.flatMap (.comma :: ·) ++ rest) ∧
          ∀ next ∈ (parts.flatMap (Spelling.comma :: ·) ++ rest).head?, next.isNumber = false := by
    intro parts h rest hnext hrest
    induction parts with
    | nil => exact ⟨hrest, hnext⟩
    | cons part parts ih =>
      obtain ⟨hpart, hparts⟩ := List.forall_mem_cons.1 h
      obtain ⟨hapart, hhead⟩ := ih hparts
      rw [List.flatMap_cons, List.append_assoc]
      refine ⟨⟨nofun, hpart _ hhead hapart⟩, fun next hnext => ?_⟩
      cases hnext
      rfl
  cases parts with
  | nil => exact fun _ _ hrest => hrest
  | cons part parts =>
    intro rest hnext hrest
    obtain ⟨hpart, hparts⟩ := List.forall_mem_cons.1 h
    obtain ⟨hapart, hhead⟩ := hbehind parts hparts rest hnext hrest
    rw [separated, List.append_assoc]
    exact hpart _ hhead hapart

mutual

theorem Node.clear_spellings : ∀ node : Node, Clear node.spellings
  | .null => clear_single _
  | .bool _ => clear_single _
  | .number _ _ => clear_single _
  | .string _ => clear_single _
  | .list items => by
    rw [Node.spellings]
    exact ((clear_separated (clear_itemSpellings items)).close rfl).cons rfl
  | .record members => by
    rw [Node.spellings]
    exact ((clear_separated (clear_memberSpellings members)).close rfl).cons rfl

theorem clear_itemSpellings : ∀ items : List Node, ∀ part ∈ itemSpellings items, Clear part
  | [] => List.forall_mem_nil _
  | item :: rest => List.forall_mem_cons.2 ⟨item.clear_spellings, clear_itemSpellings rest⟩

theorem clear_memberSpellings :
    ∀ members : List (List Glyph × Node), ∀ part ∈ memberSpellings members, Clear part
  | [] => List.forall_mem_nil _
  | (_, value) :: rest =>
    List.forall_mem_cons.2
      ⟨(value.clear_spellings.cons rfl).cons rfl, clear_memberSpellings rest⟩

end

theorem Node.apart_spellings (node : Node) : Apart node.spellings := by
  have happend := node.clear_spellings [] nofun trivial
  rwa [List.append_nil] at happend

end Clear

/-! ### From nodes to trees -/

/-- Where a value is due, the part is one and stands for the tree. -/
def Builds (part : List Spelling) (tree : Tree) : Prop :=
  ∀ around rest, build (.value around) ((part ++ rest).map Spelling.token) =
    build (.behind tree around) (rest.map Spelling.token)

/-- Where a member is due, the part is one. -/
def BuildsMember (part : List Spelling) (member : Member) : Prop :=
  ∀ before around rest, build (.key before around) ((part ++ rest).map Spelling.token) =
    build (.member (member :: before) around) (rest.map Spelling.token)

section Builds

variable {parts : List (List Spelling)} {trees : List Tree} {members : List Member}

/-- A member is a name, a colon and a value. -/
theorem Builds.member {part : List Spelling} {tree : Tree} (h : Builds part tree)
    (key : List Glyph) :
    BuildsMember (.string key :: .colon :: part) (valueOf? key, tree) := fun before around rest =>
  h (.record before (valueOf? key) :: around) rest

/-- Behind an item: the other items, and the end of the list. -/
theorem build_behind_item (hparts : List.Forall₂ Builds parts trees) (before : List Tree)
    (around : List Frame) (rest : List Spelling) :
    build (.item before around)
        ((parts.flatMap (.comma :: ·) ++ .closeList :: rest).map Spelling.token) =
      build (.behind (.list (before.reverse ++ trees) none) around)
        (rest.map Spelling.token) := by
  induction hparts generalizing before with
  | nil =>
    rw [List.append_nil]
    rfl
  | @cons part tree parts trees hpart _ ih =>
    -- the item is kept with those before it, the last first
    have hrest := ih (tree :: before)
    rw [List.reverse_cons, List.append_assoc, List.singleton_append] at hrest
    rw [List.flatMap_cons, List.append_assoc]
    exact (hpart (.list before :: around) _).trans hrest

/-- Items between brackets are a list. -/
theorem builds_list (hparts : List.Forall₂ Builds parts trees) :
    Builds (.openList :: (separated parts ++ [.closeList])) (.list trees none) := by
  intro around rest
  cases hparts with
  | nil => rfl
  | @cons part tree parts trees hpart hparts =>
    rw [separated, List.cons_append, List.append_assoc, List.append_assoc, List.singleton_append]
    exact (hpart (.list [] :: around) _).trans (build_behind_item hparts [tree] around rest)

/-- Behind a member: the other members, and the end of the record. -/
theorem build_behind_member (hparts : List.Forall₂ BuildsMember parts members)
    (before : List Member) (around : List Frame) (rest : List Spelling) :
    build (.member before around)
        ((parts.flatMap (.comma :: ·) ++ .closeRecord :: rest).map Spelling.token) =
      build (.behind (.record (before.reverse ++ members) none) around)
        (rest.map Spelling.token) := by
  induction hparts generalizing before with
  | nil =>
    rw [List.append_nil]
    rfl
  | @cons part member parts members hpart _ ih =>
    have hrest := ih (member :: before)
    rw [List.reverse_cons, List.append_assoc, List.singleton_append] at hrest
    rw [List.flatMap_cons, List.append_assoc]
    exact (hpart before around _).trans hrest

/-- Members between braces are a record. -/
theorem builds_record (hparts : List.Forall₂ BuildsMember parts members) :
    Builds (.openRecord :: (separated parts ++ [.closeRecord])) (.record members none) := by
  intro around rest
  cases hparts with
  | nil => rfl
  | @cons part member parts members hpart hparts =>
    rw [separated, List.cons_append, List.append_assoc, List.append_assoc, List.singleton_append]
    exact (hpart [] around _).trans (build_behind_member hparts [member] around rest)

mutual

/-- **The tokens of a node stand for its tree.** -/
theorem Node.builds : ∀ node : Node, Builds node.spellings node.tree
  | .null => fun _ _ => rfl
  | .bool _ => fun _ _ => rfl
  | .number _ _ => fun _ _ => rfl
  | .string _ => fun _ _ => rfl
  | .list items => by
    rw [Node.spellings, Node.tree]
    exact builds_list (builds_itemSpellings items)
  | .record members => by
    rw [Node.spellings, Node.tree]
    exact builds_record (builds_memberSpellings members)

theorem builds_itemSpellings :
    ∀ items : List Node, List.Forall₂ Builds (itemSpellings items) (nodeTrees items)
  | [] => .nil
  | item :: rest => .cons item.builds (builds_itemSpellings rest)

theorem builds_memberSpellings :
    ∀ members : List (List Glyph × Node),
      List.Forall₂ BuildsMember (memberSpellings members) (nodeMembers members)
  | [] => .nil
  | (key, value) :: rest => .cons (value.builds.member key) (builds_memberSpellings rest)

end

end Builds

/-- **A text that writes a node has its tree**, and nothing follows it. -/
theorem Writes.document {text : String} {node : Node} (h : Writes text node) :
    document text = ⟨node.tree, false⟩ := by
  have hbuild := node.builds [] []
  rw [List.append_nil] at hbuild
  rw [Json.document, tokens_of_spaced h node.apart_spellings, hbuild]
  rfl

mutual

/-- A node can be passed over. -/
theorem Node.isSound_tree : ∀ node : Node, node.tree.IsSound
  | .null => rfl
  | .bool _ => rfl
  | .number _ _ => rfl
  | .string _ => rfl
  | .list items => by
    rw [Node.tree, Tree.isSound_list]
    exact ⟨isSound_nodeTrees items, rfl⟩
  | .record members => by
    rw [Node.tree, Tree.isSound_record]
    exact ⟨isSound_nodeMembers members, rfl⟩

theorem isSound_nodeTrees : ∀ items : List Node, ∀ tree ∈ nodeTrees items, tree.IsSound
  | [] => List.forall_mem_nil _
  | item :: rest => List.forall_mem_cons.2 ⟨item.isSound_tree, isSound_nodeTrees rest⟩

theorem isSound_nodeMembers :
    ∀ members : List (List Glyph × Node), ∀ member ∈ nodeMembers members, member.2.IsSound
  | [] => List.forall_mem_nil _
  | (_, value) :: rest => List.forall_mem_cons.2 ⟨value.isSound_tree, isSound_nodeMembers rest⟩

end

/-! ### From trees to nodes -/

section Split

theorem not_isSound_build_nil {state : State} (h : ∀ tree, state ≠ .done tree) :
    ¬ (build state []).IsSound := by
  rw [build]
  exact Document.not_isSound_stop h

/-- What is sound goes on soundly behind a value. -/
theorem Builds.isSound {part : List Spelling} {tree : Tree} (h : Builds part tree)
    (around : List Frame) (behind : List Spelling)
    (hsound : (build (.value around) ((part ++ behind).map Spelling.token)).IsSound) :
    (build (.behind tree around) (behind.map Spelling.token)).IsSound := by
  rwa [h] at hsound

mutual

/-- Where a value is due, there is one, unless a list ends that holds nothing. -/
theorem exists_value (around : List Frame) (spellings : List Spelling)
    (h : (build (.value around) (spellings.map Spelling.token)).IsSound) :
    (∃ outer behind, around = .list [] :: outer ∧ spellings = .closeList :: behind) ∨
      ∃ (node : Node) (behind : List Spelling), spellings = node.spellings ++ behind := by
  cases spellings with
  | nil => exact absurd h (not_isSound_build_nil nofun)
  | cons spelling spellings =>
    cases spelling with
    | null => exact .inr ⟨.null, spellings, rfl⟩
    | bool value => exact .inr ⟨.bool value, spellings, rfl⟩
    | number negative magnitude => exact .inr ⟨.number negative magnitude, spellings, rfl⟩
    | string glyphs => exact .inr ⟨.string glyphs, spellings, rfl⟩
    | openList =>
      right
      rcases exists_value (.list [] :: around) spellings h with
        ⟨_, behind, -, rfl⟩ | ⟨item, rest, rfl⟩
      · exact ⟨.list [], behind, rfl⟩
      · have hrest := item.builds.isSound (.list [] :: around) rest h
        obtain ⟨items, behind, rfl⟩ := exists_items [item.tree] around rest nofun hrest
        exact ⟨.list (item :: items), behind, by simp [Node.spellings, itemSpellings, separated]⟩
    | openRecord =>
      right
      rcases exists_member [] around spellings h with
        ⟨-, behind, rfl⟩ | ⟨key, value, rest, rfl⟩
      · exact ⟨.record [], behind, rfl⟩
      · have hrest := value.builds.isSound (.record [] (valueOf? key) :: around) rest h
        obtain ⟨members, behind, rfl⟩ := exists_members [_] around rest nofun hrest
        exact ⟨.record ((key, value) :: members), behind,
          by simp [Node.spellings, memberSpellings, separated]⟩
    | closeList =>
      left
      rcases around with - | ⟨(- | ⟨_, _⟩) | ⟨_, _⟩, outer⟩
      · exact absurd h (Document.not_isSound_stop nofun)
      · exact ⟨outer, spellings, rfl, rfl⟩
      · exact absurd h (Document.not_isSound_stop nofun)
      · exact absurd h (Document.not_isSound_stop nofun)
    | closeRecord => exact absurd h (Document.not_isSound_stop nofun)
    | comma => exact absurd h (Document.not_isSound_stop nofun)
    | colon => exact absurd h (Document.not_isSound_stop nofun)
termination_by spellings.length
decreasing_by
  all_goals
    subst_vars
    simp only [List.length_cons, List.length_append]
    omega

/-- Behind an item there are all others, up to the end of the list. -/
theorem exists_items (before : List Tree) (around : List Frame) (spellings : List Spelling)
    (hbefore : before ≠ [])
    (h : (build (.item before around) (spellings.map Spelling.token)).IsSound) :
    ∃ (items : List Node) (behind : List Spelling),
      spellings = (itemSpellings items).flatMap (.comma :: ·) ++ .closeList :: behind := by
  cases spellings with
  | nil => exact absurd h (not_isSound_build_nil nofun)
  | cons spelling spellings =>
    cases spelling with
    | closeList => exact ⟨[], spellings, rfl⟩
    | comma =>
      rcases exists_value (.list before :: around) spellings h with
        ⟨_, _, heq, -⟩ | ⟨item, rest, rfl⟩
      · cases heq
        exact absurd rfl hbefore
      · have hrest := item.builds.isSound (.list before :: around) rest h
        obtain ⟨items, behind, rfl⟩ := exists_items (item.tree :: before) around rest nofun hrest
        exact ⟨item :: items, behind, by simp [itemSpellings]⟩
    | _ => exact absurd h (Document.not_isSound_stop nofun)
termination_by spellings.length
decreasing_by
  all_goals
    subst_vars
    simp only [List.length_cons, List.length_append]
    omega

/-- Where a member is due, there is one, unless a record ends that holds nothing. -/
theorem exists_member (before : List Member) (around : List Frame) (spellings : List Spelling)
    (h : (build (.key before around) (spellings.map Spelling.token)).IsSound) :
    (before = [] ∧ ∃ behind, spellings = .closeRecord :: behind) ∨
      ∃ (key : List Glyph) (value : Node) (behind : List Spelling),
        spellings = .string key :: .colon :: (value.spellings ++ behind) := by
  cases spellings with
  | nil => exact absurd h (not_isSound_build_nil nofun)
  | cons spelling spellings =>
    cases spelling with
    | closeRecord =>
      cases before with
      | nil => exact .inl ⟨rfl, spellings, rfl⟩
      | cons => exact absurd h (Document.not_isSound_stop nofun)
    | string key =>
      right
      cases spellings with
      | nil => exact absurd h (not_isSound_build_nil nofun)
      | cons spelling spellings =>
        cases spelling with
        | colon =>
          rcases exists_value (.record before (valueOf? key) :: around) spellings h with
            ⟨_, _, heq, -⟩ | ⟨value, behind, rfl⟩
          · cases heq
          · exact ⟨key, value, behind, rfl⟩
        | _ => exact absurd h (Document.not_isSound_stop nofun)
    | _ => exact absurd h (Document.not_isSound_stop nofun)
termination_by spellings.length
decreasing_by
  all_goals
    subst_vars
    simp only [List.length_cons]
    omega

/-- Behind a member there are all others, up to the end of the record. -/
theorem exists_members (before : List Member) (around : List Frame) (spellings : List Spelling)
    (hbefore : before ≠ [])
    (h : (build (.member before around) (spellings.map Spelling.token)).IsSound) :
    ∃ (members : List (List Glyph × Node)) (behind : List Spelling),
      spellings = (memberSpellings members).flatMap (.comma :: ·) ++ .closeRecord :: behind := by
  cases spellings with
  | nil => exact absurd h (not_isSound_build_nil nofun)
  | cons spelling spellings =>
    cases spelling with
    | closeRecord => exact ⟨[], spellings, rfl⟩
    | comma =>
      rcases exists_member before around spellings h with ⟨heq, -⟩ | ⟨key, value, rest, rfl⟩
      · exact absurd heq hbefore
      · have hrest := value.builds.isSound (.record before (valueOf? key) :: around) rest h
        obtain ⟨members, behind, rfl⟩ :=
          exists_members ((valueOf? key, value.tree) :: before) around rest nofun hrest
        exact ⟨(key, value) :: members, behind, by simp [memberSpellings]⟩
    | _ => exact absurd h (Document.not_isSound_stop nofun)
termination_by spellings.length
decreasing_by
  all_goals
    subst_vars
    simp only [List.length_cons, List.length_append]
    omega

end

/-- **A sound text writes a node.** -/
theorem exists_writes {text : String} (h : (document text).IsSound) :
    ∃ node, Writes text node := by
  obtain ⟨spellings, hspaced, htokens⟩ := exists_spaced (isBroken_eq_false_of_build h)
  rw [document, htokens] at h
  rcases exists_value [] spellings h with ⟨_, _, heq, -⟩ | ⟨node, behind, rfl⟩
  · cases heq
  · have hrest := node.builds.isSound [] behind h
    cases behind with
    | nil =>
      rw [List.append_nil] at hspaced
      exact ⟨node, hspaced⟩
    | cons => cases hrest.trailing

end Split

end StagedQuery.Json
