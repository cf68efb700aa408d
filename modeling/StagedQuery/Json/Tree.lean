/-
StagedQuery/Json/Tree.lean

A JSON text as a tree.

Reading values from a text goes from left to right and ends at the first fault,
which can be a value of the wrong type in a text that is broken further on.  So
every list of tokens makes a tree, also where the text is broken: a `broken`
leaf stands where no value does, and a list or record that is not closed keeps
why it is not.  What is wrong comes to light when the place is reached.

The tree is built token by token; what is open at a place is a stack of the
containers around it, with what they hold so far.  A value still due when the
text ends is a broken leaf.

`skip` passes over a tree: it asks for less than reading, since neither the
range of a number nor the pairing of surrogates matters.
-/
import StagedQuery.Json.Token

namespace StagedQuery.Json

/-- A JSON text, as far as it is sound. -/
inductive Tree where
  /-- The empty value. -/
  | null
  /-- A truth value. -/
  | bool (value : Bool)
  /-- A number, and whether it is in range. -/
  | num (inRange : Bool)
  /-- A string: its text, unless a surrogate stands alone in it. -/
  | str (text : Option String)
  /-- A list: its items, and why it is not closed behind them if it is not. -/
  | list (items : List Tree) (stop : Option Break)
  /-- A record: its members, and why it is not closed behind them if it is not. -/
  | record (members : List (Option String × Tree)) (stop : Option Break)
  /-- A place where a value is due and there is none. -/
  | broken (why : Break)

/-- A member of a record: its key, read as a string, and its value. -/
abbrev Member := Option String × Tree

/-! ### Building -/

/-- A container around a place, with what it holds before it, the last first. -/
inductive Frame where
  /-- A list. -/
  | list (before : List Tree)
  /-- A record, and the key of the member whose value stands at the place. -/
  | record (before : List Member) (name : Option String)

/-- What is due at a place, and what is around it, the innermost first. -/
inductive State where
  /-- A value, or the end of a list that holds nothing. -/
  | value (around : List Frame)
  /-- A comma or the end of a list. -/
  | item (before : List Tree) (around : List Frame)
  /-- A key, or the end of a record that holds nothing. -/
  | key (before : List Member) (around : List Frame)
  /-- A colon. -/
  | colon (before : List Member) (name : Option String) (around : List Frame)
  /-- A comma or the end of a record. -/
  | member (before : List Member) (around : List Frame)
  /-- Nothing: the tree is complete. -/
  | done (tree : Tree)

namespace State

/-- The state behind a value. -/
def behind (tree : Tree) : List Frame → State
  | [] => .done tree
  | .list before :: around => .item (tree :: before) around
  | .record before name :: around => .member ((name, tree) :: before) around

/-- The tree when nothing follows: each container around is left unclosed. -/
def abandon (why : Break) (tree : Tree) : List Frame → Tree
  | [] => tree
  | .list before :: around =>
    abandon why (.list (tree :: before).reverse (some why)) around
  | .record before name :: around =>
    abandon why (.record ((name, tree) :: before).reverse (some why)) around

/-- The tree when the text breaks at a place. -/
def stop (why : Break) : State → Tree
  | .value around => abandon why (.broken why) around
  | .item before around => abandon why (.list before.reverse (some why)) around
  | .key before around => abandon why (.record before.reverse (some why)) around
  | .colon before name around => abandon why (.broken why) (.record before name :: around)
  | .member before around => abandon why (.record before.reverse (some why)) around
  | .done tree => tree

end State

/-- A text as a tree, and whether anything follows it. -/
structure Document where
  /-- The tree. -/
  tree : Tree
  /-- Whether the text goes on behind a complete tree. -/
  trailing : Bool

/-- Build on from a state. -/
def build : State → List Token → Document
  | state, [] => ⟨state.stop .truncated, false⟩
  | .done tree, _ :: _ => ⟨tree, true⟩
  | .value around, token :: rest =>
    match token with
    | .null => build (.behind .null around) rest
    | .bool value => build (.behind (.bool value) around) rest
    | .num inRange => build (.behind (.num inRange) around) rest
    | .str text => build (.behind (.str text) around) rest
    | .openList => build (.value (.list [] :: around)) rest
    | .openRecord => build (.key [] around) rest
    | .closeList =>
      match around with
      | .list [] :: around => build (.behind (.list [] none) around) rest
      | around => ⟨State.stop .malformed (.value around), false⟩
    | .broken why | .brokenStr why => ⟨State.stop why (.value around), false⟩
    | _ => ⟨State.stop .malformed (.value around), false⟩
  | .item before around, token :: rest =>
    match token with
    | .comma => build (.value (.list before :: around)) rest
    | .closeList => build (.behind (.list before.reverse none) around) rest
    | _ => ⟨State.stop .malformed (.item before around), false⟩
  | .key before around, token :: rest =>
    match token with
    | .str text => build (.colon before text around) rest
    | .closeRecord =>
      match before with
      | [] => build (.behind (.record [] none) around) rest
      | before => ⟨State.stop .malformed (.key before around), false⟩
    | .brokenStr why => ⟨State.stop why (.key before around), false⟩
    | _ => ⟨State.stop .malformed (.key before around), false⟩
  | .colon before name around, token :: rest =>
    match token with
    | .colon => build (.value (.record before name :: around)) rest
    | _ => ⟨State.stop .malformed (.colon before name around), false⟩
  | .member before around, token :: rest =>
    match token with
    | .comma => build (.key before around) rest
    | .closeRecord => build (.behind (.record before.reverse none) around) rest
    | _ => ⟨State.stop .malformed (.member before around), false⟩

/-- The tree of a text. -/
def document (text : String) : Document :=
  build (.value []) (tokens text.toList)

/-! ### Passing over -/

/-- A container is passed over to its end. -/
def skipStop : Option Break → Except Fault Unit
  | none => .ok ()
  | some why => .error (.broken why.skipped)

mutual

/-- Pass over a tree. -/
def Tree.skip : Tree → Except Fault Unit
  | .list items stop => skipItems items stop
  | .record members stop => skipMembers members stop
  | .broken why => .error (.broken why.skipped)
  | _ => .ok ()

/-- Pass over items and the end of their list. -/
def skipItems : List Tree → Option Break → Except Fault Unit
  | [], stop => skipStop stop
  | tree :: rest, stop =>
    match tree.skip with
    | .error fault => .error fault
    | .ok () => skipItems rest stop

/-- Pass over members and the end of their record. -/
def skipMembers : List Member → Option Break → Except Fault Unit
  | [], stop => skipStop stop
  | (_, tree) :: rest, stop =>
    match tree.skip with
    | .error fault => .error fault
    | .ok () => skipMembers rest stop

end

end StagedQuery.Json
