/-
StagedQuery/Proofs/Presentation.lean

Ways to write one query.

A text can be rewritten without any change to the query in it.  Between its tokens
there can be any blanks; and in each of its records, at any depth, one step can

* put the members in another order,
* insert a member that is no field, with any value,
* insert a field that is left out, with the value that stands for it then,
* make the record a list of the values of its fields, or fill up one that is too short.

Which records there are is said by a `FieldForm` for each field: its name, the value
that stands for it where it is left out, and how the value itself can be rewritten.
`RecordStep` are the steps of a record with such fields, those in a value of a field
included, and `ItemStep` are steps in an item of a list.  Declared inputs are no record
with fields, so nothing in them is rewritten.  The name of a member is a text: a key in
which a surrogate stands alone spells none, and a record with it is not read.

A reader allows a step if it reads the same from both nodes (`Reader.Allows`).  For a
record this is put together from its fields (`Fits`).

Main statement: `ofText_rewritten`, in either form every text that holds a query writes
some node, and whatever this is rewritten to holds the same query, in any text that
writes it.
-/
import Mathlib.Logic.Relation
import StagedQuery.Proofs.Fields
import StagedQuery.Proofs.Node
import StagedQuery.Wire.Backend

namespace StagedQuery

namespace Json

/-! ### Steps -/

/-- A field of a record, as far as it matters to how the record can be written. -/
structure FieldForm where
  /-- Its name. -/
  name : String
  /-- The value that stands for it where it is left out, if it can be. -/
  absent : Option Node
  /-- How its value can be rewritten. -/
  step : Node → Node → Prop

/-- A value in which nothing is rewritten. -/
def Fixed (_ _ : Node) : Prop :=
  False

/-- An item of a list is rewritten. -/
inductive ItemStep (step : Node → Node → Prop) : Node → Node → Prop
  | item {before after : List Node} {value value' : Node} (h : step value value') :
      ItemStep step (.list (before ++ value :: after)) (.list (before ++ value' :: after))

/-- The name is not that of any member. -/
def Unused (name : String) (members : List (List Glyph × Node)) : Prop :=
  ∀ member ∈ members, valueOf? member.1 ≠ some name

/-- The value is that of the field, or stands for it where the field is left out. -/
def FieldForm.Stands (members : List (List Glyph × Node)) (form : FieldForm) (value : Node) :
    Prop :=
  (∃ key, valueOf? key = some form.name ∧ (key, value) ∈ members) ∨
    (Unused form.name members ∧ form.absent = some value)

/-- A record with these fields is rewritten. -/
inductive RecordStep (forms : List FieldForm) : Node → Node → Prop
  /-- The members come in another order. -/
  | permute {members others : List (List Glyph × Node)} (h : members.Perm others) :
      RecordStep forms (.record members) (.record others)
  /-- A member comes in under a name that is no field, however the name is spelled. -/
  | insert {before after : List (List Glyph × Node)} {key : List Glyph} {value : Node}
      {name : String} (hkey : valueOf? key = some name) (hname : ∀ form ∈ forms, form.name ≠ name) :
      RecordStep forms (.record (before ++ after)) (.record (before ++ (key, value) :: after))
  /-- A field that is left out comes in, with the value that stands for it. -/
  | absent {before after : List (List Glyph × Node)} {key : List Glyph} {value : Node}
      {form : FieldForm} (hform : form ∈ forms) (hkey : valueOf? key = some form.name)
      (hunused : Unused form.name (before ++ after)) (habsent : form.absent = some value) :
      RecordStep forms (.record (before ++ after)) (.record (before ++ (key, value) :: after))
  /-- The record becomes the list of the values of all fields. -/
  | positional {members : List (List Glyph × Node)} {values : List Node}
      (hvalues : List.Forall₂ (FieldForm.Stands members) forms values) :
      RecordStep forms (.record members) (.list values)
  /-- The record is a list that is too short, and becomes one of all fields. -/
  | fill {items values : List Node}
      (hvalues : List.Forall₂ (fun form value => form.absent = some value)
        (forms.drop items.length) values) :
      RecordStep forms (.list items) (.list (items ++ values))
  /-- The value of a field is rewritten where it is that of a member. -/
  | member {before after : List (List Glyph × Node)} {key : List Glyph} {value value' : Node}
      {form : FieldForm} (hform : form ∈ forms) (hkey : valueOf? key = some form.name)
      (h : form.step value value') :
      RecordStep forms (.record (before ++ (key, value) :: after))
        (.record (before ++ (key, value') :: after))
  /-- The value of a field is rewritten where it is told by its place. -/
  | place {before after : List Node} {value value' : Node} {form : FieldForm}
      (hform : forms[before.length]? = some form) (h : form.step value value') :
      RecordStep forms (.list (before ++ value :: after)) (.list (before ++ value' :: after))

/-! ### Readers that allow them -/

/-- What is read from a node is also read from what that is rewritten to. -/
def Reader.Allows {α : Type} (reader : Reader α) (step : Node → Node → Prop) : Prop :=
  ∀ node rewritten value, step node rewritten → reader node.tree = .ok value →
    reader rewritten.tree = .ok value

section Lists

variable {α : Type} {reader : Reader α} {step : Node → Node → Prop}

theorem Reader.allows_fixed (reader : Reader α) : reader.Allows Fixed :=
  fun _ _ _ h => h.elim

/-- An item can be another one that is read the same. -/
theorem Reader.items_value {before after : List Tree} {tree tree' : Tree} {values : List α}
    (hsame : ∀ value, reader tree = .ok value → reader tree' = .ok value)
    (hread : items reader (before ++ tree :: after) none = .ok values) :
    items reader (before ++ tree' :: after) none = .ok values := by
  induction before generalizing values with
  | nil =>
    rw [List.nil_append, items] at hread ⊢
    split at hread
    · cases hread
    · next value hvalue => simp only [hsame value hvalue, hread]
  | cons item before ih =>
    rw [List.cons_append, items] at hread ⊢
    split at hread
    · cases hread
    · obtain ⟨rest, hrest, rfl⟩ := map_eq_ok_iff.1 hread
      rw [ih hrest]
      rfl

theorem Reader.Allows.list (h : reader.Allows step) :
    (Reader.list reader).Allows (ItemStep step) := by
  rintro _ _ values ⟨hstep⟩ hread
  simp only [Node.tree, nodeTrees_eq_map, List.map_append, List.map_cons] at hread ⊢
  exact Reader.items_value (fun value => h _ _ value hstep) hread

/-- Any number of steps. -/
theorem Reader.Allows.reflTransGen (h : reader.Allows step) :
    reader.Allows (Relation.ReflTransGen step) := by
  intro node rewritten value hsteps hread
  induction hsteps with
  | refl => exact hread
  | tail _ hstep ih => exact h _ _ _ hstep ih

end Lists

/-! ### Records -/

section Records

open RecordField

variable {α : Type} {forms : List FieldForm} {fields : List (RecordField α)} {initial : α}

/-- The field is as its form says. -/
structure Fits (initial : α) (form : FieldForm) (field : RecordField α) : Prop where
  /-- The name is the same. -/
  name : form.name = field.name
  /-- What stands for it where it is left out leaves the record as it is at first. -/
  absent : ∀ value, form.absent = some value → field.take value.tree initial = .ok initial
  /-- What its value is rewritten to is taken to the same effect. -/
  step : ∀ value value', form.step value value' → ∀ start next,
    field.take value.tree start = .ok next → field.take value'.tree start = .ok next

theorem Fits.of {β : Type} {form : FieldForm} {reader : Reader β} {wanted : Bool}
    {put : β → α → α} (hallows : reader.Allows form.step)
    (habsent : ∀ value, form.absent = some value →
      ∃ read, reader value.tree = .ok read ∧ put read initial = initial) :
    Fits initial form (.of form.name wanted reader put) := by
  refine ⟨rfl, fun value hvalue => map_eq_ok_iff.2 (habsent value hvalue), ?_⟩
  intro value value' hstep start next htake
  obtain ⟨read, hread, hput⟩ := map_eq_ok_iff.1 htake
  exact map_eq_ok_iff.2 ⟨read, hallows _ _ _ hstep hread, hput⟩

/-- Each form is that of the field at its place. -/
theorem exists_fits (hfits : List.Forall₂ (Fits initial) forms fields) {index : Nat}
    {form : FieldForm} (hform : forms[index]? = some form) :
    ∃ field, fields[index]? = some field ∧ Fits initial form field := by
  obtain ⟨hlength, hget⟩ := List.forall₂_iff_get.1 hfits
  obtain ⟨hindex, rfl⟩ := List.getElem?_eq_some_iff.1 hform
  have hindex' : index < fields.length := hlength ▸ hindex
  exact ⟨fields[index], List.getElem?_eq_getElem hindex', hget index hindex hindex'⟩

theorem exists_fits_of_mem (hfits : List.Forall₂ (Fits initial) forms fields) {form : FieldForm}
    (hform : form ∈ forms) : ∃ field ∈ fields, Fits initial form field := by
  obtain ⟨index, hindex⟩ := List.mem_iff_getElem?.1 hform
  obtain ⟨field, hfield, hfit⟩ := exists_fits hfits hindex
  exact ⟨field, List.mem_of_getElem? hfield, hfit⟩

theorem names_of_fits (hfits : List.Forall₂ (Fits initial) forms fields) :
    forms.map FieldForm.name = fields.map RecordField.name := by
  induction hfits with
  | nil => rfl
  | cons hfit _ ih => rw [List.map_cons, List.map_cons, hfit.name, ih]

/-- What values are to the forms, they are to the fields. -/
theorem forall₂_of_fits {R : FieldForm → Node → Prop} {S : RecordField α → Tree → Prop}
    {values : List Node} (hfits : List.Forall₂ (Fits initial) forms fields)
    (hvalues : List.Forall₂ R forms values)
    (h : ∀ form, ∀ field ∈ fields, ∀ value, Fits initial form field → R form value →
      S field value.tree) :
    List.Forall₂ S fields (nodeTrees values) := by
  induction hfits generalizing values with
  | nil =>
    cases hvalues
    exact .nil
  | cons hfit _ ih =>
    obtain _ | ⟨hvalue, hvalues⟩ := hvalues
    exact .cons (h _ _ List.mem_cons_self _ hfit hvalue)
      (ih hvalues fun form field hfield => h form field (List.mem_cons_of_mem _ hfield))

/-- A name that is none of the forms is none of the fields. -/
theorem name_ne_of_fits (hfits : List.Forall₂ (Fits initial) forms fields) {name : String}
    (hname : ∀ form ∈ forms, form.name ≠ name) : ∀ field ∈ fields, field.name ≠ name := by
  intro field hfield hsame
  have hmem : name ∈ forms.map FieldForm.name := by
    rw [names_of_fits hfits, ← hsame]
    exact List.mem_map_of_mem hfield
  obtain ⟨form, hform, hform'⟩ := List.mem_map.1 hmem
  exact hname form hform hform'

/-- The members of a node, as the reader of a record is given them. -/
def readable (members : List (List Glyph × Node)) : List (Option String × Tree) :=
  members.map fun member => (valueOf? member.1, member.2.tree)

theorem occurrences_readable {members : List (List Glyph × Node)} {name : String}
    (h : Unused name members) : occurrences (readable members) name = 0 := by
  rw [readable, occurrences_eq_zero_iff, List.forall_mem_map]
  exact h

theorem record_members_iff {members : List (List Glyph × Node)} {result : α} :
    Reader.record fields initial (Node.record members).tree = .ok result ↔
      readMembers fields none (readable members) [] initial = .ok result := by
  rw [Node.tree, nodeMembers_eq_map]
  rfl

theorem record_items_iff {items : List Node} {result : α} :
    Reader.record fields initial (Node.list items).tree = .ok result ↔
      readItems none fields (items.map Node.tree) initial = .ok result := by
  rw [Node.tree, nodeTrees_eq_map]
  rfl

/-- A record is read the same where the values of all its fields are listed. -/
theorem readItems_of_stands (hfields : Independent fields)
    (hfits : List.Forall₂ (Fits initial) forms fields) {members : List (List Glyph × Node)}
    {values : List Node} {result : α}
    (hvalues : List.Forall₂ (FieldForm.Stands members) forms values)
    (hread : readMembers fields none (readable members) [] initial = .ok result) :
    readItems none fields (values.map Node.tree) initial = .ok result := by
  obtain ⟨hadmits, htakes⟩ := (readMembers_eq_ok_iff hfields).1 hread
  rw [← nodeTrees_eq_map]
  refine readItems_of_takes hfields (forall₂_of_fits hfits hvalues ?_) htakes
  intro form field hfield value hfit hstands
  rcases hstands with ⟨key, hkey, hmem⟩ | ⟨hunused, habsent⟩
  · refine .inl (valueIn_eq_some ?_ (hadmits.comes field hfield).once)
    rw [← hfit.name, ← hkey]
    exact List.mem_map_of_mem hmem
  · refine .inr ⟨valueIn_eq_none ?_, hfit.absent value habsent⟩
    rw [← hfit.name]
    exact occurrences_readable hunused

/-- **A record can be rewritten** if its fields are as their forms say. -/
theorem Reader.Allows.record (hfields : Independent fields)
    (hfits : List.Forall₂ (Fits initial) forms fields) :
    (Reader.record fields initial).Allows (RecordStep forms) := by
  intro node rewritten result hstep hread
  cases hstep with
  | permute h =>
    rw [record_members_iff] at hread ⊢
    exact readMembers_perm hfields (h.map _) hread
  | @insert before after key value name hkey hname =>
    rw [record_members_iff, readable, List.map_append] at hread ⊢
    rw [List.map_cons, readMembers_middle_iff hfields, hkey]
    exact readMembers_cons_other (name_ne_of_fits hfits hname) value.isSound_tree hread
  | @absent before after key value form hform hkey hunused habsent =>
    obtain ⟨field, hfield, hfit⟩ := exists_fits_of_mem hfits hform
    have hnone := occurrences_readable hunused
    rw [hfit.name] at hnone
    rw [record_members_iff, readable, List.map_append] at hread ⊢
    rw [readable, List.map_append] at hnone
    rw [List.map_cons, readMembers_middle_iff hfields, hkey, hfit.name]
    exact readMembers_cons_absent hfields hfield (hfit.absent value habsent) hnone hread
  | positional hvalues =>
    rw [record_members_iff] at hread
    exact record_items_iff.2 (readItems_of_stands hfields hfits hvalues hread)
  | @fill items values hvalues =>
    rw [record_items_iff] at hread ⊢
    rw [List.map_append, ← nodeTrees_eq_map values]
    refine readItems_append hfields ?_ hread
    rw [List.length_map]
    exact forall₂_of_fits (List.forall₂_drop items.length hfits) hvalues
      fun form field _ value hfit habsent => hfit.absent value habsent
  | @member before after key value value' form hform hkey h =>
    obtain ⟨field, hfield, hfit⟩ := exists_fits_of_mem hfits hform
    rw [record_members_iff, readable, List.map_append, List.map_cons,
      readMembers_middle_iff hfields, hkey, hfit.name] at hread ⊢
    exact readMembers_cons_value hfield hfields (hfit.step value value' h) hread
  | @place before after value value' form hform h =>
    obtain ⟨field, hfield, hfit⟩ := exists_fits hfits hform
    rw [record_items_iff, List.map_append, List.map_cons] at hread ⊢
    refine readItems_value ?_ (hfit.step value value' h) hread
    rwa [List.length_map]

end Records

/-! ### Texts -/

section Texts

variable {α : Type} {reader : Reader α} {step : Node → Node → Prop} {text : String} {value : α}

theorem Reader.run_eq_ok_iff :
    reader.run text = .ok value ↔
      reader (document text).tree = .ok value ∧ (document text).trailing = false := by
  rw [Reader.run]
  cases reader (document text).tree <;> cases (document text).trailing <;> simp

/-- A text that can be read writes a node, and all that this is rewritten to is read the
same. -/
theorem Reader.Allows.run (h : reader.Allows step) (hsound : reader.OfSound)
    (hread : reader.run text = .ok value) :
    (∃ node, Writes text node) ∧
      ∀ node rewritten text', Writes text node → Relation.ReflTransGen step node rewritten →
        Writes text' rewritten → reader.run text' = .ok value := by
  obtain ⟨htree, htrailing⟩ := run_eq_ok_iff.1 hread
  refine ⟨exists_writes ⟨hsound _ _ htree, htrailing⟩, ?_⟩
  intro node rewritten text' hwrites hsteps hwrites'
  rw [hwrites.document] at htree
  rw [run_eq_ok_iff, hwrites'.document]
  exact ⟨h.reflTransGen node rewritten value hsteps htree, rfl⟩

end Texts

end Json

open Json

/-! ### Surface queries -/

namespace Surface

/-- The fields of a stage; it may lack any of them. -/
def Stage.forms : List FieldForm :=
  [⟨"alias", some .null, Fixed⟩, ⟨"input", some .null, Fixed⟩,
    ⟨"pipeline", some (.string []), Fixed⟩]

/-- The fields of a query; it may lack either. -/
def Query.forms : List FieldForm :=
  [⟨"inputs", some (.record []), Fixed⟩,
    ⟨"stages", some (.list []), ItemStep (RecordStep Stage.forms)⟩]

theorem Stage.independent_fields : RecordField.Independent Stage.fields :=
  RecordField.independent_triple (RecordField.apart_of (by decide) fun _ _ _ => rfl)
    (RecordField.apart_of (by decide) fun _ _ _ => rfl)
    (RecordField.apart_of (by decide) fun _ _ _ => rfl)

theorem Query.independent_fields : RecordField.Independent Query.fields :=
  RecordField.independent_pair (RecordField.apart_of (by decide) fun _ _ _ => rfl)

theorem Stage.allows : Stage.reader.Allows (RecordStep Stage.forms) := by
  refine .record Stage.independent_fields (.cons ?_ (.cons ?_ (.cons ?_ .nil)))
  · exact .of (Reader.allows_fixed _) fun _ h => by cases h; exact ⟨_, rfl, rfl⟩
  · exact .of (Reader.allows_fixed _) fun _ h => by cases h; exact ⟨_, rfl, rfl⟩
  · exact .of (Reader.allows_fixed _) fun _ h => by cases h; exact ⟨_, rfl, rfl⟩

theorem Query.allows : Query.reader.Allows (RecordStep Query.forms) := by
  refine .record Query.independent_fields (.cons ?_ (.cons ?_ .nil))
  · exact .of (Reader.allows_fixed _) fun _ h => by cases h; exact ⟨_, rfl, rfl⟩
  · exact .of Stage.allows.list fun _ h => by cases h; exact ⟨_, rfl, rfl⟩

theorem Stage.ofSound : Stage.reader.OfSound :=
  .record (List.forall_mem_cons.2 ⟨Reader.OfSound.text.optional.field _ _ _,
    List.forall_mem_cons.2 ⟨Reader.OfSound.text.optional.field _ _ _,
      List.forall_mem_singleton.2 (Reader.OfSound.text.field _ _ _)⟩⟩) _

theorem Query.ofSound : Query.reader.OfSound :=
  .record (List.forall_mem_cons.2 ⟨(Reader.OfSound.text.mapping.map Inputs.ofList).field _ _ _,
    List.forall_mem_singleton.2 (Stage.ofSound.list.field _ _ _)⟩) _

end Surface

/-! ### Backend queries -/

namespace Backend

/-- The fields of an input; it may lack its targets. -/
def Input.forms : List FieldForm :=
  [⟨"inputName", none, Fixed⟩, ⟨"datasetId", some .null, Fixed⟩, ⟨"stageId", some .null, Fixed⟩]

/-- The fields of a stage. -/
def Stage.forms : List FieldForm :=
  [⟨"id", none, Fixed⟩, ⟨"pipeline", none, Fixed⟩,
    ⟨"input", none, ItemStep (RecordStep Input.forms)⟩]

/-- The fields of a query. -/
def Query.forms : List FieldForm :=
  [⟨"outputStage", none, Fixed⟩, ⟨"stages", none, ItemStep (RecordStep Stage.forms)⟩]

theorem Input.independent_fields : RecordField.Independent Input.fields :=
  RecordField.independent_triple (RecordField.apart_of (by decide) fun _ _ _ => rfl)
    (RecordField.apart_of (by decide) fun _ _ _ => rfl)
    (RecordField.apart_of (by decide) fun _ _ _ => rfl)

theorem Stage.independent_fields : RecordField.Independent Stage.fields :=
  RecordField.independent_triple (RecordField.apart_of (by decide) fun _ _ _ => rfl)
    (RecordField.apart_of (by decide) fun _ _ _ => rfl)
    (RecordField.apart_of (by decide) fun _ _ _ => rfl)

theorem Query.independent_fields : RecordField.Independent Query.fields :=
  RecordField.independent_pair (RecordField.apart_of (by decide) fun _ _ _ => rfl)

theorem Input.allows : Input.reader.Allows (RecordStep Input.forms) := by
  refine .record Input.independent_fields (.cons ?_ (.cons ?_ (.cons ?_ .nil)))
  · exact .of (Reader.allows_fixed _) nofun
  · exact .of (Reader.allows_fixed _) fun _ h => by cases h; exact ⟨_, rfl, rfl⟩
  · exact .of (Reader.allows_fixed _) fun _ h => by cases h; exact ⟨_, rfl, rfl⟩

theorem Stage.allows : Stage.reader.Allows (RecordStep Stage.forms) := by
  refine .record Stage.independent_fields (.cons ?_ (.cons ?_ (.cons ?_ .nil)))
  · exact .of (Reader.allows_fixed _) nofun
  · exact .of (Reader.allows_fixed _) nofun
  · exact .of Input.allows.list nofun

theorem Query.allows : Query.reader.Allows (RecordStep Query.forms) := by
  refine .record Query.independent_fields (.cons ?_ (.cons ?_ .nil))
  · exact .of (Reader.allows_fixed _) nofun
  · exact .of Stage.allows.list nofun

theorem Input.ofSound : Input.reader.OfSound :=
  .record (List.forall_mem_cons.2 ⟨Reader.OfSound.text.field _ _ _,
    List.forall_mem_cons.2 ⟨Reader.OfSound.text.optional.field _ _ _,
      List.forall_mem_singleton.2 (Reader.OfSound.text.optional.field _ _ _)⟩⟩) _

theorem Stage.ofSound : Stage.reader.OfSound :=
  .record (List.forall_mem_cons.2 ⟨Reader.OfSound.text.field _ _ _,
    List.forall_mem_cons.2 ⟨Reader.OfSound.text.field _ _ _,
      List.forall_mem_singleton.2 (Input.ofSound.list.field _ _ _)⟩⟩) _

theorem Query.ofSound : Query.reader.OfSound :=
  .record (List.forall_mem_cons.2 ⟨Reader.OfSound.text.field _ _ _,
    List.forall_mem_singleton.2 (Stage.ofSound.list.field _ _ _)⟩) _

end Backend

/-- **What is read does not depend on how it is written.**  A text that holds a query
writes a node; it holds the same query with other blanks between its tokens, and after
any steps in its records. -/
theorem ofText_rewritten :
    (∀ text query, Surface.Query.ofText text = .ok query →
      (∃ node, Writes text node) ∧
        ∀ node rewritten text', Writes text node →
          Relation.ReflTransGen (RecordStep Surface.Query.forms) node rewritten →
            Writes text' rewritten → Surface.Query.ofText text' = .ok query) ∧
      ∀ text query, Backend.Query.ofText text = .ok query →
        (∃ node, Writes text node) ∧
          ∀ node rewritten text', Writes text node →
            Relation.ReflTransGen (RecordStep Backend.Query.forms) node rewritten →
              Writes text' rewritten → Backend.Query.ofText text' = .ok query :=
  ⟨fun _ _ => Surface.Query.allows.run Surface.Query.ofSound,
    fun _ _ => Backend.Query.allows.run Backend.Query.ofSound⟩

/-- Whether a character can stand in a string as it is. -/
def standsRaw (c : Char) : Bool :=
  c ≠ '"' && c ≠ '\\' && 0x20 ≤ c.toNat

/-- The glyph of such a character. -/
def rawGlyph (c : Char) (h : standsRaw c = true) : Glyph :=
  have hall : (c ≠ '"' ∧ c ≠ '\\') ∧ 0x20 ≤ c.toNat := by simpa [standsRaw] using h
  .raw c hall.1.1 hall.1.2 hall.2

/-- The glyphs of a text of such characters. -/
def glyphsOf (text : String) (h : text.toList.all standsRaw = true := by decide) : List Glyph :=
  text.toList.pmap rawGlyph (List.all_eq_true.1 h)

/-- A query of one stage, as members. -/
def plainNode : Node :=
  .record [(glyphsOf "stages", .list [.record [(glyphsOf "pipeline", .string (glyphsOf "sort"))]])]

/-- The same query: its stage is a list, and before its stages stands a member that is no
field. -/
def dressedNode : Node :=
  .record [(glyphsOf "v", .list [.bool true]),
    (glyphsOf "stages", .list [.list [.null, .null, .string (glyphsOf "sort")]])]

/-- A text that writes the first. -/
def plainText : String :=
  "\x7b\"stages\":[\x7b\"pipeline\":\"sort\"\x7d]\x7d"

/-- A text that writes the second, with blanks. -/
def dressedText : String :=
  "\n\x7b \"v\":[true],\"stages\":[[null,null,\"sort\"]]\x7d"

/-- Two steps and a few blanks lead from one text to the other. -/
theorem plain_rewritten :
    Surface.Query.ofText plainText = .ok ⟨.empty, [⟨none, none, "sort"⟩]⟩ ∧
      Writes plainText plainNode ∧
      Relation.ReflTransGen (RecordStep Surface.Query.forms) plainNode dressedNode ∧
      Writes dressedText dressedNode ∧
      Surface.Query.ofText dressedText = .ok ⟨.empty, [⟨none, none, "sort"⟩]⟩ := by
  have hread : Surface.Query.ofText plainText = .ok ⟨.empty, [⟨none, none, "sort"⟩]⟩ := by
    decide +kernel
  have hplain : Writes plainText plainNode := plainNode.writes_text
  have hdressed : Writes dressedText dressedNode :=
    @Spaced.spelling ['\n'] _ _ _ (by decide +kernel) (Spaced.blank rfl (spaced_flatMap _))
  -- the stage has no alias and no input, for which the empty value stands
  have hstage : RecordStep Surface.Stage.forms
      (.record [(glyphsOf "pipeline", .string (glyphsOf "sort"))])
      (.list [.null, .null, .string (glyphsOf "sort")]) :=
    .positional (.cons (.inr ⟨List.forall_mem_singleton.2 (by decide +kernel), rfl⟩)
      (.cons (.inr ⟨List.forall_mem_singleton.2 (by decide +kernel), rfl⟩)
        (.cons (.inl ⟨_, by decide +kernel, List.mem_singleton_self _⟩) .nil)))
  have hmember : RecordStep Surface.Query.forms plainNode
      (.record [(glyphsOf "stages", .list [.list [.null, .null, .string (glyphsOf "sort")]])]) :=
    @RecordStep.member _ [] [] _ _ _ _ (List.mem_cons_of_mem _ List.mem_cons_self)
      (by decide +kernel) (@ItemStep.item _ [] [] _ _ hstage)
  have hsteps : Relation.ReflTransGen (RecordStep Surface.Query.forms) plainNode dressedNode :=
    .tail (.single hmember) (@RecordStep.insert _ [] _ _ _ "v" (by decide +kernel)
      (by decide +kernel))
  exact ⟨hread, hplain, hsteps, hdressed,
    (ofText_rewritten.1 _ _ hread).2 _ _ _ hplain hsteps hdressed⟩

end StagedQuery
