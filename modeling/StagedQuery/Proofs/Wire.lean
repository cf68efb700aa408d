/-
StagedQuery/Proofs/Wire.lean

Queries read back from the text they are written as.

A reader inverts a way to write when it gives back every value from the tree of
its document (`Reader.Inverts`).  This goes through lists, mappings and records.
A record is written in the order of its fields, some of which may be left out;
`Written` says that, and what taking the values in turn makes of a record, so that
a record is read back whichever members it has (`readMembers_of_written`).

Declared inputs are written by increasing name, so that reading them declares each
name once (`Inputs.ofList_entries`).

Main statement: `read_rendered`, every query in either form is read back from its
text in either layout.
-/
import StagedQuery.Cli.Conversion
import StagedQuery.Proofs.Document

namespace StagedQuery

namespace Json

/-! ### Values and lists -/

namespace Reader

variable {α : Type} {reader : Reader α} {toDoc : α → Doc}

/-- The reader gives back every value that is written. -/
def Inverts (reader : Reader α) (toDoc : α → Doc) : Prop :=
  ∀ value, reader (toDoc value).tree = .ok value

theorem inverts_text : text.Inverts .text :=
  fun _ => rfl

/-- A list is read back item by item. -/
theorem Inverts.list (h : reader.Inverts toDoc) :
    (Reader.list reader).Inverts fun values => .list (values.map toDoc) := by
  intro values
  show items reader (itemTrees (values.map toDoc)) none = .ok values
  induction values with
  | nil => rfl
  | cons value rest ih => rw [List.map_cons, itemTrees, items, h, ih]; rfl

/-- A mapping is read back pair by pair. -/
theorem Inverts.mapping (h : reader.Inverts toDoc) :
    (Reader.mapping reader).Inverts fun entries =>
      .record (entries.map fun entry => (entry.1, toDoc entry.2)) := by
  intro entries
  show pairs reader (memberTrees (entries.map fun entry => (entry.1, toDoc entry.2))) none =
    .ok entries
  induction entries with
  | nil => rfl
  | cons entry rest ih => rw [List.map_cons, memberTrees, pairs, h, ih]; rfl

/-- A value is read back from its text. -/
theorem Inverts.run_render (h : reader.Inverts toDoc) {layout : Layout} (hblank : layout.Blank)
    (value : α) : reader.run ((toDoc value).render layout) = .ok value := by
  rw [run, document_render hblank, h]
  rfl

end Reader

/-! ### Records -/

section Record

variable {α β : Type} {fields : List (RecordField α)} {members : List (String × Doc)}
  {record result : α}

/-- The members are those of the fields in their order, some that are not wanted
left out; taking their values makes `result` of `record`. -/
inductive Written : List (RecordField α) → List (String × Doc) → α → α → Prop
  | nil {record : α} : Written [] [] record record
  | member {field : RecordField α} {fields : List (RecordField α)} {value : Doc}
      {members : List (String × Doc)} {record next result : α}
      (htake : field.take value.tree record = .ok next)
      (hrest : Written fields members next result) :
      Written (field :: fields) ((field.name, value) :: members) record result
  | omitted {field : RecordField α} {fields : List (RecordField α)}
      {members : List (String × Doc)} {record result : α} (hwanted : field.wanted = false)
      (hrest : Written fields members record result) :
      Written (field :: fields) members record result

theorem Written.of {name : String} {wanted : Bool} {reader : Reader β} {toDoc : β → Doc}
    {put : β → α → α} (h : reader.Inverts toDoc) (value : β)
    (hrest : Written fields members (put value record) result) :
    Written (.of name wanted reader put :: fields) ((name, toDoc value) :: members) record
      result := by
  have htake : (RecordField.of name wanted reader put).take (toDoc value).tree record =
      .ok (put value record) := by
    show (reader (toDoc value).tree).map (put · record) = _
    rw [h]
    rfl
  exact .member htake hrest

/-- A member that is left out leaves the record as it is. -/
theorem Written.optional {name : String} {put : Option String → α → α} (value : Option String)
    (habsent : put none record = record)
    (hrest : Written fields members (put value record) result) :
    Written (.of name false (Reader.optional Reader.text) put :: fields)
      (optionalMember name value ++ members) record result := by
  cases value with
  | none =>
    rw [habsent] at hrest
    exact .omitted rfl hrest
  | some value =>
    have htake : (RecordField.of name false (Reader.optional Reader.text) put).take
        (Doc.text value).tree record = .ok (put (some value) record) := rfl
    exact .member htake hrest

/-- The field at a place is found by its name, where names differ. -/
theorem find?_append_cons {before after : List (RecordField α)} {field : RecordField α}
    (hnew : ∀ other ∈ before, other.name ≠ field.name) :
    RecordField.find? (before ++ field :: after) field.name = some field := by
  have hbefore : before.find? (fun other => other.name = field.name) = none := by
    simpa [List.find?_eq_none] using hnew
  rw [RecordField.find?, List.find?_append, hbefore, Option.none_or, List.find?_cons_of_pos]
  simp

/-- The names seen are those of the fields before a place, some that are not wanted
left out. -/
structure SeenOf (before : List (RecordField α)) (seen : List String) : Prop where
  /-- Only fields are seen. -/
  mem_names : ∀ name ∈ seen, name ∈ before.map (·.name)
  /-- All that are wanted are seen. -/
  mem_seen : ∀ field ∈ before, field.wanted = true → field.name ∈ seen

namespace SeenOf

variable {before : List (RecordField α)} {seen : List String} {field : RecordField α}

theorem nil : SeenOf ([] : List (RecordField α)) [] :=
  ⟨fun _ hname => absurd hname List.not_mem_nil, fun _ hfield => absurd hfield List.not_mem_nil⟩

theorem member (h : SeenOf before seen) : SeenOf (before ++ [field]) (field.name :: seen) := by
  refine ⟨fun name hname => ?_, fun other hother hwanted => ?_⟩
  · rw [List.map_append, List.mem_append]
    rcases List.mem_cons.1 hname with rfl | hname
    · exact .inr List.mem_cons_self
    · exact .inl (h.mem_names name hname)
  · rcases List.mem_append.1 hother with hother | hother
    · exact List.mem_cons_of_mem _ (h.mem_seen other hother hwanted)
    · rw [List.mem_singleton.1 hother]
      exact List.mem_cons_self

theorem omitted (h : SeenOf before seen) (hunwanted : field.wanted = false) :
    SeenOf (before ++ [field]) seen := by
  refine ⟨fun name hname => ?_, fun other hother hwanted => ?_⟩
  · rw [List.map_append, List.mem_append]
    exact .inl (h.mem_names name hname)
  · rcases List.mem_append.1 hother with hother | hother
    · exact h.mem_seen other hother hwanted
    · rw [List.mem_singleton.1 hother, hunwanted] at hwanted
      cases hwanted

/-- At the end no field is missing. -/
theorem missing?_eq_none (h : SeenOf before seen) : RecordField.missing? before seen = none := by
  rw [RecordField.missing?, List.find?_eq_none]
  simpa using h.mem_seen

end SeenOf

/-- What is written of the fields from a place on is read back there.  Names differ,
so that the name of each member is that of one field, and new. -/
theorem readMembers_of_written {before : List (RecordField α)} {seen : List String}
    (hnodup : ((before ++ fields).map (·.name)).Nodup) (hseen : SeenOf before seen)
    (h : Written fields members record result) :
    RecordField.readMembers (before ++ fields) none (memberTrees members) seen record =
      .ok result := by
  induction h generalizing before seen with
  | nil =>
    rw [List.append_nil, memberTrees, RecordField.readMembers, hseen.missing?_eq_none]
  | @member field fields value members record next result htake _ ih =>
    have hnew : ∀ name ∈ before.map (·.name), name ≠ field.name := by
      rw [List.map_append, List.map_cons, List.nodup_append] at hnodup
      exact fun name hname => hnodup.2.2 name hname field.name List.mem_cons_self
    have hunseen : field.name ∉ seen := fun hmem =>
      hnew field.name (hseen.mem_names field.name hmem) rfl
    have hfind : RecordField.find? (before ++ field :: fields) field.name = some field :=
      find?_append_cons fun other hother => hnew other.name (List.mem_map_of_mem hother)
    -- the field joins those before the place, and its name those seen
    rw [List.append_cons] at hnodup
    have hrest := ih hnodup hseen.member
    rw [← List.append_cons] at hrest
    rw [memberTrees, RecordField.readMembers, hfind]
    simp only [hunseen, if_false, htake, hrest]
  | @omitted field fields members record result hunwanted _ ih =>
    rw [List.append_cons] at hnodup ⊢
    exact ih hnodup (hseen.omitted hunwanted)

/-- A record is read back, whichever members it has. -/
theorem record_of_written {initial : α} (hnodup : (fields.map (·.name)).Nodup)
    (h : Written fields members initial result) :
    Reader.record fields initial (Doc.record members).tree = .ok result := by
  have hread : RecordField.readMembers ([] ++ fields) none (memberTrees members) [] initial =
      .ok result :=
    readMembers_of_written hnodup .nil h
  exact hread

end Record

end Json

/-! ### Surface queries -/

open Json

/-- Entries under names that are free are declared beside what is. -/
theorem Inputs.mem_foldl_insert {entries : List (String × String)}
    (hincreasing : Increasing entries) {inputs : Inputs}
    (hfree : ∀ entry ∈ entries, inputs.get? entry.1 = none)
    {entry : String × String} :
    entry ∈ (entries.foldl (fun inputs entry => inputs.insert entry.1 entry.2) inputs).entries ↔
      entry ∈ inputs.entries ∨ entry ∈ entries := by
  induction entries generalizing inputs with
  | nil => simp
  | cons first rest ih =>
    obtain ⟨hfirst, hrest⟩ := List.forall_mem_cons.1 hfree
    have hfree' : ∀ other ∈ rest, (inputs.insert first.1 first.2).get? other.1 = none := by
      intro other hother
      have hlt := lt_of_mem_rest hincreasing hother
      refine Inputs.get?_eq_none_iff.2 fun reference hmem => ?_
      rcases (Inputs.mem_insert_of_get?_eq_none hfirst).1 hmem with heq | hmem
      · obtain ⟨hname, -⟩ := Prod.mk.inj heq
        exact String.lt_irrefl _ (hname ▸ hlt)
      · exact Inputs.get?_eq_none_iff.1 (hrest other hother) reference hmem
    rw [List.foldl_cons, ih hincreasing.rest hfree', Inputs.mem_insert_of_get?_eq_none hfirst,
      List.mem_cons]
    exact (or_congr_left or_comm).trans or_assoc

/-- The entries of declared inputs declare them again. -/
theorem Inputs.ofList_entries (inputs : Inputs) : Inputs.ofList inputs.entries = inputs := by
  apply Inputs.ext_entries
  intro entry
  rw [Inputs.ofList, Inputs.mem_foldl_insert inputs.increasing fun _ _ => rfl]
  exact or_iff_right List.not_mem_nil

theorem Inputs.inverts : Inputs.reader.Inverts Inputs.toDoc := by
  intro inputs
  have hpairs : Reader.mapping Reader.text inputs.toDoc.tree = .ok inputs.entries :=
    Reader.inverts_text.mapping inputs.entries
  rw [Inputs.reader, hpairs]
  exact congrArg Except.ok inputs.ofList_entries

namespace Surface

theorem Stage.inverts : Stage.reader.Inverts Stage.toDoc := by
  intro stage
  -- the members follow the fields, one step for each
  refine record_of_written (by decide) ?_
  rw [List.append_assoc]
  exact .optional stage.aliasName rfl (.optional stage.inputName rfl
    (.of Reader.inverts_text stage.pipeline .nil))

theorem Query.inverts : Query.reader.Inverts Query.toDoc := fun query =>
  record_of_written (by decide)
    (.of Inputs.inverts query.inputs (.of Stage.inverts.list query.stages .nil))

end Surface

/-! ### Backend queries -/

namespace Backend

theorem Input.inverts : Input.reader.Inverts Input.toDoc := by
  intro input
  have hmembers : input.toDoc = .record (("inputName", .text input.name) ::
      (optionalMember "datasetId" input.datasetId ++
        (optionalMember "stageId" input.stageId ++ []))) := by
    rw [List.append_nil, Input.toDoc]
  rw [hmembers]
  exact record_of_written (by decide) (.of Reader.inverts_text input.name
    (.optional input.datasetId rfl (.optional input.stageId rfl .nil)))

theorem Stage.inverts : Stage.reader.Inverts Stage.toDoc := fun stage =>
  record_of_written (by decide) (.of Reader.inverts_text stage.id
    (.of Reader.inverts_text stage.pipeline (.of Input.inverts.list stage.inputs .nil)))

theorem Query.inverts : Query.reader.Inverts Query.toDoc := fun query =>
  record_of_written (by decide) (.of Reader.inverts_text query.output
    (.of Stage.inverts.list query.stages .nil))

end Backend

/-! ### Texts -/

theorem Cli.blank_layoutOf (pretty : Bool) : (layoutOf pretty).Blank := by
  cases pretty
  · exact Layout.blank_compact
  · exact Layout.blank_indented

theorem Surface.Query.ofText_render (query : Surface.Query) {layout : Layout}
    (hblank : layout.Blank) : Surface.Query.ofText (query.render layout) = .ok query :=
  Surface.Query.inverts.run_render hblank query

theorem Backend.Query.ofText_render (query : Backend.Query) {layout : Layout}
    (hblank : layout.Blank) : Backend.Query.ofText (query.render layout) = .ok query :=
  Backend.Query.inverts.run_render hblank query

/-- **Every query is read back from its text**, in either form and layout. -/
theorem read_rendered (pretty : Bool) :
    (∀ query : Surface.Query,
      Surface.Query.ofText (query.render (Cli.layoutOf pretty)) = .ok query) ∧
    ∀ query : Backend.Query,
      Backend.Query.ofText (query.render (Cli.layoutOf pretty)) = .ok query :=
  ⟨fun query => query.ofText_render (Cli.blank_layoutOf pretty),
    fun query => query.ofText_render (Cli.blank_layoutOf pretty)⟩

end StagedQuery
