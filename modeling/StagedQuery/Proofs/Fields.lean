/-
StagedQuery/Proofs/Fields.lean

Records field by field.

A record is read from members in the order in which they stand, or from a list in the
order of the fields.  What is read depends on neither: it is made of the values of the
fields, taken in the order of the fields,

    Takes (valueIn members) fields initial result,

as long as taking the value of one field and of another can be done in either order
(`Commutes`).  For members this is an induction over them: the first member is taken
first, and is moved to the place of its field past the fields before it
(`takes_iff_exists`).

So two records that give their fields the same values are read the same.  The value of
a field can also be another that is always taken to the same effect
(`readMembers_cons_value`, `readItems_value`), and a field that is left out can come with
one whose taking leaves the initial record as it is (`readMembers_cons_absent`,
`readItems_append`).  That it leaves any record it comes to as it is follows, since taking
it commutes with all that was taken before it (`take_self_of_commutes`).

Main statements: `readMembers_eq_ok_iff`, when members are read and as what;
`readMembers_perm`, in whatever order they stand; and `readItems_of_takes`, a list of the
values of all fields is read as the members are.
-/
import Mathlib.Data.List.Forall2
import StagedQuery.Proofs.Sound

namespace StagedQuery.Json

namespace RecordField

variable {α β : Type}

/-! ### Fields that do not depend on each other -/

/-- Two values can be taken in either order. -/
def Commutes (field other : RecordField α) : Prop :=
  ∀ tree tree' start result,
    (∃ next, field.take tree start = .ok next ∧ other.take tree' next = .ok result) ↔
      ∃ next, other.take tree' start = .ok next ∧ field.take tree next = .ok result

/-- The fields have different names, and their values can be taken in any order. -/
def Independent (fields : List (RecordField α)) : Prop :=
  fields.Pairwise fun field other => field.name ≠ other.name ∧ Commutes field other

/-- Values that are put into different places of a record can be put in either order. -/
theorem apart_of {γ : Type} {name name' : String} {wanted wanted' : Bool} {reader : Reader β}
    {reader' : Reader γ} {put : β → α → α} {put' : γ → α → α}
    (hname : name ≠ name')
    (hput : ∀ value value' record,
      put' value' (put value record) = put value (put' value' record)) :
    (of name wanted reader put).name ≠ (of name' wanted' reader' put').name ∧
      Commutes (of name wanted reader put) (of name' wanted' reader' put') := by
  refine ⟨hname, fun tree tree' start result => ?_⟩
  have htake : ∀ record next, (RecordField.of name wanted reader put).take tree record = .ok next ↔
      ∃ value, reader tree = .ok value ∧ put value record = next := fun _ _ => map_eq_ok_iff
  have htake' : ∀ record next,
      (RecordField.of name' wanted' reader' put').take tree' record = .ok next ↔
        ∃ value, reader' tree' = .ok value ∧ put' value record = next := fun _ _ => map_eq_ok_iff
  simp only [htake, htake']
  constructor
  · rintro ⟨_, ⟨value, hread, rfl⟩, value', hread', rfl⟩
    exact ⟨_, ⟨value', hread', rfl⟩, value, hread, (hput _ _ _).symm⟩
  · rintro ⟨_, ⟨value', hread', rfl⟩, value, hread, rfl⟩
    exact ⟨_, ⟨value, hread, rfl⟩, value', hread', hput _ _ _⟩

theorem independent_pair {field other : RecordField α}
    (h : field.name ≠ other.name ∧ Commutes field other) : Independent [field, other] :=
  List.pairwise_pair.2 h

theorem independent_triple {field other third : RecordField α}
    (hother : field.name ≠ other.name ∧ Commutes field other)
    (hthird : field.name ≠ third.name ∧ Commutes field third)
    (hrest : other.name ≠ third.name ∧ Commutes other third) :
    Independent [field, other, third] :=
  List.pairwise_cons.2
    ⟨List.forall_mem_cons.2 ⟨hother, List.forall_mem_singleton.2 hthird⟩, independent_pair hrest⟩

/-! ### Taking the values of the fields -/

/-- Taking the values in the order of the fields makes `result` of `start`. -/
def Takes (value? : String → Option Tree) : List (RecordField α) → (start result : α) → Prop
  | [], start, result => start = result
  | field :: fields, start, result =>
    match value? field.name with
    | none => Takes value? fields start result
    | some tree => ∃ next, field.take tree start = .ok next ∧ Takes value? fields next result

variable {value? value?' : String → Option Tree} {fields : List (RecordField α)}
  {field : RecordField α} {start next result : α} {tree : Tree}

theorem takes_of_none (h : value? field.name = none) :
    Takes value? (field :: fields) start result ↔ Takes value? fields start result := by
  rw [Takes, h]

theorem takes_of_some (h : value? field.name = some tree) :
    Takes value? (field :: fields) start result ↔
      ∃ next, field.take tree start = .ok next ∧ Takes value? fields next result := by
  rw [Takes, h]

/-- Only the values of the fields count. -/
theorem takes_congr (h : ∀ field ∈ fields, value? field.name = value?' field.name) :
    Takes value? fields start result ↔ Takes value?' fields start result := by
  induction fields generalizing start with
  | nil => rfl
  | cons field fields ih =>
    obtain ⟨hfield, hfields⟩ := List.forall_mem_cons.1 h
    cases hvalue : value? field.name with
    | none => rw [takes_of_none hvalue, takes_of_none (hfield ▸ hvalue), ih hfields]
    | some tree =>
      rw [takes_of_some hvalue, takes_of_some (hfield ▸ hvalue)]
      exact exists_congr fun next => and_congr_right fun _ => ih hfields

/-- Where there are no values the record stays as it is. -/
theorem takes_none : Takes (fun _ => none) fields start result ↔ start = result := by
  induction fields with
  | nil => rfl
  | cons field fields ih => rw [takes_of_none rfl, ih]

/-- **The value of any one field can be taken first.** -/
theorem takes_iff_exists (hfields : Independent fields) (hfield : field ∈ fields)
    (hvalue : value? field.name = some tree) (hnone : value?' field.name = none)
    (hother : ∀ name, name ≠ field.name → value?' name = value? name) :
    Takes value? fields start result ↔
      ∃ next, field.take tree start = .ok next ∧ Takes value?' fields next result := by
  induction fields generalizing start with
  | nil => cases hfield
  | cons first fields ih =>
    obtain ⟨hfirst, hrest⟩ := List.pairwise_cons.1 hfields
    rcases List.mem_cons.1 hfield with rfl | hmem
    · rw [takes_of_some hvalue]
      refine exists_congr fun next => and_congr_right fun _ => ?_
      rw [takes_of_none hnone]
      exact takes_congr fun other hmem => (hother _ (hfirst other hmem).1.symm).symm
    · obtain ⟨hname, hcommutes⟩ := hfirst field hmem
      have hsame := hother first.name hname
      cases hvalue' : value? first.name with
      | none =>
        rw [takes_of_none hvalue', ih hrest hmem]
        simp only [takes_of_none (hsame.trans hvalue')]
      | some tree' =>
        rw [takes_of_some hvalue']
        simp only [takes_of_some (hsame.trans hvalue'), ih hrest hmem]
        -- past the first field, whose value is taken in either order
        constructor
        · rintro ⟨next, htake', after, htake, htakes⟩
          obtain ⟨next, htake, htake'⟩ := (hcommutes _ _ _ _).1 ⟨next, htake', htake⟩
          exact ⟨next, htake, after, htake', htakes⟩
        · rintro ⟨next, htake, after, htake', htakes⟩
          obtain ⟨next, htake', htake⟩ := (hcommutes _ _ _ _).2 ⟨next, htake, htake'⟩
          exact ⟨next, htake', after, htake, htakes⟩

/-- A value that leaves a record as it is does so behind the value of another field. -/
theorem take_self_of_commutes {other : RecordField α} {tree' : Tree}
    (hcommutes : Commutes field other) (hself : other.take tree' start = .ok start)
    (htake : field.take tree start = .ok next) : other.take tree' next = .ok next := by
  obtain ⟨_, htake', hself'⟩ := (hcommutes _ _ _ _).2 ⟨start, hself, htake⟩
  cases htake'.symm.trans htake
  exact hself'

/-! ### Records written as members -/

/-- The value of the first member of a name. -/
def valueIn (members : List Member) (name : String) : Option Tree :=
  members.lookup (some name)

/-- How many members have the name. -/
def occurrences (members : List Member) (name : String) : Nat :=
  (members.map Prod.fst).count (some name)

/-- A field comes once at most behind the names that are seen, and once if it is
wanted; `count` says how often it comes there. -/
structure Comes (field : RecordField α) (seen : List String) (count : Nat) : Prop where
  /-- It does not come again. -/
  fresh : field.name ∈ seen → count = 0
  /-- It does not come twice. -/
  once : count ≤ 1
  /-- If it is wanted it comes. -/
  wanted : field.wanted = true → field.name ∈ seen ∨ count ≠ 0

/-- Nothing is wrong with the members apart from the values of the fields; `seen` are
the names of members before them. -/
structure Admits (fields : List (RecordField α)) (seen : List String) (members : List Member) :
    Prop where
  /-- Each has a name. -/
  named : ∀ member ∈ members, member.1 ≠ none
  /-- Those of other names are sound. -/
  passed : ∀ member ∈ members, (∀ field ∈ fields, member.1 ≠ some field.name) → member.2.IsSound
  /-- The fields come as they should. -/
  comes : ∀ field ∈ fields, Comes field seen (occurrences members field.name)

variable {members others : List Member} {seen : List String} {name : String}

theorem find?_eq_none_iff : find? fields name = none ↔ ∀ field ∈ fields, field.name ≠ name := by
  simp [find?, List.find?_eq_none]

theorem mem_of_find? (h : find? fields name = some field) : field ∈ fields ∧ field.name = name := by
  have hname := List.find?_some h
  exact ⟨List.mem_of_find?_eq_some h, by simpa using hname⟩

theorem missing?_eq_none_iff : missing? fields seen = none ↔
    ∀ field ∈ fields, field.wanted = true → field.name ∈ seen := by
  simp [missing?, List.find?_eq_none]

theorem valueIn_cons (key : Option String) :
    valueIn ((key, tree) :: members) name =
      if key = some name then some tree else valueIn members name := by
  rw [valueIn, List.lookup_cons, valueIn]
  by_cases h : key = some name
  · simp [h]
  · have hbeq : (some name == key) = false := by simpa using Ne.symm h
    rw [if_neg h, hbeq]

theorem occurrences_cons (key : Option String) :
    occurrences ((key, tree) :: members) name =
      occurrences members name + if key = some name then 1 else 0 := by
  rw [occurrences, List.map_cons, List.count_cons, occurrences]
  simp

theorem valueIn_eq_none (h : occurrences members name = 0) : valueIn members name = none := by
  induction members with
  | nil => rfl
  | cons member members ih =>
    rw [occurrences_cons] at h
    split at h
    · omega
    · next hname => rw [valueIn_cons, if_neg hname, ih h]

theorem occurrences_eq_zero_iff :
    occurrences members name = 0 ↔ ∀ member ∈ members, member.1 ≠ some name := by
  rw [occurrences, List.count_eq_zero, List.mem_map]
  simp only [not_exists, not_and, ne_eq]

/-- The value of the first member can be taken first, if no other is of its name. -/
theorem takes_cons_field_iff (hfields : Independent fields) (hfield : field ∈ fields)
    (hnone : occurrences members field.name = 0) :
    Takes (valueIn ((some field.name, tree) :: members)) fields start result ↔
      ∃ next, field.take tree start = .ok next ∧ Takes (valueIn members) fields next result := by
  refine takes_iff_exists hfields hfield ?_ (valueIn_eq_none hnone) fun name hname => ?_
  · rw [valueIn_cons, if_pos rfl]
  · rw [valueIn_cons, if_neg (by simpa using hname.symm)]

theorem admits_nil_iff : Admits fields seen [] ↔ missing? fields seen = none := by
  rw [missing?_eq_none_iff]
  constructor
  · intro h field hfield hwanted
    exact ((h.comes field hfield).wanted hwanted).resolve_right fun hcount => hcount rfl
  · intro h
    exact ⟨nofun, nofun, fun field hfield =>
      ⟨fun _ => rfl, Nat.zero_le _, fun hwanted => .inl (h field hfield hwanted)⟩⟩

/-- A member that is no field is passed over. -/
theorem admits_cons_other_iff (hname : ∀ field ∈ fields, field.name ≠ name) :
    Admits fields seen ((some name, tree) :: members) ↔
      tree.IsSound ∧ Admits fields seen members := by
  have hother : ∀ field ∈ fields, some name ≠ some field.name := fun field hfield heq =>
    hname field hfield (Option.some.inj heq).symm
  have hcount : ∀ field ∈ fields,
      occurrences ((some name, tree) :: members) field.name = occurrences members field.name := by
    intro field hfield
    rw [occurrences_cons, if_neg (hother field hfield), Nat.add_zero]
  constructor
  · intro h
    obtain ⟨-, hnamed⟩ := List.forall_mem_cons.1 h.named
    obtain ⟨hsound, hpassed⟩ := List.forall_mem_cons.1 h.passed
    exact ⟨hsound hother, hnamed, hpassed, fun field hfield =>
      hcount field hfield ▸ h.comes field hfield⟩
  · rintro ⟨hsound, h⟩
    exact ⟨List.forall_mem_cons.2 ⟨nofun, h.named⟩,
      List.forall_mem_cons.2 ⟨fun _ => hsound, h.passed⟩, fun field hfield =>
      (hcount field hfield).symm ▸ h.comes field hfield⟩

/-- A field that is seen does not come again. -/
theorem comes_self_iff {count : Nat} :
    Comes field seen (count + 1) ↔ field.name ∉ seen ∧ Comes field (field.name :: seen) count := by
  constructor
  · intro h
    have hcount : count = 0 := Nat.le_zero.1 (Nat.le_of_succ_le_succ h.once)
    exact ⟨fun hseen => Nat.succ_ne_zero _ (h.fresh hseen), fun _ => hcount,
      hcount ▸ Nat.zero_le _, fun _ => .inl List.mem_cons_self⟩
  · rintro ⟨hseen, h⟩
    have hcount : count = 0 := h.fresh List.mem_cons_self
    exact ⟨fun hseen' => absurd hseen' hseen, by omega, fun _ => .inr (Nat.succ_ne_zero _)⟩

/-- Nothing changes for another. -/
theorem comes_other_iff {count : Nat} (hname : field.name ≠ name) :
    Comes field (name :: seen) count ↔ Comes field seen count := by
  have hmem : field.name ∈ name :: seen ↔ field.name ∈ seen := by
    rw [List.mem_cons, or_iff_right hname]
  constructor
  · intro h
    exact ⟨fun hseen => h.fresh (hmem.2 hseen), h.once, fun hwanted =>
      (h.wanted hwanted).imp_left hmem.1⟩
  · intro h
    exact ⟨fun hseen => h.fresh (hmem.1 hseen), h.once, fun hwanted =>
      (h.wanted hwanted).imp_left hmem.2⟩

/-- A member that is a field is seen. -/
theorem admits_cons_field_iff (hfield : field ∈ fields) :
    Admits fields seen ((some field.name, tree) :: members) ↔
      field.name ∉ seen ∧ Admits fields (field.name :: seen) members := by
  have hcomes : ∀ other : RecordField α,
      Comes other seen (occurrences ((some field.name, tree) :: members) other.name) ↔
        (field.name = other.name → field.name ∉ seen) ∧
          Comes other (field.name :: seen) (occurrences members other.name) := by
    intro other
    rw [occurrences_cons]
    by_cases hname : field.name = other.name
    · rw [if_pos (congrArg some hname), comes_self_iff, hname]
      exact and_congr_left fun _ => ⟨fun h _ => h, fun h => h rfl⟩
    · rw [if_neg (by simpa using hname), Nat.add_zero, comes_other_iff (Ne.symm hname)]
      exact (and_iff_right fun heq => absurd heq hname).symm
  constructor
  · intro h
    exact ⟨((hcomes field).1 (h.comes field hfield)).1 rfl, (List.forall_mem_cons.1 h.named).2,
      (List.forall_mem_cons.1 h.passed).2, fun other hother =>
      ((hcomes other).1 (h.comes other hother)).2⟩
  · rintro ⟨hseen, h⟩
    exact ⟨List.forall_mem_cons.2 ⟨nofun, h.named⟩,
      List.forall_mem_cons.2 ⟨fun hother => absurd rfl (hother field hfield), h.passed⟩,
      fun other hother => (hcomes other).2 ⟨fun _ => hseen, h.comes other hother⟩⟩

/-- **Members are read where nothing is wrong with them, to what the values of the
fields make.** -/
theorem readMembers_eq_ok_iff (hfields : Independent fields) :
    readMembers fields none members seen start = .ok result ↔
      Admits fields seen members ∧ Takes (valueIn members) fields start result := by
  induction members generalizing seen start with
  | nil =>
    rw [readMembers, admits_nil_iff]
    show _ ↔ _ ∧ Takes (fun _ => none) fields start result
    rw [takes_none]
    cases missing? fields seen <;> simp
  | cons member members ih =>
    obtain ⟨key, tree⟩ := member
    cases key with
    | none =>
      rw [readMembers]
      constructor
      · intro h
        cases h
      · intro h
        exact absurd rfl (h.1.named _ List.mem_cons_self)
    | some name =>
      rw [readMembers]
      cases hfind : find? fields name with
      | none =>
        have hother := find?_eq_none_iff.1 hfind
        have htakes : Takes (valueIn ((some name, tree) :: members)) fields start result ↔
            Takes (valueIn members) fields start result := by
          refine takes_congr fun field hfield => ?_
          rw [valueIn_cons, if_neg (by simpa using (hother field hfield).symm)]
        rw [admits_cons_other_iff hother, htakes, and_assoc, ← ih, Tree.IsSound]
        cases tree.skip <;> simp
      | some field =>
        obtain ⟨hfield, rfl⟩ := mem_of_find? hfind
        rw [admits_cons_field_iff hfield, and_assoc]
        by_cases hseen : field.name ∈ seen
        · simp [hseen]
        -- no other member is of its name, so that its value can be taken first
        have htakes : Admits fields (field.name :: seen) members ∧
            Takes (valueIn ((some field.name, tree) :: members)) fields start result ↔
              Admits fields (field.name :: seen) members ∧ ∃ next,
                field.take tree start = .ok next ∧ Takes (valueIn members) fields next result :=
          and_congr_right fun h => takes_cons_field_iff hfields hfield
            ((h.comes field hfield).fresh List.mem_cons_self)
        rw [htakes, and_iff_right hseen]
        cases htake : field.take tree start with
        | error => simp [hseen, htake]
        | ok next => simp [hseen, htake, ih]

/-! ### Members in another order, and other members -/

theorem valueIn_perm (h : members.Perm others) (honce : occurrences members name ≤ 1) :
    valueIn members name = valueIn others name := by
  induction h with
  | nil => rfl
  | cons member h ih =>
    rw [occurrences_cons] at honce
    rw [valueIn_cons, valueIn_cons]
    split
    · rfl
    · exact ih (Nat.le_trans (Nat.le_add_right _ _) honce)
  | swap member other members =>
    -- not both are of the name
    rw [occurrences_cons, occurrences_cons] at honce
    rw [valueIn_cons, valueIn_cons, valueIn_cons, valueIn_cons]
    by_cases hfirst : other.1 = some name
    · have hsecond : member.1 ≠ some name := fun hsecond => by
        rw [if_pos hfirst, if_pos hsecond] at honce
        omega
      rw [if_pos hfirst, if_neg hsecond, if_pos hfirst]
    · rw [if_neg hfirst, if_neg hfirst]
  | trans h _ ih ih' =>
    have hcount := (h.map Prod.fst).count_eq (some name)
    rw [ih honce, ih' (by rw [occurrences, ← hcount]; exact honce)]

/-- The value of a name is that of its only member. -/
theorem valueIn_eq_some (hmem : (some name, tree) ∈ members)
    (honce : occurrences members name ≤ 1) : valueIn members name = some tree := by
  obtain ⟨before, after, rfl⟩ := List.append_of_mem hmem
  rw [valueIn_perm List.perm_middle honce, valueIn_cons, if_pos rfl]

theorem Admits.perm (h : members.Perm others) (hadmits : Admits fields seen members) :
    Admits fields seen others := by
  refine ⟨fun member hmem => hadmits.named member (h.mem_iff.2 hmem),
    fun member hmem => hadmits.passed member (h.mem_iff.2 hmem), fun field hfield => ?_⟩
  have hcount := (h.map Prod.fst).count_eq (some field.name)
  rw [occurrences, ← hcount]
  exact hadmits.comes field hfield

/-- **The order of members does not count.** -/
theorem readMembers_perm (hfields : Independent fields) (h : members.Perm others)
    (hread : readMembers fields none members seen start = .ok result) :
    readMembers fields none others seen start = .ok result := by
  rw [readMembers_eq_ok_iff hfields] at hread ⊢
  obtain ⟨hadmits, htakes⟩ := hread
  refine ⟨hadmits.perm h, (takes_congr fun field hfield => ?_).1 htakes⟩
  exact valueIn_perm h (hadmits.comes field hfield).once

/-- A member can be moved to the front. -/
theorem readMembers_middle_iff (hfields : Independent fields) {member : Member}
    {before after : List Member} :
    readMembers fields none (before ++ member :: after) seen start = .ok result ↔
      readMembers fields none (member :: (before ++ after)) seen start = .ok result :=
  ⟨readMembers_perm hfields List.perm_middle, readMembers_perm hfields List.perm_middle.symm⟩

/-- A sound member that is no field does not count. -/
theorem readMembers_cons_other (hname : ∀ field ∈ fields, field.name ≠ name)
    (hsound : tree.IsSound) (hread : readMembers fields none members seen start = .ok result) :
    readMembers fields none ((some name, tree) :: members) seen start = .ok result := by
  rw [readMembers, find?_eq_none_iff.2 hname]
  simp only [show tree.skip = .ok () from hsound, hread]

/-- A field that does not come can come with a value that leaves the record as it is. -/
theorem readMembers_cons_absent (hfields : Independent fields) (hfield : field ∈ fields)
    (hself : field.take tree start = .ok start) (hnone : occurrences members field.name = 0)
    (hread : readMembers fields none members [] start = .ok result) :
    readMembers fields none ((some field.name, tree) :: members) [] start = .ok result := by
  rw [readMembers_eq_ok_iff hfields] at hread ⊢
  obtain ⟨hadmits, htakes⟩ := hread
  refine ⟨(admits_cons_field_iff hfield).2 ⟨List.not_mem_nil, hadmits.named, hadmits.passed, ?_⟩,
    ?_⟩
  · intro other hother
    by_cases hname : other.name = field.name
    · rw [hname, hnone]
      exact ⟨fun _ => rfl, Nat.zero_le _, fun _ => .inl (hname ▸ List.mem_cons_self)⟩
    · exact (comes_other_iff hname).2 (hadmits.comes other hother)
  · exact (takes_cons_field_iff hfields hfield hnone).2 ⟨start, hself, htakes⟩

/-- The value of a member can be another one that is always taken to the same effect. -/
theorem readMembers_cons_value {tree' : Tree} (hfield : field ∈ fields)
    (hfields : Independent fields)
    (hsame : ∀ start next, field.take tree start = .ok next → field.take tree' start = .ok next)
    (hread : readMembers fields none ((some field.name, tree) :: members) seen start = .ok result) :
    readMembers fields none ((some field.name, tree') :: members) seen start = .ok result := by
  rw [readMembers_eq_ok_iff hfields] at hread ⊢
  obtain ⟨hadmits, htakes⟩ := hread
  have hrest := (admits_cons_field_iff hfield).1 hadmits
  have hnone := (hrest.2.comes field hfield).fresh List.mem_cons_self
  obtain ⟨next, htake, htakes⟩ := (takes_cons_field_iff hfields hfield hnone).1 htakes
  exact ⟨(admits_cons_field_iff hfield).2 hrest,
    (takes_cons_field_iff hfields hfield hnone).2 ⟨next, hsame _ _ htake, htakes⟩⟩

/-! ### Records written as lists -/

variable {items : List Tree}

theorem readItems_cons_iff :
    readItems none (field :: fields) (tree :: items) start = .ok result ↔
      ∃ next, field.take tree start = .ok next ∧ readItems none fields items next = .ok result := by
  rw [readItems]
  cases field.take tree start <;> simp

/-- A list that holds nothing leaves the record as it is. -/
theorem eq_of_readItems_nil (h : readItems none fields [] start = .ok result) : start = result := by
  induction fields with
  | nil => exact Except.ok.inj h
  | cons field fields ih =>
    rw [readItems] at h
    split at h
    · cases h
    · exact ih h

/-- **A list of the values of all fields is read as the members are.**  Where a field has
no value, one that leaves the record as it is stands for it. -/
theorem readItems_of_takes (hfields : Independent fields)
    (hvalues : List.Forall₂ (fun field item => value? field.name = some item ∨
      value? field.name = none ∧ field.take item start = .ok start) fields items)
    (htakes : Takes value? fields start result) :
    readItems none fields items start = .ok result := by
  induction fields generalizing items start with
  | nil =>
    cases hvalues
    exact congrArg Except.ok htakes
  | cons field fields ih =>
    obtain ⟨hfirst, hrest⟩ := List.pairwise_cons.1 hfields
    obtain _ | @⟨_, item, _, items, hvalue, hvalues⟩ := hvalues
    -- the value is taken at its place, or the one that stands for it
    obtain ⟨next, htake, htakes⟩ : ∃ next, field.take item start = .ok next ∧
        Takes value? fields next result := by
      rcases hvalue with hsome | ⟨hnone, hself⟩
      · exact (takes_of_some hsome).1 htakes
      · exact ⟨start, hself, (takes_of_none hnone).1 htakes⟩
    refine readItems_cons_iff.2 ⟨next, htake, ih hrest ?_ htakes⟩
    refine ((List.forall₂_and_left _ _).2 ⟨hfirst, hvalues⟩).imp fun other item h => ?_
    exact h.2.imp_right fun hself =>
      ⟨hself.1, take_self_of_commutes h.1.2 hself.2 htake⟩

/-- A list that is too short can be filled up with values that leave the record as it is. -/
theorem readItems_append (hfields : Independent fields) {rest : List Tree}
    (hself : List.Forall₂ (fun field item => field.take item start = .ok start)
      (fields.drop items.length) rest)
    (hread : readItems none fields items start = .ok result) :
    readItems none fields (items ++ rest) start = .ok result := by
  induction items generalizing fields start with
  | nil =>
    obtain rfl := eq_of_readItems_nil hread
    -- none of the fields has a value yet
    exact readItems_of_takes hfields (hself.imp fun _ _ hself => .inr ⟨rfl, hself⟩)
      (takes_none.2 rfl)
  | cons item items ih =>
    cases fields with
    | nil => cases hread
    | cons field fields =>
      obtain ⟨hfirst, hrest⟩ := List.pairwise_cons.1 hfields
      obtain ⟨next, htake, hread⟩ := readItems_cons_iff.1 hread
      refine readItems_cons_iff.2 ⟨next, htake, ih hrest ?_ hread⟩
      have hbehind : ∀ other ∈ fields.drop items.length, Commutes field other := fun other hmem =>
        (hfirst other (List.mem_of_mem_drop hmem)).2
      exact ((List.forall₂_and_left _ _).2 ⟨hbehind, hself⟩).imp fun other item h =>
        take_self_of_commutes h.1 h.2 htake

/-- The value at a place can be another one that is always taken to the same effect. -/
theorem readItems_value {before after : List Tree} {tree' : Tree}
    (hfield : fields[before.length]? = some field)
    (hsame : ∀ start next, field.take tree start = .ok next → field.take tree' start = .ok next)
    (hread : readItems none fields (before ++ tree :: after) start = .ok result) :
    readItems none fields (before ++ tree' :: after) start = .ok result := by
  induction before generalizing fields start with
  | nil =>
    cases fields with
    | nil => cases hfield
    | cons first fields =>
      cases hfield
      obtain ⟨next, htake, hread⟩ := readItems_cons_iff.1 hread
      exact readItems_cons_iff.2 ⟨next, hsame _ _ htake, hread⟩
  | cons item before ih =>
    cases fields with
    | nil => cases hfield
    | cons first fields =>
      obtain ⟨next, htake, hread⟩ := readItems_cons_iff.1 hread
      exact readItems_cons_iff.2 ⟨next, htake, ih hfield hread⟩

end RecordField

end StagedQuery.Json
