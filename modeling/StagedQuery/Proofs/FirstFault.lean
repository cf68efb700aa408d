/-
StagedQuery/Proofs/FirstFault.lean

The first fault in a list.  Items are looked at in order, and what is wrong with
one may depend on its place; the fault answered is that of the first item with
which anything is wrong.  `refused index item fault` says what is wrong with the
item at an index.  Where one thing only can be wrong with an item, the first fault is
that of the first item found (`firstFault_iff_findIdx?`).

The items may be reasons themselves, to be gone through in order (`FirstOf`).

What is made of an outcome fails where the outcome does; the lemmas at the start say
so, for all passes that go on from what a pass before them gave.
-/
import StagedQuery.Fault

namespace StagedQuery

/-! ### Outcomes -/

section Outcome

variable {ε ε' α β : Type} {outcome : Except ε α} {f : α → β} {g : ε → ε'} {error : ε}
  {value : α} {result : β}

theorem map_eq_ok_iff :
    outcome.map f = .ok result ↔ ∃ value, outcome = .ok value ∧ f value = result := by
  cases outcome <;> simp [Except.map]

theorem map_eq_error_iff : outcome.map f = .error error ↔ outcome = .error error := by
  cases outcome <;> simp [Except.map]

theorem mapError_eq_ok_iff : outcome.mapError g = .ok value ↔ outcome = .ok value := by
  cases outcome with
  | error _ => exact ⟨nofun, nofun⟩
  | ok _ => exact ⟨fun h => (by cases h; rfl), fun h => (by cases h; rfl)⟩

end Outcome

/-! ### The first fault -/

variable {α : Type} {refused : Nat → α → Fault → Prop} {item : α} {items : List α} {fault : Fault}

/-- An item is refused with this fault, and none before it is refused. -/
def FirstFault (refused : Nat → α → Fault → Prop) (items : List α) (fault : Fault) : Prop :=
  ∃ index item, items[index]? = some item ∧ refused index item fault ∧
    ∀ earlier < index, ∀ other, items[earlier]? = some other → ∀ any, ¬ refused earlier other any

theorem firstFault_congr {refused' : Nat → α → Fault → Prop}
    (h : ∀ index item any, refused index item any ↔ refused' index item any) :
    FirstFault refused items fault ↔ FirstFault refused' items fault := by
  simp only [FirstFault, h]

theorem not_firstFault_nil : ¬ FirstFault refused [] fault := by
  rintro ⟨index, item, hitem, -⟩
  cases hitem

/-- The first fault is that of the first item, or else the first one behind it. -/
theorem firstFault_cons_iff :
    FirstFault refused (item :: items) fault ↔
      refused 0 item fault ∨
        ((∀ any, ¬ refused 0 item any) ∧
          FirstFault (fun index => refused (index + 1)) items fault) := by
  constructor
  · rintro ⟨index, found, hfound, hrefused, hbefore⟩
    cases index with
    | zero =>
      cases hfound
      exact .inl hrefused
    | succ index =>
      refine .inr ⟨hbefore 0 (Nat.succ_pos index) item rfl, index, found, hfound, hrefused, ?_⟩
      exact fun earlier hlt => hbefore (earlier + 1) (Nat.succ_lt_succ hlt)
  · rintro (hrefused | ⟨hfirst, index, found, hfound, hrefused, hbefore⟩)
    · exact ⟨0, item, rfl, hrefused, fun earlier hlt => absurd hlt (Nat.not_lt_zero earlier)⟩
    · refine ⟨index + 1, found, hfound, hrefused, fun earlier hlt other hother => ?_⟩
      cases earlier with
      | zero =>
        cases hother
        exact hfirst
      | succ earlier => exact hbefore earlier (Nat.lt_of_succ_lt_succ hlt) other hother

/-- Where an item is refused by a test, with a fault that its place decides, the first
fault is that of the first item found. -/
theorem firstFault_iff_findIdx? (items : List α) (test : α → Bool) (faultAt : Nat → α → Fault)
    (fault : Fault) :
    FirstFault (fun index item any => test item = true ∧ any = faultAt index item) items fault ↔
      ∃ index item, items.findIdx? test = some index ∧ items[index]? = some item ∧
        fault = faultAt index item := by
  constructor
  · rintro ⟨index, item, hitem, ⟨htest, rfl⟩, hbefore⟩
    obtain ⟨hlt, rfl⟩ := List.getElem?_eq_some_iff.1 hitem
    refine ⟨index, _, ?_, hitem, rfl⟩
    refine List.findIdx?_eq_some_iff_getElem.2 ⟨hlt, htest, fun earlier hearlier htest' => ?_⟩
    have hother := List.getElem?_eq_getElem (Nat.lt_trans hearlier hlt)
    exact hbefore earlier hearlier _ hother _ ⟨htest', rfl⟩
  · rintro ⟨index, item, hindex, hitem, rfl⟩
    obtain ⟨hlt, htest, hbefore⟩ := List.findIdx?_eq_some_iff_getElem.1 hindex
    obtain ⟨_, rfl⟩ := List.getElem?_eq_some_iff.1 hitem
    refine ⟨index, _, hitem, ⟨htest, rfl⟩, fun earlier hearlier other hother any hrefused => ?_⟩
    obtain ⟨_, rfl⟩ := List.getElem?_eq_some_iff.1 hother
    exact hbefore earlier hearlier hrefused.1

/-! ### The first reason -/

section Reasons

variable {reason : Fault → Prop} {reasons others : List (Fault → Prop)}

/-- The fault of the first reason that applies. -/
def FirstOf (reasons : List (Fault → Prop)) : Fault → Prop :=
  FirstFault (fun _ reason => reason) reasons

theorem not_firstOf_nil : ¬ FirstOf [] fault :=
  not_firstFault_nil

theorem firstOf_cons_iff :
    FirstOf (reason :: reasons) fault ↔
      reason fault ∨ (∀ any, ¬ reason any) ∧ FirstOf reasons fault :=
  firstFault_cons_iff

/-- Reasons behind others apply where none of the others does. -/
theorem firstOf_append_iff :
    FirstOf (reasons ++ others) fault ↔
      FirstOf reasons fault ∨ (∀ any, ¬ FirstOf reasons any) ∧ FirstOf others fault := by
  induction reasons with
  | nil => simp [not_firstOf_nil]
  | cons reason rest ih =>
    rw [List.cons_append, firstOf_cons_iff, ih]
    simp only [firstOf_cons_iff]
    by_cases hnone : ∀ any, ¬ reason any
    · simp [hnone]
    · simp [hnone]

end Reasons

end StagedQuery
