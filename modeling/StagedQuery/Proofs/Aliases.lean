/-
StagedQuery/Proofs/Aliases.lean

Which aliases a stored query is condensed with.

Every input that refers to an earlier stage by another name than the id of that
stage's position asks for an alias.  The aliases are picked from these uses one
after the other, a use being passed over where its stage has an alias already or
its name is one.  Where the uses pair stages and names one to one, nothing is
ever passed over but repetitions, and the aliases are just the uses
(`aliasOf?_aliasesOf`).
-/
import StagedQuery.Condensation

namespace StagedQuery

open Backend

variable {stages : List Stage} {use : String × String}

/-! ### Positions -/

/-- Where ids are distinct, an id has the position of its stage. -/
theorem stagePosition?_eq_some_iff (h : (stages.map (·.id)).Nodup) {id : String}
    {position : Nat} :
    stagePosition? stages id = some position ↔
      ∃ stage : Stage, stages[position]? = some stage ∧ stage.id = id := by
  rw [stagePosition?, List.findIdx?_eq_some_iff_getElem]
  constructor
  · rintro ⟨hlt, hid, -⟩
    exact ⟨stages[position], List.getElem?_eq_getElem hlt, by simpa using hid⟩
  · rintro ⟨stage, hstage, rfl⟩
    obtain ⟨hlt, rfl⟩ := List.getElem?_eq_some_iff.1 hstage
    refine ⟨hlt, by simp, fun earlier hearlier => ?_⟩
    have hne : earlier ≠ position := Nat.ne_of_lt hearlier
    have hinj := (List.nodup_iff_pairwise_ne.1 h)
    have hids := List.pairwise_iff_getElem.1 hinj earlier position
      (by simpa using Nat.lt_trans hearlier hlt) (by simpa using hlt) hearlier
    simpa using hids

/-! ### Uses -/

theorem aliasUse?_eq_some_iff {position : Nat} {input : Input} :
    aliasUse? stages position input = some use ↔
      input.stageId = some use.1 ∧ input.name = use.2 ∧
        ∃ earlier < position, stagePosition? stages use.1 = some earlier ∧
          use.2 ≠ stageId earlier := by
  rw [aliasUse?]
  cases hid : input.stageId with
  | none => simp
  | some id =>
    cases hposition : stagePosition? stages id with
    | none =>
      simp only [hposition, reduceCtorEq, Option.some.injEq, false_iff]
      rintro ⟨rfl, -, earlier, -, hearlier, -⟩
      rw [hposition] at hearlier
      cases hearlier
    | some earlier =>
      simp only [hposition, Option.ite_none_right_eq_some, Option.some.injEq]
      constructor
      · rintro ⟨⟨hlt, hne⟩, rfl⟩
        exact ⟨rfl, rfl, earlier, hlt, hposition, hne⟩
      · rintro ⟨rfl, hname, earlier', hlt, hearlier, hne⟩
        rw [hposition] at hearlier
        cases hearlier
        exact ⟨⟨hlt, hname ▸ hne⟩, Prod.ext rfl hname⟩

theorem mem_aliasUses :
    use ∈ aliasUses stages ↔
      ∃ (position : Nat) (stage : Stage), stages[position]? = some stage ∧
        ∃ input ∈ stage.inputs, aliasUse? stages position input = some use := by
  simp only [aliasUses, List.mem_flatMap, List.mem_filterMap, Prod.exists]
  constructor
  · rintro ⟨stage, position, hstage, input, hinput, huse⟩
    exact ⟨position, stage, List.mem_zipIdx_iff_getElem?.1 hstage, input, hinput, huse⟩
  · rintro ⟨position, stage, hstage, input, hinput, huse⟩
    exact ⟨stage, position, List.mem_zipIdx_iff_getElem?.2 hstage, input, hinput, huse⟩

/-! ### One name for each stage -/

/-- Stages and names are paired one to one. -/
def OneToOne (uses : List (String × String)) : Prop :=
  ∀ use ∈ uses, ∀ other ∈ uses, use.1 = other.1 ∨ use.2 = other.2 → use = other

/-- Where stages and names are paired one to one, every use is kept. -/
theorem mem_foldl_keepAlias {uses kept : List (String × String)} (h : OneToOne (kept ++ uses)) :
    use ∈ uses.foldl keepAlias kept ↔ use ∈ kept ∨ use ∈ uses := by
  induction uses generalizing kept with
  | nil => simp
  | cons first rest ih =>
    rw [List.foldl_cons, keepAlias]
    split
    · next hany =>
      -- what stands in the way of the use is the use itself
      have hfirst : first ∈ kept := by
        obtain ⟨earlier, hearlier, hsame⟩ := List.any_eq_true.1 hany
        have heq : earlier = first :=
          h earlier (List.mem_append_left _ hearlier) first
            (List.mem_append_right _ List.mem_cons_self) (by simpa using hsame)
        exact heq ▸ hearlier
      have hrest : OneToOne (kept ++ rest) := by
        intro use huse other hother
        have hsub : ∀ entry ∈ kept ++ rest, entry ∈ kept ++ first :: rest := by simp; grind
        exact h use (hsub use huse) other (hsub other hother)
      rw [ih hrest, List.mem_cons]
      constructor
      · rintro (hkept | hmem)
        · exact .inl hkept
        · exact .inr (.inr hmem)
      · rintro (hkept | rfl | hmem)
        · exact .inl hkept
        · exact .inl hfirst
        · exact .inr hmem
    · rw [List.append_cons] at h
      rw [ih h, List.mem_append, List.mem_singleton, List.mem_cons, or_assoc]

/-- Nothing but uses is kept. -/
theorem mem_of_mem_foldl_keepAlias {uses kept : List (String × String)}
    (h : use ∈ uses.foldl keepAlias kept) : use ∈ kept ∨ use ∈ uses := by
  induction uses generalizing kept with
  | nil => exact .inl h
  | cons first rest ih =>
    rw [List.foldl_cons] at h
    rcases ih h with hkept | hrest
    · rw [keepAlias] at hkept
      split at hkept
      · exact .inl hkept
      · rcases List.mem_append.1 hkept with hold | hnew
        · exact .inl hold
        · rw [List.mem_singleton.1 hnew]
          exact .inr List.mem_cons_self
    · exact .inr (List.mem_cons_of_mem _ hrest)

/-- No stage has two aliases, and no name is the alias of two stages. -/
def Unshared (aliases : List (String × String)) : Prop :=
  aliases.Pairwise fun a b => a.1 ≠ b.1 ∧ a.2 ≠ b.2

/-- A name that is shared is that of one entry. -/
theorem Unshared.eq_of_name_eq {aliases : List (String × String)} (h : Unshared aliases)
    {entry other : String × String} (hentry : entry ∈ aliases) (hother : other ∈ aliases)
    (hname : entry.2 = other.2) : entry = other := by
  refine List.Pairwise.forall_of_forall_of_flip (R := fun a b => a.2 = b.2 → a = b)
    (fun _ _ _ => rfl) (h.imp ?_) (h.imp ?_) hentry hother hname
  · exact fun hab hsame => absurd hsame hab.2
  · exact fun hab hsame => absurd hsame.symm hab.2

theorem Unshared.keepAlias {kept : List (String × String)} (h : Unshared kept)
    (use : String × String) : Unshared (keepAlias kept use) := by
  rw [StagedQuery.keepAlias]
  split
  · exact h
  · next hnone =>
    refine List.pairwise_append.2 ⟨h, List.pairwise_singleton _ _, ?_⟩
    intro earlier hearlier new hnew
    rw [List.mem_singleton.1 hnew]
    simp only [List.any_eq_true, Bool.or_eq_true, decide_eq_true_eq, not_exists, not_and,
      not_or] at hnone
    exact hnone earlier hearlier

theorem Unshared.foldl_keepAlias {kept : List (String × String)} (h : Unshared kept)
    (uses : List (String × String)) : Unshared (uses.foldl StagedQuery.keepAlias kept) := by
  induction uses generalizing kept with
  | nil => exact h
  | cons first rest ih => exact ih (h.keepAlias first)

/-- **A name is the alias of one stage at most**, whatever the uses are. -/
theorem aliasOf?_inj {id id' name : String} (h : aliasOf? (aliasesOf stages) id = some name)
    (h' : aliasOf? (aliasesOf stages) id' = some name) : id = id' := by
  obtain ⟨entry, hfind, hname⟩ := Option.map_eq_some_iff.1 h
  obtain ⟨entry', hfind', hname'⟩ := Option.map_eq_some_iff.1 h'
  have hunshared : Unshared (aliasesOf stages) :=
    Unshared.foldl_keepAlias List.Pairwise.nil (aliasUses stages)
  have hsame : entry = entry' :=
    hunshared.eq_of_name_eq (List.mem_of_find?_eq_some hfind)
      (List.mem_of_find?_eq_some hfind') (hname.trans hname'.symm)
  have hid : entry.1 = id := by simpa using List.find?_some hfind
  have hid' : entry'.1 = id' := by simpa using List.find?_some hfind'
  rw [← hid, ← hid', hsame]

/-- Every alias is a use, whatever the uses are. -/
theorem mem_aliasUses_of_aliasOf? {id name : String}
    (h : aliasOf? (aliasesOf stages) id = some name) : (id, name) ∈ aliasUses stages := by
  obtain ⟨entry, hfind, rfl⟩ := Option.map_eq_some_iff.1 h
  have hid : entry.1 = id := by simpa using List.find?_some hfind
  rw [← hid]
  exact (mem_of_mem_foldl_keepAlias (List.mem_of_find?_eq_some hfind)).resolve_left
    List.not_mem_nil

/-- **The aliases are the uses**, where stages and names are paired one to
one. -/
theorem aliasOf?_aliasesOf (h : OneToOne (aliasUses stages)) {id name : String} :
    aliasOf? (aliasesOf stages) id = some name ↔ (id, name) ∈ aliasUses stages := by
  refine ⟨mem_aliasUses_of_aliasOf?, fun huse => ?_⟩
  have hmem : (id, name) ∈ aliasesOf stages := by
    rw [aliasesOf, mem_foldl_keepAlias h]
    exact .inr huse
  rw [aliasOf?, Option.map_eq_some_iff]
  cases hfind : (aliasesOf stages).find? fun entry => entry.1 = id with
  | none =>
    have hne := List.find?_eq_none.1 hfind _ hmem
    simp at hne
  | some use =>
    have hid : use.1 = id := by simpa using List.find?_some hfind
    have huse' := (mem_of_mem_foldl_keepAlias (List.mem_of_find?_eq_some hfind)).resolve_left
      List.not_mem_nil
    exact ⟨use, rfl, congrArg Prod.snd (h use huse' _ huse (.inl hid))⟩

end StagedQuery
