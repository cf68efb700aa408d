/-
StagedQuery/Proofs/Cycle.lean

Runs of turns settle after one round.

Once a query was expanded, every later turn is defined, so the run goes on as a
sequence of forms, each the turn of the one before.  By stability the second
expansion is the first one settled; settling twice is settling once, so from
there on the run is a cycle of two forms.

Main statement: `turns_settle`.
-/
import StagedQuery.Cycle
import StagedQuery.Proofs.Stability

namespace StagedQuery

open Backend

namespace Form

/-! ### Runs -/

/-- A run begins with a turn and goes on from its outcome. -/
theorem turns_succ {form next : Form} (h : form.turn = .ok next) (count : Nat) :
    turns (count + 1) form = .ok next :: turns count next := by
  rw [turns, h]

/-- Where every form of a sequence turns into the next, a run goes through the
sequence. -/
theorem getElem?_turns {run : Nat → Form} (hrun : ∀ n, (run n).turn = .ok (run (n + 1)))
    {count n : Nat} (hlt : n < count) :
    (turns count (run 0))[n]? = some (.ok (run (n + 1))) := by
  induction n generalizing count run with
  | zero =>
    obtain ⟨count, rfl⟩ := Nat.exists_eq_succ_of_ne_zero (Nat.ne_of_gt hlt)
    rw [turns_succ (hrun 0)]
    rfl
  | succ n ih =>
    obtain ⟨count, rfl⟩ := Nat.exists_eq_succ_of_ne_zero (Nat.ne_of_gt (Nat.zero_lt_of_lt hlt))
    rw [turns_succ (hrun 0), List.getElem?_cons_succ]
    exact ih (fun m => hrun (m + 1)) (Nat.lt_of_succ_lt_succ hlt)

/-- What follows an outcome is a run from it. -/
theorem getElem?_turns_add {count first : Nat} {start next : Form}
    (h : (turns count start)[first]? = some (.ok next)) (n : Nat) :
    (turns count start)[first + 1 + n]? = (turns (count - (first + 1)) next)[n]? := by
  induction count generalizing start first with
  | zero => cases h
  | succ count ih =>
    cases hturn : start.turn with
    | error fault =>
      rw [turns, hturn] at h
      cases first <;> cases h
    | ok form =>
      rw [turns_succ hturn] at h ⊢
      cases first with
      | zero =>
        cases h
        rw [Nat.zero_add, Nat.add_comm 1, List.getElem?_cons_succ, Nat.add_sub_cancel]
      | succ first =>
        rw [Nat.add_right_comm _ 1 n, List.getElem?_cons_succ, Nat.add_sub_add_right]
        exact ih h

/-- Every outcome of a run is that of some turn. -/
theorem exists_turn {count first : Nat} {start next : Form}
    (h : (turns count start)[first]? = some (.ok next)) : ∃ form : Form, form.turn = .ok next := by
  induction count generalizing start first with
  | zero => cases h
  | succ count ih =>
    cases hturn : start.turn with
    | error fault =>
      rw [turns, hturn] at h
      cases first <;> cases h
    | ok form =>
      rw [turns_succ hturn] at h
      cases first with
      | zero =>
        cases h
        exact ⟨start, hturn⟩
      | succ first => exact ih h

/-! ### Single turns -/

theorem turn_surface {query : Surface.Query} {stored : Backend.Query}
    (h : query.expand = .ok stored) : (surface query).turn = .ok (.backend stored) := by
  rw [turn, h]
  rfl

theorem turn_backend {stored : Backend.Query} {query : Surface.Query}
    (h : stored.condense = .ok query) : (backend stored).turn = .ok (.surface query) := by
  rw [turn, h]
  rfl

/-- Only expansion turns into a stored query. -/
theorem expand_of_turn {form : Form} {stored : Backend.Query}
    (h : form.turn = .ok (.backend stored)) :
    ∃ query : Surface.Query, query.expand = .ok stored := by
  cases form with
  | surface query =>
    refine ⟨query, ?_⟩
    cases hexpand : query.expand with
    | error fault =>
      rw [turn, hexpand] at h
      cases h
    | ok stored' =>
      rw [turn_surface hexpand] at h
      cases h
      rfl
  | backend query =>
    cases hcondense : query.condense with
    | error fault =>
      rw [turn, hcondense] at h
      cases h
    | ok query' =>
      rw [turn_backend hcondense] at h
      cases h

/-! ### Settling -/

/-- **One round settles**: an expanded query is condensed, and that expands to the
settled query. -/
theorem exists_round {query : Surface.Query} {stored : Backend.Query}
    (h : query.expand = .ok stored) :
    ∃ again : Surface.Query, stored.condense = .ok again ∧ again.expand = .ok stored.settle := by
  have hm := Surface.Query.meaning_of_expandWith h
  obtain ⟨again, hcondense⟩ := hm.orderly.exists_condense
  have hr := hm.orderly.recovers hcondense
  exact ⟨again, hcondense, hm.expandWith_settle hr Dataset.steady_bareId? hcondense⟩

/-- A run from a stored query: one round, then the same two forms over and
over. -/
def settling (stored : Backend.Query) (query : Surface.Query) (settled : Backend.Query)
    (again : Surface.Query) : Nat → Form
  | 0 => .backend stored
  | 1 => .surface query
  | n + 2 => if n % 2 = 0 then .backend settled else .surface again

section Settling

variable {stored settled : Backend.Query} {query again : Surface.Query}

theorem settling_even (round : Nat) :
    settling stored query settled again (2 * round + 2) = .backend settled := by
  rw [settling, if_pos (Nat.mul_mod_right 2 round)]

theorem settling_odd (round : Nat) :
    settling stored query settled again (2 * round + 3) = .surface again := by
  rw [settling, if_neg (by omega)]

/-- The run goes on where these are the turns of each other. -/
theorem turn_settling (hstored : stored.condense = .ok query) (hquery : query.expand = .ok settled)
    (hsettled : settled.condense = .ok again) (hagain : again.expand = .ok settled) (n : Nat) :
    (settling stored query settled again n).turn =
      .ok (settling stored query settled again (n + 1)) := by
  match n with
  | 0 => exact turn_backend hstored
  | 1 => exact turn_surface hquery
  | n + 2 =>
    obtain ⟨round, rfl | rfl⟩ : ∃ round, n = 2 * round ∨ n = 2 * round + 1 := ⟨n / 2, by omega⟩
    · rw [settling_even, settling_odd]
      exact turn_backend hsettled
    · have hnext : 2 * round + 1 + 2 + 1 = 2 * (round + 1) + 2 := by omega
      rw [hnext, settling_even, settling_odd]
      exact turn_surface hagain

end Settling

end Form

open Form

/-- **Cycles settle after one round.**  In a run of turns from any query, once a
stored query came out, every later turn gives an outcome; and from the second
stored query on, all stored queries are the same and so are all surface
queries. -/
theorem turns_settle {count first : Nat} {start : Form} {stored : Backend.Query}
    (h : (turns count start)[first]? = some (.ok (.backend stored))) :
    (∀ later, first ≤ later → later < count →
      ∃ form, (turns count start)[later]? = some (.ok form)) ∧
      ∃ settled again, ∀ round ≥ 1,
        (first + 2 * round < count →
          (turns count start)[first + 2 * round]? = some (.ok (.backend settled))) ∧
        (first + 2 * round + 1 < count →
          (turns count start)[first + 2 * round + 1]? = some (.ok (.surface again))) := by
  obtain ⟨form, hform⟩ := exists_turn h
  obtain ⟨query, hquery⟩ := expand_of_turn hform
  obtain ⟨next, hnext, hsettled⟩ := exists_round hquery
  obtain ⟨again, hagain, hsettled'⟩ := exists_round hsettled
  rw [Backend.Query.settle_settle] at hsettled'
  -- what follows the stored query is a run from it
  have hafter : ∀ n, first + 1 + n < count → (turns count start)[first + 1 + n]? =
      some (.ok (settling stored next stored.settle again (n + 1))) := by
    intro n hlt
    rw [getElem?_turns_add h]
    exact getElem?_turns (turn_settling hnext hsettled hagain hsettled') (by omega)
  refine ⟨?_, stored.settle, again, ?_⟩
  · intro later hle hlt
    rcases Nat.eq_or_lt_of_le hle with rfl | hlt'
    · exact ⟨_, h⟩
    · obtain ⟨n, rfl⟩ := Nat.exists_eq_add_of_le hlt'
      exact ⟨_, hafter n hlt⟩
  · intro round hround
    obtain ⟨round, rfl⟩ := Nat.exists_eq_add_of_le' hround
    constructor
    · intro hlt
      have hindex : first + 2 * (round + 1) = first + 1 + (2 * round + 1) := by omega
      rw [hindex] at hlt ⊢
      rw [hafter _ hlt, settling_even]
    · intro hlt
      have hindex : first + 2 * (round + 1) + 1 = first + 1 + (2 * round + 2) := by omega
      rw [hindex] at hlt ⊢
      rw [hafter _ hlt, settling_odd]

/-- The fourth and the sixth stored query of a run are the second. -/
theorem turns_joined :
    (turns 12 (.surface joined))[0]? = some (.ok (.backend joinedStored)) ∧
      ∃ settled, (turns 12 (.surface joined))[2]? = some (.ok (.backend settled)) ∧
        (turns 12 (.surface joined))[6]? = some (.ok (.backend settled)) ∧
        (turns 12 (.surface joined))[10]? = some (.ok (.backend settled)) := by
  have hturn : (Form.surface joined).turn = .ok (.backend joinedStored) :=
    turn_surface expand_joined
  have hfirst : (turns 12 (.surface joined))[0]? = some (.ok (.backend joinedStored)) := by
    rw [turns_succ hturn]
    rfl
  obtain ⟨-, settled, again, hsettled⟩ := turns_settle hfirst
  exact ⟨hfirst, settled, (hsettled 1 (by decide)).1 (by decide),
    (hsettled 3 (by decide)).1 (by decide), (hsettled 5 (by decide)).1 (by decide)⟩

end StagedQuery
