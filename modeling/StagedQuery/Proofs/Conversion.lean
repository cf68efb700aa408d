/-
StagedQuery/Proofs/Conversion.lean

The commands on texts, one after the other.

A command reads a query from a text, sends it through a pass and writes what comes
out in the layout that is asked for.  What one command writes the other one reads,
in either layout, so a chain of commands is a chain of passes.  A chain that begins
with the text of a surface query is settled after one round, as queries are: from
the second backend text on, texts in one layout are the same.

Main statement: `conversions_settle`.
-/
import StagedQuery.Proofs.Cycle
import StagedQuery.Proofs.Wire

namespace StagedQuery

namespace Cli

variable {text : Option String} {surface : Surface.Query} {stored : Backend.Query}

/-! ### One command -/

/-- A text is expanded where it holds a surface query that is. -/
theorem expandText_eq_ok_iff :
    expandText text = .ok stored ↔
      ∃ body surface, text = some body ∧ Surface.Query.ofText body = .ok surface ∧
        surface.expand = .ok stored := by
  cases text with
  | none => simp [expandText]
  | some body =>
    cases hread : Surface.Query.ofText body <;> simp [expandText, hread, mapError_eq_ok_iff]

/-- A text is condensed where it holds a backend query that is. -/
theorem condenseText_eq_ok_iff :
    condenseText text = .ok surface ↔
      ∃ body stored, text = some body ∧ Backend.Query.ofText body = .ok stored ∧
        stored.condense = .ok surface := by
  cases text with
  | none => simp [condenseText]
  | some body =>
    cases hread : Backend.Query.ofText body <;> simp [condenseText, hread, mapError_eq_ok_iff]

/-- Counting the stages is expanding and reading the outcome. -/
theorem validate_eq_ok_iff (pretty : Bool) {count : Nat} :
    validate text = .ok count ↔
      ∃ out stored, compile text pretty = .ok out ∧ Backend.Query.ofText out = .ok stored ∧
        stored.stages.length = count := by
  rw [validate, map_eq_ok_iff]
  constructor
  · rintro ⟨stored, hexpand, hcount⟩
    exact ⟨_, stored, map_eq_ok_iff.2 ⟨stored, hexpand, rfl⟩,
      stored.ofText_render (blank_layoutOf pretty), hcount⟩
  · rintro ⟨out, stored, hcompile, hread, hcount⟩
    -- the query that is read is the one that was written
    obtain ⟨expanded, hexpand, rfl⟩ := map_eq_ok_iff.1 hcompile
    rw [expanded.ofText_render (blank_layoutOf pretty)] at hread
    cases hread
    exact ⟨stored, hexpand, hcount⟩

/-! ### Texts that were written -/

/-- The text of a surface query is expanded as the query is. -/
theorem compile_render (h : surface.expand = .ok stored) (pretty pretty' : Bool) :
    compile (some (surface.render (layoutOf pretty))) pretty' =
      .ok (stored.render (layoutOf pretty')) := by
  have hread := surface.ofText_render (blank_layoutOf pretty)
  exact map_eq_ok_iff.2 ⟨stored, expandText_eq_ok_iff.2 ⟨_, surface, rfl, hread, h⟩, rfl⟩

/-- The text of a backend query is condensed as the query is. -/
theorem decompile_render (h : stored.condense = .ok surface) (pretty pretty' : Bool) :
    decompile (some (stored.render (layoutOf pretty))) pretty' =
      .ok (surface.render (layoutOf pretty')) := by
  have hread := stored.ofText_render (blank_layoutOf pretty)
  exact map_eq_ok_iff.2 ⟨surface, condenseText_eq_ok_iff.2 ⟨_, stored, rfl, hread, h⟩, rfl⟩

end Cli

open Cli

/-- **Texts settle after one round.**  Counting the stages that a text expands to
agrees with expanding it, whatever the layout.  A text that was expanded is
condensed, expanded, condensed and expanded again; the layout of each text that
comes out is its own, and those of the last two expansions are the same. -/
theorem conversions_settle (text : Option String) :
    (∀ pretty : Bool,
      (∀ count, validate text = .ok count ↔
        ∃ out stored, compile text pretty = .ok out ∧ Backend.Query.ofText out = .ok stored ∧
          stored.stages.length = count) ∧
      ∀ problem, validate text = .error problem ↔ compile text pretty = .error problem) ∧
    ∀ (pretty : Bool) (out : String), compile text pretty = .ok out →
      ∃ condensed settled again : Bool → String,
        (∀ p, decompile (some out) p = .ok (condensed p)) ∧
        (∀ p p', compile (some (condensed p)) p' = .ok (settled p')) ∧
        (∀ p p', decompile (some (settled p)) p' = .ok (again p')) ∧
        ∀ p p', compile (some (again p)) p' = .ok (settled p') := by
  refine ⟨fun pretty => ⟨fun count => validate_eq_ok_iff pretty, fun problem => ?_⟩, ?_⟩
  · rw [validate, compile, map_eq_error_iff, map_eq_error_iff]
  · intro pretty out hout
    obtain ⟨stored, hexpand, rfl⟩ := map_eq_ok_iff.1 hout
    obtain ⟨-, query, -, -, hquery⟩ := expandText_eq_ok_iff.1 hexpand
    -- a round of queries, twice; what it settles to the second time is settled already
    obtain ⟨next, hnext, hsettled⟩ := Form.exists_round hquery
    obtain ⟨last, hlast, hsettled'⟩ := Form.exists_round hsettled
    rw [Backend.Query.settle_settle] at hsettled'
    refine ⟨fun p => next.render (layoutOf p), fun p => stored.settle.render (layoutOf p),
      fun p => last.render (layoutOf p), ?_, ?_, ?_, ?_⟩
    · exact decompile_render hnext pretty
    · exact compile_render hsettled
    · exact decompile_render hlast
    · exact compile_render hsettled'

/-- The example as a text, with a member that is no field, two stages in their positional
form and an escaped letter. -/
def joinedText : String :=
  "\x7b\"v\":[],\"inputs\":\x7b\"spare\":\"7\",\"in\":\"o:::dataset:41/2\"\x7d,\"stages\":[
[\"base\",\"in\",\"filter \\u0074rue\"],[null,\"base\",\"sort time\"],\x7b\"pipeline\":\"join @base\"\x7d]\x7d"

/-- It settles, whichever layouts the texts between are written in. -/
theorem joinedText_settles :
    compile (some joinedText) false = .ok (joinedStored.render .compact) ∧
      ∃ condensed settled again : Bool → String,
        decompile (some (joinedStored.render .compact)) true = .ok (condensed true) ∧
        compile (some (condensed true)) false = .ok (settled false) ∧
        decompile (some (settled false)) true = .ok (again true) ∧
        compile (some (again true)) false = .ok (settled false) := by
  have hread : Surface.Query.ofText joinedText = .ok joined := by decide +kernel
  have hexpand : expandText (some joinedText) = .ok joinedStored :=
    expandText_eq_ok_iff.2 ⟨joinedText, joined, rfl, hread, expand_joined⟩
  have hcompile : compile (some joinedText) false = .ok (joinedStored.render .compact) :=
    map_eq_ok_iff.2 ⟨joinedStored, hexpand, rfl⟩
  obtain ⟨condensed, settled, again, hcondensed, hsettled, hagain, hsettled'⟩ :=
    (conversions_settle (some joinedText)).2 false _ hcompile
  exact ⟨hcompile, condensed, settled, again, hcondensed true, hsettled true false,
    hagain false true, hsettled' true false⟩

end StagedQuery
