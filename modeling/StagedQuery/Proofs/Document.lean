/-
StagedQuery/Proofs/Document.lean

Reading the text of a document gives the document back, as a tree.

A document that is written becomes a text with the tokens of a node and the blanks of
a layout between them, so it is enough to find that node.  What is said of a part of
the text holds whatever follows that part:

    Spaced rest behind → Spaced (part ++ rest) (text ++ behind).

The text then spells the part (`Spells`), which goes through concatenation: a quoted
text spells a string, blanks spell nothing, and brackets around texts spell what is
between them, for lists and records alike.

Main statement: `document_render`, a rendered document reads as its own tree, and
nothing follows it.
-/
import StagedQuery.Json.Layout
import StagedQuery.Proofs.Node

namespace StagedQuery.Json

/-! ### The tree of a document -/

mutual

/-- A document as a tree. -/
def Doc.tree : Doc → Tree
  | .text s => .str (some s)
  | .list items => .list (itemTrees items) none
  | .record members => .record (memberTrees members) none

/-- The items of a list as trees. -/
def itemTrees : List Doc → List Tree
  | [] => []
  | item :: rest => item.tree :: itemTrees rest

/-- The members of a record as members of a tree. -/
def memberTrees : List (String × Doc) → List Member
  | [] => []
  | (name, value) :: rest => (some name, value.tree) :: memberTrees rest

end

/-! ### Blanks -/

/-- A layout that puts nothing but blanks between tokens. -/
structure Layout.Blank (layout : Layout) : Prop where
  /-- Before an item, a member or a closing bracket. -/
  gap : ∀ depth, ∀ c ∈ layout.gap depth, isSpace c = true
  /-- Behind a colon. -/
  space : ∀ c ∈ layout.space, isSpace c = true

theorem Layout.blank_compact : compact.Blank :=
  ⟨fun _ _ hc => absurd hc List.not_mem_nil, fun _ hc => absurd hc List.not_mem_nil⟩

theorem Layout.blank_indented : indented.Blank := by
  refine ⟨fun depth c hc => ?_, fun c hc => ?_⟩
  · rcases List.mem_cons.1 hc with rfl | hc
    · rfl
    · rw [List.eq_of_mem_replicate hc]
      rfl
  · rw [List.mem_singleton.1 hc]
    rfl

/-! ### Parts of a text -/

/-- The text spells the part, whatever is spelled behind it. -/
def Spells (text : List Char) (part : List Spelling) : Prop :=
  ∀ rest behind, Spaced rest behind → Spaced (part ++ rest) (text ++ behind)

section Parts

variable {text text' : List Char} {part part' : List Spelling}

theorem Spells.append (h : Spells text part) (h' : Spells text' part') :
    Spells (text ++ text') (part ++ part') := by
  intro rest behind hrest
  rw [List.append_assoc, List.append_assoc]
  exact h _ _ (h' rest behind hrest)

theorem spells_token (spelling : Spelling) : Spells spelling.text [spelling] :=
  fun _ _ hrest => @Spaced.spelling [] _ _ _ (List.forall_mem_nil _) hrest

theorem spells_blanks {blanks : List Char} (h : IsSpaces blanks) : Spells blanks [] := by
  intro rest behind hrest
  induction blanks with
  | nil => exact hrest
  | cons c blanks ih =>
    obtain ⟨hc, hblanks⟩ := List.forall_mem_cons.1 h
    exact (ih hblanks).blank hc

theorem Spells.spaced (h : Spells text part) : Spaced part text := by
  have hspaced := h [] [] (.done (List.forall_mem_nil _))
  rwa [List.append_nil, List.append_nil] at hspaced

/-- A quoted text spells a string that stands for it. -/
theorem exists_string_of_quote (s : String) :
    ∃ glyphs, valueOf? glyphs = some s ∧ quote s = (Spelling.string glyphs).text := by
  have hscan := scan_escape s.toList []
  obtain ⟨glyphs, htext, hpieces⟩ := exists_glyphs (congrArg Scan.close hscan)
  refine ⟨glyphs, ?_, ?_⟩
  · rw [valueOf?, ← hpieces, hscan]
    exact text?_pieces s
  · rw [quote, htext]
    rfl

variable {layout : Layout} {depth inner : Nat} {texts : List (List Char)}
  {parts : List (List Spelling)}

/-- Behind a text: the other texts, each behind a comma. -/
theorem spells_flatMap (hblank : layout.Blank) (hparts : List.Forall₂ Spells texts parts) :
    Spells (texts.flatMap fun text => ',' :: (layout.gap inner ++ text))
      (parts.flatMap (.comma :: ·)) := by
  induction hparts with
  | nil => exact fun _ _ hrest => hrest
  | @cons text part texts parts hpart _ ih =>
    have hfirst : Spells (',' :: (layout.gap inner ++ text)) (.comma :: part) :=
      (spells_token .comma).append ((spells_blanks (hblank.gap inner)).append hpart)
    rw [List.flatMap_cons, List.flatMap_cons]
    exact hfirst.append ih

/-- Brackets around texts. -/
theorem spells_enclose (hblank : layout.Blank) (hparts : List.Forall₂ Spells texts parts)
    {opening closing : Spelling} {c d : Char} (hopening : opening.text = [c])
    (hclosing : closing.text = [d]) :
    Spells (layout.enclose depth c d texts) (opening :: (separated parts ++ [closing])) := by
  have hopen : Spells [c] [opening] := hopening ▸ spells_token opening
  have hclose : Spells [d] [closing] := hclosing ▸ spells_token closing
  cases hparts with
  | nil => exact hopen.append hclose
  | @cons text part texts parts hpart hparts =>
    have hfirst := (spells_blanks (hblank.gap (depth + 1))).append hpart
    have hlast := (spells_blanks (hblank.gap depth)).append hclose
    exact hopen.append ((hfirst.append (spells_flatMap hblank hparts)).append hlast)

end Parts

/-! ### Documents -/

section Documents

variable {layout : Layout}

mutual

/-- A written document spells a node that has its tree, at any depth. -/
theorem exists_node (hblank : layout.Blank) :
    ∀ (doc : Doc) (depth : Nat), ∃ node : Node,
      node.tree = doc.tree ∧ Spells (doc.write layout depth) node.spellings
  | .text s, _ => by
    obtain ⟨glyphs, hvalue, hquote⟩ := exists_string_of_quote s
    refine ⟨.string glyphs, ?_, ?_⟩
    · rw [Node.tree, Doc.tree, hvalue]
    · rw [Doc.write, hquote]
      exact spells_token (.string glyphs)
  | .list items, depth => by
    obtain ⟨nodes, htrees, hparts⟩ := exists_nodes hblank items (depth + 1)
    refine ⟨.list nodes, ?_, ?_⟩
    · rw [Node.tree, Doc.tree, htrees]
    · rw [Doc.write, Node.spellings]
      exact spells_enclose hblank hparts rfl rfl
  | .record members, depth => by
    obtain ⟨nodes, htrees, hparts⟩ := exists_memberNodes hblank members (depth + 1)
    refine ⟨.record nodes, ?_, ?_⟩
    · rw [Node.tree, Doc.tree, htrees]
    · rw [Doc.write, Node.spellings]
      exact spells_enclose hblank hparts rfl rfl

theorem exists_nodes (hblank : layout.Blank) :
    ∀ (items : List Doc) (depth : Nat), ∃ nodes : List Node,
      nodeTrees nodes = itemTrees items ∧
        List.Forall₂ Spells (writeItems layout depth items) (itemSpellings nodes)
  | [], _ => ⟨[], rfl, .nil⟩
  | item :: rest, depth => by
    obtain ⟨node, htree, hpart⟩ := exists_node hblank item depth
    obtain ⟨nodes, htrees, hparts⟩ := exists_nodes hblank rest depth
    exact ⟨node :: nodes, by rw [nodeTrees, itemTrees, htree, htrees], .cons hpart hparts⟩

theorem exists_memberNodes (hblank : layout.Blank) :
    ∀ (members : List (String × Doc)) (depth : Nat), ∃ nodes : List (List Glyph × Node),
      nodeMembers nodes = memberTrees members ∧
        List.Forall₂ Spells (writeMembers layout depth members) (memberSpellings nodes)
  | [], _ => ⟨[], rfl, .nil⟩
  | (name, value) :: rest, depth => by
    obtain ⟨key, hvalue, hquote⟩ := exists_string_of_quote name
    obtain ⟨node, htree, hpart⟩ := exists_node hblank value depth
    obtain ⟨nodes, htrees, hparts⟩ := exists_memberNodes hblank rest depth
    refine ⟨(key, node) :: nodes, ?_, .cons ?_ hparts⟩
    · rw [nodeMembers, memberTrees, hvalue, htree, htrees]
    · -- a member is a name, a colon and a value
      rw [hquote]
      exact (spells_token (.string key)).append
        ((spells_token .colon).append ((spells_blanks hblank.space).append hpart))

end

/-- **The tree of a rendered document is its tree**, and nothing follows it. -/
theorem document_render (hblank : layout.Blank) (doc : Doc) :
    document (doc.render layout) = ⟨doc.tree, false⟩ := by
  obtain ⟨node, htree, hspells⟩ := exists_node hblank doc 0
  have hwrites : Writes (doc.render layout) node := by
    rw [Writes, Doc.render, String.toList_ofList]
    exact hspells.spaced
  rw [hwrites.document, htree]

end Documents

end StagedQuery.Json
