import Caret.Proofs.Document.Literals
import Caret.Proofs.Document.Faults
import Caret.Proofs.Shape.Json
import Caret.Proofs.Text.TabStops

/-!
# Skeletons of objects are read back

A skeleton without its tab stops is read as an object with the keys that it is written for. The
values are missing: the line ends right behind the colon and a blank, and so each property has a
placeholder for its value.
-/

namespace Caret

/-! ### The pieces of a skeleton -/

def tab : Kind × String := (.whitespace, "\t")

namespace Piece

def lineBreak (lead : List (Kind × String)) : Piece := ⟨lead, .newline, "\n"⟩

/-- Pieces with one leaf more in front of the first one. -/
def ledBy (leaf : Kind × String) : List Piece → List Piece
  | [] => []
  | piece :: pieces => { piece with lead := leaf :: piece.lead } :: pieces

variable {leaf : Kind × String} {pieces : List Piece}

theorem leaves_ledBy (hne : pieces ≠ []) : leaves (ledBy leaf pieces) = leaf :: leaves pieces := by
  obtain ⟨piece, pieces, rfl⟩ := List.exists_cons_of_ne_nil hne
  simp [ledBy]

theorem isSplit_ledBy (hleaf : leaf.1.isTrivia = true) (h : ∀ piece ∈ pieces, piece.IsSplit) :
    ∀ piece ∈ ledBy leaf pieces, piece.IsSplit := by
  cases pieces with
  | nil => exact nofun
  | cons piece pieces =>
      obtain ⟨⟨hlead, hkind⟩, hpieces⟩ := List.forall_mem_cons.1 h
      exact List.forall_mem_cons.2 ⟨⟨List.forall_mem_cons.2 ⟨hleaf, hlead⟩, hkind⟩, hpieces⟩

end Piece

/-- A line for each name, in front of other pieces. -/
def propertyPieces (after : List Piece) : List String → List Piece
  | [] => after
  | name :: names =>
    Piece.ledBy tab (keyPieces name ++ colonPiece :: .lineBreak [blank] :: propertyPieces after names)

/-- An object with a line for each name, or with one empty line. -/
def skeletonPieces (lead : List (Kind × String)) (after : List Piece) (names : List String) :
    List Piece :=
  .lBrace lead :: .lineBreak [] ::
    if names = [] then .lineBreak [tab] :: .rBrace :: after
    else propertyPieces (.rBrace :: after) names

/-- A property without a value. -/
def propertyTree (name : String) : Tree :=
  .node .objectProperty
    [keyTree name, .leaf .colon ":", .leaf .whitespace " ", .node .missing []]

def lineTrees (name : String) : List Tree :=
  [.leaf .whitespace "\t", propertyTree name, .leaf .newline "\n"]

def skeletonTree (names : List String) : Tree :=
  .node .object (.leaf .lBrace "\x7b" :: .leaf .newline "\n" ::
    ((if names = [] then [.leaf .whitespace "\t", .leaf .newline "\n"] else names.flatMap lineTrees) ++
      [.leaf .rBrace "\x7d"]))

theorem Piece.ledBy_append {leaf : Kind × String} {pieces : List Piece} (hne : pieces ≠ [])
    (more : List Piece) : ledBy leaf (pieces ++ more) = ledBy leaf pieces ++ more := by
  obtain ⟨piece, pieces, rfl⟩ := List.exists_cons_of_ne_nil hne
  rfl

theorem propertyPieces_append (after more : List Piece) (names : List String) :
    propertyPieces (after ++ more) names = propertyPieces after names ++ more := by
  induction names with
  | nil => rfl
  | cons name names ih =>
      rw [propertyPieces, propertyPieces, ih, ← Piece.ledBy_append (by simp)]
      simp

theorem skeletonPieces_append (lead : List (Kind × String)) (after more : List Piece)
    (names : List String) :
    skeletonPieces lead (after ++ more) names = skeletonPieces lead after names ++ more := by
  unfold skeletonPieces
  by_cases hnone : names = []
  · simp [hnone]
  · rw [if_neg hnone, if_neg hnone, ← List.cons_append, propertyPieces_append]
    rfl

/-- The fault of a value that is missing at the end of its line. -/
def valueCause : SyntaxError.Cause := .absent .expression .newline

/-! ### The trees of a skeleton -/

namespace Rule

variable {after rest : List Piece} {budget : Nat}

/-- Nothing is read where a line ends behind a blank. -/
theorem yields_absentValue (budget : Nat) (after : List Piece) :
    (level (budget + 1)).expr.Yields (.lineBreak [blank] :: after)
      [.leaf .whitespace " ", .node .missing []] [valueCause] (.lineBreak [] :: after) := by
  have habsent : (primary (level budget).expr).Yields (.lineBreak [] :: after) [.node .missing []]
      [valueCause] (.lineBreak [] :: after) :=
    (yields_absent .expression).congr fun input hinput => by
      have hkind : Rule.kind input = .newline := kind_of_piece hinput
      exact primary_of_not_startsExpr (by rw [hkind]; rfl)
  exact Yields.expr_of_primary habsent (by decide) (by decide) (by decide)

section Loop

variable {close : Kind} {startsItem : Kind → Bool} {item : Rule} {cause : SyntaxError.Cause}
  {trees : List Tree} {causes : List SyntaxError.Cause}

theorem Yields.listLineBreak (hprogress : Progresses (listStep close startsItem item cause))
    (h : (loop (listStep close startsItem item cause)).Yields after trees causes rest)
    (lead : List (Kind × String)) :
    (loop (listStep close startsItem item cause)).Yields (.lineBreak lead :: after)
      (lead.map Tree.ofLeaf ++ [.leaf .newline "\n"] ++ trees) causes rest :=
  Yields.loop_again hprogress
    (fun input hinput => by
      have hkind : Rule.kind input = .newline := kind_of_piece hinput
      simp [listStep, hkind])
    (yields_take (by rw [Piece.lineBreak, Piece.kind_mk]; decide)) h

end Loop

section Object

variable {expr : Rule} (hspells : ∀ input, (expr input).Spells [] input)
  (hvalue : ∀ after, expr.Yields (.lineBreak [blank] :: after)
    [.leaf .whitespace " ", .node .missing []] [valueCause] (.lineBreak [] :: after))

include hspells hvalue

/-- The properties of an object, one on each line, are read up to the brace that closes it. -/
theorem yields_properties (names : List String) (after : List Piece) :
    (loop (listStep .rBrace startsProperty (property expr) .notAProperty)).Yields
      (propertyPieces (.rBrace :: after) names) (names.flatMap lineTrees ++ [.leaf .rBrace "\x7d"])
      (names.map fun _ => valueCause) after := by
  induction names with
  | nil =>
      exact yields_listClose (progresses_property hspells) rfl (by decide) (by decide) (by decide)
  | cons name names ih =>
      obtain ⟨⟨lead, leaf⟩, following, before, hpieces, hlead, hkind, hident, heq⟩ :=
        exists_keyPieces name (.lineBreak [blank] :: propertyPieces (.rBrace :: after) names)
      obtain rfl : lead = [] := hlead
      have hstart : startsProperty (Piece.kind ⟨[tab], leaf⟩) = true ∧
          Piece.kind ⟨[tab], leaf⟩ ≠ .newline ∧ Piece.kind ⟨[tab], leaf⟩ ≠ .comma ∧
          Piece.kind ⟨[tab], leaf⟩ ≠ .rBrace ∧
          closers.contains (Piece.kind ⟨[tab], leaf⟩) = false := by
        rw [Piece.kind_mk] at hkind ⊢
        rcases hkind with h | h <;> rw [h] <;> decide
      obtain ⟨hstarts, hline, hcomma, hclose, hclosers⟩ := hstart
      have hkey := yields_key hspells name
        (colonPiece :: .lineBreak [blank] :: propertyPieces (.rBrace :: after) names)
      rw [hpieces] at hkey
      have hproperty := Yields.property ⟨[tab], leaf⟩ colonPiece hkey rfl
        (hvalue (propertyPieces (.rBrace :: after) names)) (by decide)
      have hrest := ih.listLineBreak (progresses_property hspells) []
      rw [propertyPieces, hpieces, Piece.ledBy]
      exact Yields.listItem (progresses_property hspells) hstarts hline hcomma hclose hclosers
        hident heq hproperty hrest

theorem yields_skeleton (names : List String) (after : List Piece) :
    (object expr).Yields (skeletonPieces [] after names) [skeletonTree names]
      (names.map fun _ => valueCause) after := by
  have hinner := yields_properties hspells hvalue names after
  unfold skeletonPieces skeletonTree
  by_cases hnone : names = []
  · subst hnone
    have hempty := hinner.listLineBreak (progresses_property hspells) [tab]
    have hloop := hempty.listLineBreak (progresses_property hspells) []
    exact ((yields_take (by simp)).andThen hloop).node
  · have hloop := hinner.listLineBreak (progresses_property hspells) []
    rw [if_neg hnone, if_neg hnone]
    exact ((yields_take (by simp)).andThen hloop).node

end Object

/-- A skeleton is the value of a variable. -/
theorem yields_skeletonValue (names : List String) :
    Rule.expr.Yields (skeletonPieces [blank] [.endOfFile] names)
      [.leaf .whitespace " ", skeletonTree names] (names.map fun _ => valueCause) [.endOfFile] := by
  have hobject := (yields_skeleton (spells_level 127).expr (yields_absentValue 126) names
    [.endOfFile]).congr fun _ hinput => (Primary.object (kind_of_piece hinput)).eq
  change (level 128).expr.Yields _ _ _ _
  exact Yields.expr_of_primary hobject (by simp) (by simp) (by decide)

end Rule

/-! ### The text of a skeleton -/

namespace Piece

theorem keyPieces_ne_nil (name : String) : keyPieces name ≠ [] := by
  unfold keyPieces quotedPieces
  split
  · exact List.cons_ne_nil _ _
  · exact List.cons_ne_nil _ _

theorem isSplit_keyPieces (name : String) : ∀ piece ∈ keyPieces name, piece.IsSplit := by
  unfold keyPieces
  split
  · simp [IsSplit, Piece.name, ofLeaf, kind, Kind.isTrivia]
  · exact isSplit_quotedPieces (by simp) name

theorem isSplit_lineBreak {lead : List (Kind × String)}
    (h : ∀ leaf ∈ lead, leaf.1.isTrivia = true) : (lineBreak lead).IsSplit := ⟨h, rfl⟩

theorem isSplit_propertyPieces {after : List Piece} (h : ∀ piece ∈ after, piece.IsSplit)
    (names : List String) : ∀ piece ∈ propertyPieces after names, piece.IsSplit := by
  induction names with
  | nil => exact h
  | cons name names ih =>
      refine isSplit_ledBy rfl (List.forall_mem_append.2 ⟨isSplit_keyPieces name, ?_⟩)
      refine List.forall_mem_cons.2 ⟨⟨nofun, rfl⟩, List.forall_mem_cons.2 ⟨?_, ih⟩⟩
      exact isSplit_lineBreak (by decide)

theorem isSplit_skeletonPieces {after : List Piece} (h : ∀ piece ∈ after, piece.IsSplit)
    (names : List String) : ∀ piece ∈ skeletonPieces [blank] after names, piece.IsSplit := by
  have hclose : ∀ piece ∈ rBrace :: after, piece.IsSplit :=
    List.forall_mem_cons.2 ⟨⟨nofun, rfl⟩, h⟩
  refine List.forall_mem_cons.2 ⟨⟨by decide, rfl⟩, List.forall_mem_cons.2 ⟨⟨nofun, rfl⟩, ?_⟩⟩
  by_cases hnone : names = []
  · rw [if_pos hnone]
    exact List.forall_mem_cons.2 ⟨isSplit_lineBreak (by decide), hclose⟩
  · rw [if_neg hnone]
    exact isSplit_propertyPieces hclose names

end Piece

namespace Lexer

variable {rest : List Char}

theorem cutLeaves_tab (hrest : ∀ c ∈ rest.head?, isBlank c = false) :
    cutLeaves [] ('\t' :: rest) = tab :: cutLeaves [] rest :=
  @cutLeaves_blanks [] rfl ['\t'] rest (by simp) (by simp; decide) hrest

theorem not_isBlank_keyText (name : String) (rest : List Char) :
    ∀ c ∈ ((keyText name).toList ++ ':' :: rest).head?, isBlank c = false := by
  unfold keyText
  by_cases hvalid : Identifier.isValid name = true
  · rw [if_pos hvalid]
    exact not_isBlank_head_name hvalid _
  · rw [if_neg hvalid, Quoted.toList_quote]
    simp
    decide

/-- A line of a skeleton is cut into the pieces of its property. -/
theorem cutLeaves_bareLine (name : String) (rest : List Char) :
    cutLeaves [] (Shape.bareLine name ++ rest) =
      tab :: (Piece.leaves (keyPieces name) ++
        [(.colon, ":"), blank, (.newline, "\n")]) ++ cutLeaves [] rest := by
  have hchars : Shape.bareLine name ++ rest =
      '\t' :: ((keyText name).toList ++ ':' :: (' ' :: '\n' :: rest)) := by
    simp [Shape.bareLine]
  have hcolon : cutLeaves [] (':' :: ' ' :: '\n' :: rest) =
      (.colon, ":") :: cutLeaves [] (' ' :: '\n' :: rest) := cutLeaves_sign rfl rfl
  rw [hchars, cutLeaves_tab (not_isBlank_keyText name _), cutLeaves_key, hcolon,
    cutLeaves_blank rfl (by simp; decide), cutLeaves_lineFeed rfl]
  simp [blank]

/-- The lines of a skeleton are cut into the pieces of its properties. -/
theorem cutLeaves_bareLines {after : List Piece} (hafter : Piece.leaves after = cutLeaves [] rest)
    (names : List String) :
    cutLeaves [] (names.flatMap Shape.bareLine ++ rest) =
      Piece.leaves (propertyPieces after names) := by
  induction names with
  | nil => exact hafter.symm
  | cons name names ih =>
      have hne : keyPieces name ++ colonPiece :: .lineBreak [blank] :: propertyPieces after names ≠
          [] := List.append_ne_nil_of_left_ne_nil (Piece.keyPieces_ne_nil name) _
      rw [List.flatMap_cons, List.append_assoc, cutLeaves_bareLine, ih, propertyPieces,
        Piece.leaves_ledBy hne]
      simp [colonPiece, Piece.lineBreak, Piece.ofLeaf]

theorem leaves_skeletonPieces (names : List String) :
    Piece.leaves (skeletonPieces [blank] [] names) =
      blank :: cutLeaves [] (Shape.bareSkeleton names).toList := by
  have hclose : Piece.leaves [.rBrace] = cutLeaves [] ['\x7d'] := by
    rw [cutLeaves_rBrace, cutLeaves_nil]
    rfl
  rw [Shape.bareSkeleton, String.toList_ofList, cutLeaves_lBrace, cutLeaves_lineFeed rfl,
    skeletonPieces]
  by_cases hnone : names = []
  · rw [if_pos hnone, if_pos hnone, List.cons_append, cutLeaves_tab (by simp; decide),
      List.singleton_append, cutLeaves_lineFeed rfl, ← hclose]
    rfl
  · rw [if_neg hnone, if_neg hnone, cutLeaves_bareLines hclose]
    simp [Piece.lBrace, Piece.lineBreak]

end Lexer

/-! ### The keys of a skeleton -/

namespace Locus

variable {locus : Locus} {names : List String} {name : String} {start : Nat}

theorem propertyName_of_holds (h : locus.Holds (propertyTree name)) :
    locus.propertyName = some name := by
  obtain ⟨start, helement⟩ := h
  have hkey := map_element_nodeOf locus .propertyKey
  rw [helement] at hkey
  obtain ⟨key, hfound, hkeyElement⟩ := Option.map_eq_some_iff.1 (hkey.trans (by rfl))
  rw [propertyName, keyNode, hfound, Option.bind_some]
  exact keyText_of_element hkeyElement

theorem filterMap_propertyName {loci : List Locus}
    (h : List.Forall₂ Holds loci (names.map propertyTree)) :
    loci.filterMap propertyName = names := by
  induction names generalizing loci with
  | nil =>
      obtain rfl := List.forall₂_nil_right_iff.1 h
      rfl
  | cons name names ih =>
      obtain ⟨locus, rest, hholds, hrest, rfl⟩ := List.forall₂_cons_right_iff.1 h
      rw [List.filterMap_cons_some (propertyName_of_holds hholds), ih hrest]

theorem filter_lineTrees (names : List String) :
    (names.flatMap lineTrees).filter (fun tree => tree.kind = .objectProperty && tree.isNode) =
      names.map propertyTree := by
  induction names with
  | nil => rfl
  | cons name names ih =>
      rw [List.flatMap_cons, List.filter_append, ih]
      rfl

/-- The keys of a skeleton are the names that it is written for. -/
theorem keys_of_element (h : locus.element = (skeletonTree names).locate start) :
    locus.keys = names := by
  have hholds : locus.Holds (skeletonTree names) := ⟨start, h⟩
  have hsame : Relator.LiftFun Holds (· ↔ ·)
      (fun child : Locus => (child.kind = .objectProperty && child.isNode) = true)
      (fun tree : Tree => (tree.kind = .objectProperty && tree.isNode) = true) := by
    intro child tree hchild
    dsimp only
    rw [hchild.kind_eq, hchild.isNode_eq]
  have hfilter := List.rel_filter hsame hholds.forall₂_children
  have htrees : (Tree.leaf .lBrace "\x7b" :: .leaf .newline "\n" ::
      ((if names = [] then [.leaf .whitespace "\t", .leaf .newline "\n"]
        else names.flatMap lineTrees) ++ [.leaf .rBrace "\x7d"])).filter
        (fun tree => tree.kind = .objectProperty && tree.isNode) = names.map propertyTree := by
    by_cases hnone : names = []
    · rw [hnone]
      rfl
    · rw [if_neg hnone, List.filter_cons_of_neg (by decide), List.filter_cons_of_neg (by decide),
        List.filter_append, filter_lineTrees, List.filter_cons_of_neg (by decide), List.filter_nil,
        List.append_nil]
  rw [htrees] at hfilter
  rw [keys, properties, nodes, List.filter_filter]
  exact filterMap_propertyName hfilter

end Locus

namespace Document

theorem parse_skeleton (names : List String) :
    (parse ("var x = " ++ Shape.bareSkeleton names)).tree =
        .node .root [variableTree (skeletonTree names)] ∧
      (parse ("var x = " ++ Shape.bareSkeleton names)).errors.map SyntaxError.cause =
        names.map fun _ => valueCause := by
  refine parse_variable (Piece.isSplit_skeletonPieces (List.forall_mem_nil _) names)
    (Lexer.leaves_skeletonPieces names) ?_ ?_
  · rw [Shape.bareSkeleton, String.toList_ofList]
    simp
    decide
  · rw [← skeletonPieces_append]
    exact Rule.yields_skeletonValue names

/-- The value of a variable takes the rest of the text. -/
theorem span_of_variable {text : String} {tree : Tree} {value : Locus}
    (htree : (parse text).tree = .node .root [variableTree tree])
    (hvalue : value.element = tree.locate 8) : value.span = ⟨8, text.utf8ByteSize⟩ := by
  have hroot : (locus text).span = ⟨0, 0 + (Tree.node .root [variableTree tree]).size⟩ := by
    rw [← htree]
    exact Tree.span_locate _ 0
  rw [span_locus, Span.mk.injEq] at hroot
  have hsize : (Tree.node .root [variableTree tree]).size = 8 + tree.size := by
    have hwords : "var".utf8ByteSize = 3 ∧ " ".utf8ByteSize = 1 ∧ "x".utf8ByteSize = 1 ∧
        "=".utf8ByteSize = 1 := by decide +kernel
    simp only [variableTree, Tree.size, Tree.sizeAll, hwords]
    omega
  rw [Locus.span_of_element hvalue, hroot.2, hsize, Nat.zero_add]

end Document

/-- The names of the required members come in their order. -/
theorem Shape.pairwise_requiredNames {shape : Shape} (h : shape.IsOrdered) :
    shape.requiredNames.Pairwise (· < ·) := by
  cases shape with
  | object name members =>
      have hsorted := (isOrdered_object_iff.1 h).1
      exact List.pairwise_map.2 (hsorted.sublist List.filter_sublist)
  | _ => exact List.Pairwise.nil

end Caret
