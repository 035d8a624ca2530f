import Caret.Completion
import Caret.Proofs.Document.Paths
import Caret.Proofs.Document.Views
import Caret.Proofs.Lexer.Constructs

/-!
# Texts and names that are written down

A text in quotes is cut into the quotes and one text between them, and is read as a string with that
text for its value. A name that is written as a key is read as a key with that name.
-/

namespace Caret

/-- In balanced tokens without block comments, nothing is marked as cut off. -/
theorem unterminated_eq_false {text : String}
    (hbalanced : Construct.Balanced ((Lexer.cutLeaves [] text.toList).map Prod.fst))
    (hcomment : ∀ leaf ∈ Lexer.cutLeaves [] text.toList, leaf.1 ≠ .blockComment) :
    ∀ token ∈ tokenize text, token.unterminated = false := by
  have hkinds : (Lexer.scan [] 0 text.toList).1.map Token.kind =
      (Lexer.cutLeaves [] text.toList).map Prod.fst := by
    rw [Lexer.cutLeaves, List.map_map]
    rfl
  have hmodes : (Lexer.scan [] 0 text.toList).2 = [] := by
    have hopen := Lexer.construct_scan [] 0 text.toList
    rw [hkinds, List.map_nil, Construct.behind_of_unwind hbalanced] at hopen
    exact List.map_eq_nil_iff.1 hopen
  intro token hmem
  rw [tokenize, hmodes] at hmem
  rcases List.mem_append.1 hmem with hmem | hmem
  · rw [← Bool.not_eq_true]
    intro hmarked
    have hleaf : token.leaf ∈ Lexer.cutLeaves [] text.toList := List.mem_map_of_mem hmem
    exact hcomment _ hleaf (Lexer.of_unterminated_of_mem_scan hmem hmarked).1
  · rw [List.mem_singleton.1 hmem]
    rfl

/-! ### Texts in quotes -/

theorem textLeaves_body_of_ne {text : String} (h : text ≠ "") :
    textLeaves (Quoted.body text) = [(.stringText, Quoted.body text)] := by
  refine if_neg fun hbody => h ?_
  rw [← unescape_body text, hbody]
  exact unescape_body ""

theorem cutLeaves_quote_alone (text : String) :
    Lexer.cutLeaves [] (quote text).toList =
      (.stringStart, "\x27") :: (textLeaves (Quoted.body text) ++ [(.stringEnd, "\x27")]) := by
  have hcut := @Lexer.cutLeaves_quote [] [] rfl text (by simp)
  rwa [List.append_nil, Lexer.cutLeaves_nil] at hcut

/-- A text in quotes is cut into the quotes and what stands between them, if there is any. -/
theorem kinds_quote (text : String) :
    (Lexer.cutLeaves [] (quote text).toList).map Prod.fst =
      .stringStart :: ((if text = "" then [] else [.stringText]) ++ [.stringEnd]) := by
  rw [cutLeaves_quote_alone]
  by_cases hempty : text = ""
  · rw [if_pos hempty, hempty]
    rfl
  · rw [if_neg hempty, textLeaves_body_of_ne hempty]
    rfl

theorem unterminated_quote (text : String) :
    ∀ token ∈ tokenize (quote text), token.unterminated = false := by
  refine unterminated_eq_false ?_ fun leaf hmem hcomment => ?_
  · rw [kinds_quote]
    split <;> decide
  · have hkind := List.mem_map_of_mem (f := Prod.fst) hmem
    rw [kinds_quote, hcomment] at hkind
    split at hkind <;> simp at hkind

/-! ### Names -/

/-- A name is an identifier exactly if it is cut into one. -/
theorem isValid_iff_kinds (name : String) :
    Identifier.isValid name = true ↔ (tokenize name).map Token.kind = [.ident, .eof] := by
  have hkinds : (tokenize name).map Token.kind =
      (Lexer.cutLeaves [] name.toList).map Prod.fst ++ [.eof] := by
    have hleaves := congrArg (List.map Prod.fst) (map_leaf_tokenize name)
    rw [List.map_map, List.map_append] at hleaves
    exact hleaves
  rw [hkinds]
  constructor
  · intro hvalid
    have hcut := @Lexer.cutLeaves_ident [] name hvalid rfl [] (by simp)
    rw [List.append_nil, Lexer.cutLeaves_nil] at hcut
    rw [hcut]
    rfl
  · intro hident
    have hone : (Lexer.cutLeaves [] name.toList).map Prod.fst = [.ident] :=
      List.append_cancel_right (hident.trans (by rfl : _ = [Kind.ident] ++ [.eof]))
    obtain ⟨leaf, hleaf, hkind⟩ := List.map_eq_singleton_iff.1 hone
    have hspelled := Lexer.spelling_cutLeaves [] name.toList
    rw [hleaf, Lexer.spelling, List.flatMap_singleton] at hspelled
    rw [← String.toList_inj.1 hspelled]
    exact Lexer.isValid_of_ident (by rw [hleaf]; exact List.mem_singleton_self leaf) hkind

/-! ### Values of variables -/

/-- A string that is written as one piece between quotes. -/
def quotedTree (text : String) : Tree :=
  .node .string (.leaf .stringStart "\x27" ::
    ((textLeaves (Quoted.body text)).map Tree.ofLeaf ++ [.leaf .stringEnd "\x27"]))

def quotedPieces (lead : List (Kind × String)) (text : String) : List Piece :=
  ⟨lead, .stringStart, "\x27"⟩ ::
    ((textLeaves (Quoted.body text)).map Piece.ofLeaf ++ [.ofLeaf (.stringEnd, "\x27")])

def variablePieces : List Piece := [.name "var", ⟨[blank], .ident, "x"⟩, ⟨[blank], .eq, "="⟩]

/-- A variable with the given value. -/
def variableTree (value : Tree) : Tree :=
  .node .varDecl
    [.leaf .varKw "var", .leaf .whitespace " ", .node .name [.leaf .ident "x"],
     .leaf .whitespace " ", .leaf .eq "=", .leaf .whitespace " ", value]

namespace Rule

variable {following : Piece} {value after : List Piece} {causes : List SyntaxError.Cause}

theorem Yields.variable {tree : Tree}
    (hvalue : expr.Yields value [.leaf .whitespace " ", tree] causes (following :: after))
    (hfollowing : [Kind.newline, .eof, .atSign].contains following.kind = true) :
    Rule.declaration.Yields (variablePieces ++ value) [variableTree tree] causes
      (following :: after) := by
  have heq : (expect .eq).Yields (⟨[blank], .eq, "="⟩ :: value)
      [.leaf .whitespace " ", .leaf .eq "="] [] value := yields_expect rfl (by decide)
  have hheader : (header .varDecl).Yields (⟨[blank], .ident, "x"⟩ :: ⟨[blank], .eq, "="⟩ :: value)
      [.leaf .whitespace " ", .node .name [.leaf .ident "x"], .leaf .whitespace " ",
        .leaf .eq "=", .leaf .whitespace " ", tree] causes (following :: after) :=
    ((yields_name [blank] "x").andThen heq).andThen hvalue
  exact Yields.declaration rfl hheader hfollowing []

theorem yields_quotedPieces {expr : Rule} (hspells : ∀ input, (expr input).Spells [] input)
    (lead : List (Kind × String)) (text : String) (after : List Piece) :
    (string expr).Yields (quotedPieces lead text ++ after)
      (lead.map Tree.ofLeaf ++ [quotedTree text]) [] after := by
  have hstring := @yields_string after expr hspells lead "\x27" (Quoted.body text)
  rwa [← List.singleton_append (l := after), ← List.append_assoc, ← List.cons_append] at hstring

/-- A string is the value of a variable. -/
theorem yields_quotedValue (text : String) :
    Rule.expr.Yields (quotedPieces [blank] text ++ [.endOfFile])
      [.leaf .whitespace " ", quotedTree text] [] [.endOfFile] := by
  have hprimary : (primary (level 127).expr).Yields (quotedPieces [] text ++ [.endOfFile])
      [quotedTree text] [] [.endOfFile] :=
    (yields_quotedPieces (spells_level 127).expr [] text [.endOfFile]).congr fun _ hinput =>
      (Primary.string (kind_of_piece hinput)).eq
  change (level 128).expr.Yields (⟨[blank], .stringStart, "\x27"⟩ :: _) _ _ _
  exact Yields.expr_of_primary hprimary (by simp) (by simp) (by decide)

end Rule

/-! ### Keys of objects -/

/-- The key with a name as it is written. -/
def keyPieces (name : String) : List Piece :=
  if Identifier.isValid name then [.name name] else quotedPieces [] name

def keyTree (name : String) : Tree :=
  .node .propertyKey [if Identifier.isValid name then .leaf .ident name else quotedTree name]

def colonPiece : Piece := .ofLeaf (.colon, ":")

/-- An object with one property, the value of which is a number. -/
def singlePieces (name : String) : List Piece :=
  .lBrace [blank] :: (keyPieces name ++ [colonPiece, ⟨[blank], .integer, "1"⟩, .rBrace])

def singleTree (name : String) : Tree :=
  .node .object
    [.leaf .lBrace "\x7b",
     .node .objectProperty
      [keyTree name, .leaf .colon ":", .leaf .whitespace " ",
       .node .literal [.leaf .integer "1"]],
     .leaf .rBrace "\x7d"]

namespace Rule

variable {after : List Piece} {budget : Nat}

section Key

variable {expr : Rule} (hspells : ∀ input, (expr input).Spells [] input)

include hspells

theorem yields_key (name : String) (after : List Piece) :
    (propertyKey expr).Yields (keyPieces name ++ after) [keyTree name] [] after := by
  unfold keyPieces keyTree
  split
  · exact ((yields_takeAs .ident (by simp)).ifAt_neg (by simp)).node
  · exact ((yields_quotedPieces hspells [] name after).ifAt_pos rfl).node

omit hspells

/-- What a key starts with, and what comes behind that. -/
theorem exists_keyPieces (name : String) (after : List Piece) :
    ∃ piece following before, keyPieces name ++ colonPiece :: after = piece :: following :: before ∧
      piece.lead = [] ∧ (piece.kind = .ident ∨ piece.kind = .stringStart) ∧
        following.kind ≠ .ident ∧ following.kind ≠ .eq := by
  unfold keyPieces quotedPieces textLeaves
  split
  · exact ⟨.name name, colonPiece, after, rfl, rfl, .inl rfl, by simp [colonPiece], by simp [colonPiece]⟩
  · split
    · exact ⟨_, _, _, rfl, rfl, .inr rfl, by simp, by simp⟩
    · exact ⟨_, _, _, rfl, rfl, .inr rfl, by simp, by simp⟩

include hspells

theorem yields_singleObject (name : String)
    (hvalue : expr.Yields (⟨[blank], .integer, "1"⟩ :: .rBrace :: after)
      [.leaf .whitespace " ", .node .literal [.leaf .integer "1"]] [] (.rBrace :: after)) :
    (object expr).Yields (.lBrace [] :: (keyPieces name ++
      colonPiece :: ⟨[blank], .integer, "1"⟩ :: .rBrace :: after)) [singleTree name] [] after := by
  obtain ⟨piece, following, before, hpieces, hlead, hkind, hident, heq⟩ :=
    exists_keyPieces name (⟨[blank], .integer, "1"⟩ :: .rBrace :: after)
  have hsettled : piece.settled = piece := by rw [Piece.settled, ← hlead]
  have hkey := yields_key hspells name (colonPiece :: ⟨[blank], .integer, "1"⟩ :: .rBrace :: after)
  rw [hpieces, ← hsettled] at hkey
  have hproperty : (property expr).Yields (piece :: following :: before)
      (piece.trivia ++ [.node .objectProperty (keyTree name :: (colonPiece.trivia ++
        [.leaf .colon ":"] ++ [.leaf .whitespace " ", .node .literal [.leaf .integer "1"]]))]) []
      (.rBrace :: after) := Yields.property piece colonPiece hkey rfl hvalue (by decide)
  have htrivia : piece.trivia = [] := by rw [Piece.trivia, hlead, List.map_nil]
  rw [htrivia] at hproperty
  have hclose : (loop (listStep .rBrace startsProperty (property expr) .notAProperty)).Yields
      (.rBrace :: after) [.leaf .rBrace "\x7d"] [] after :=
    yields_listClose (progresses_property hspells) rfl (by decide) (by decide) (by decide)
  have hloop := Yields.listItem (progresses_property hspells)
    (by rcases hkind with h | h <;> rw [h] <;> rfl) (by rcases hkind with h | h <;> simp [h])
    (by rcases hkind with h | h <;> simp [h]) (by rcases hkind with h | h <;> simp [h])
    (by rcases hkind with h | h <;> rw [h] <;> rfl) hident heq hproperty hclose
  rw [hpieces]
  exact ((yields_take (by simp)).andThen hloop).node

end Key

theorem yields_singleValue (name : String) :
    Rule.expr.Yields (singlePieces name ++ [.endOfFile])
      [.leaf .whitespace " ", singleTree name] [] [.endOfFile] := by
  have hnumber : (primary (level 126).expr).Yields (⟨[], .integer, "1"⟩ :: [.rBrace, .endOfFile])
      [.node .literal [.leaf .integer "1"]] [] [.rBrace, .endOfFile] :=
    ((yields_take (by simp)).node).congr fun input hinput => by
      have hkind : Rule.kind input = .integer := kind_of_piece hinput
      exact (Primary.literal (by rw [hkind]; decide)).eq
  have hvalue : (level 127).expr.Yields (⟨[blank], .integer, "1"⟩ :: [.rBrace, .endOfFile])
      [.leaf .whitespace " ", .node .literal [.leaf .integer "1"]] [] [.rBrace, .endOfFile] :=
    Yields.expr_of_primary hnumber (by simp) (by simp) (by decide)
  have hobject := (yields_singleObject (spells_level 127).expr name hvalue).congr
    fun _ hinput => (Primary.object (kind_of_piece hinput)).eq
  have hpieces : singlePieces name ++ [.endOfFile] = .lBrace [blank] :: (keyPieces name ++
      colonPiece :: ⟨[blank], .integer, "1"⟩ :: [.rBrace, .endOfFile]) := by
    simp [singlePieces]
  rw [hpieces]
  change (level 128).expr.Yields _ _ _ _
  exact Yields.expr_of_primary hobject (by simp) (by simp) (by decide)

end Rule

/-! ### The texts -/

namespace Lexer

variable {rest : List Char}

theorem cutLeaves_variable (hrest : ∀ c ∈ rest.head?, isBlank c = false) :
    cutLeaves [] ("var x = ".toList ++ rest) =
      Piece.leaves variablePieces ++ blank :: cutLeaves [] rest := by
  have hchars : "var x = ".toList ++ rest = "var".toList ++ ' ' ::
      ("x".toList ++ ' ' :: '=' :: ' ' :: rest) := rfl
  have heq : ∀ rest, cutLeaves [] ('=' :: ' ' :: rest) = (.eq, "=") :: cutLeaves [] (' ' :: rest) :=
    fun rest => cutLeaves_sign rfl rfl
  rw [hchars, cutLeaves_name (by decide +kernel) rfl, cutLeaves_blank rfl (by simp; decide),
    cutLeaves_name (by decide +kernel) rfl, cutLeaves_blank rfl (by simp; decide), heq,
    cutLeaves_blank rfl hrest]
  rfl

theorem cutLeaves_key (name : String) (rest : List Char) :
    cutLeaves [] ((keyText name).toList ++ ':' :: rest) =
      Piece.leaves (keyPieces name) ++ cutLeaves [] (':' :: rest) := by
  unfold keyText keyPieces
  split
  · rename_i hvalid
    rw [cutLeaves_ident hvalid rfl (by simp; decide)]
    rfl
  · rw [cutLeaves_quote rfl name (by simp)]
    simp [quotedPieces, Piece.ofLeaf]

theorem cutLeaves_single (name : String) :
    cutLeaves [] ("\x7b" ++ keyText name ++ ": 1\x7d").toList =
      Piece.leaves (.lBrace [] :: (keyPieces name ++
        [colonPiece, ⟨[blank], .integer, "1"⟩, .rBrace])) := by
  have hchars : ("\x7b" ++ keyText name ++ ": 1\x7d").toList =
      '\x7b' :: ((keyText name).toList ++ ':' :: ' ' :: '1' :: '\x7d' :: []) := by simp
  have hend : cutLeaves [] (':' :: ' ' :: '1' :: '\x7d' :: []) =
      [(.colon, ":"), blank, (.integer, "1"), (.rBrace, "\x7d")] := by decide +kernel
  rw [hchars, cutLeaves_lBrace, cutLeaves_key, hend]
  simp [Piece.lBrace, colonPiece, Piece.rBrace, Piece.ofLeaf]

end Lexer

namespace Piece

theorem isSplit_quotedPieces {lead : List (Kind × String)}
    (hlead : ∀ leaf ∈ lead, leaf.1.isTrivia = true) (text : String) :
    ∀ piece ∈ quotedPieces lead text, piece.IsSplit := by
  simp only [quotedPieces, List.forall_mem_cons, List.forall_mem_append]
  exact ⟨⟨hlead, rfl⟩, isSplit_ofLeaf_text _, by simp [IsSplit, ofLeaf, kind, Kind.isTrivia]⟩

theorem isSplit_singlePieces (name : String) : ∀ piece ∈ singlePieces name, piece.IsSplit := by
  have hkey : ∀ piece ∈ keyPieces name, piece.IsSplit := by
    unfold keyPieces
    split
    · simp [IsSplit, Piece.name, ofLeaf, kind, Kind.isTrivia]
    · exact isSplit_quotedPieces (by simp) name
  simp only [singlePieces, List.forall_mem_cons, List.forall_mem_append]
  refine ⟨?_, hkey, ?_, ?_, ?_, by simp⟩ <;>
    simp [IsSplit, lBrace, rBrace, colonPiece, blank, ofLeaf, kind, Kind.isTrivia]

end Piece

namespace Document

variable {text value : String} {pieces : List Piece} {tree : Tree}
  {causes : List SyntaxError.Cause}

/-- A variable is read with the value that is written behind it. -/
theorem parse_variable (hsplit : ∀ piece ∈ pieces, piece.IsSplit)
    (hleaves : Piece.leaves pieces = blank :: Lexer.cutLeaves [] value.toList)
    (hhead : ∀ c ∈ value.toList.head?, Lexer.isBlank c = false)
    (hvalue : Rule.expr.Yields (pieces ++ [.endOfFile]) [.leaf .whitespace " ", tree] causes
      [.endOfFile]) :
    (parse ("var x = " ++ value)).tree = .node .root [variableTree tree] ∧
      (parse ("var x = " ++ value)).errors.map SyntaxError.cause = causes := by
  have hsplitAll : ∀ piece ∈ variablePieces ++ (pieces ++ [.endOfFile]), piece.IsSplit := by
    simp only [List.forall_mem_append]
    refine ⟨?_, hsplit, Piece.isSplit_endOfFile⟩
    simp [variablePieces, Piece.IsSplit, Piece.name, Piece.ofLeaf, Piece.kind, blank, Kind.isTrivia]
  have hleavesAll : Lexer.cutLeaves [] ("var x = " ++ value).toList ++ [(.eof, "")] =
      Piece.leaves (variablePieces ++ (pieces ++ [.endOfFile])) := by
    rw [String.toList_append, Lexer.cutLeaves_variable hhead, Piece.leaves_append,
      Piece.leaves_append, hleaves]
    simp [Piece.endOfFile, Piece.ofLeaf]
  have hloop : (Rule.loop Rule.documentStep).Yields (variablePieces ++ (pieces ++ [.endOfFile]))
      [variableTree tree] (causes ++ []) [.endOfFile] :=
    Rule.Yields.documentDeclaration (by simp) (by simp) (hvalue.variable (by decide))
      (Rule.yields_documentEnd rfl)
  rw [List.append_nil] at hloop
  exact parse_of_yields hsplitAll hleavesAll hloop

end Document

/-! ### What is read off the trees -/

namespace Locus

variable {locus : Locus} {tree : Tree} {name : String} {start : Nat}

theorem map_element_exprAfter (locus : Locus) (kind : Kind) :
    (locus.exprAfter kind).map element =
      ((locus.element.children.dropWhile fun child => child.kind ≠ kind).filter
        Element.isNode).find? fun node => node.kind.isExpr := by
  rw [exprAfter, ← map_element_children, List.dropWhile_map, List.filter_map, List.find?_map]
  rfl

/-- The value of a variable is the tree behind its equals sign. -/
theorem declaredValue_of_element (h : locus.element = (variableTree tree).locate start)
    (hnode : (tree.locate (start + 8)).isNode = true) (hexpr : tree.kind.isExpr = true) :
    ∃ value, locus.declaredValue = some value ∧ value.element = tree.locate (start + 8) := by
  have hvalue := map_element_exprAfter locus .eq
  have hkind : (tree.locate (start + 8)).kind.isExpr = true := by rw [Tree.kind_locate, hexpr]
  rw [h] at hvalue
  refine Option.map_eq_some_iff.1 (hvalue.trans ?_)
  have hdrop : ((variableTree tree).locate start).children.dropWhile
      (fun child => child.kind ≠ .eq) = [(Tree.leaf .eq "=").locate (start + 6),
        (Tree.leaf .whitespace " ").locate (start + 7), tree.locate (start + 8)] := rfl
  rw [hdrop, List.filter_cons_of_neg (by simp [Tree.locate, Element.isNode, Element.isToken]),
    List.filter_cons_of_neg (by simp [Tree.locate, Element.isNode, Element.isToken]),
    List.filter_cons_of_pos hnode, List.filter_nil]
  simp [hkind]

theorem literalValue_quoted {text : String} (h : locus.element = (quotedTree text).locate start) :
    locus.literalValue = some text :=
  (literalValue_of_element h).trans (congrArg some (unescape_body text))

theorem keyText_of_element (h : locus.element = (keyTree name).locate start) :
    locus.keyText = some name := by
  unfold keyTree at h
  split at h
  · rw [keyText, identText_of_element h]
    rfl
  · have hident := map_element_tokenOf locus .ident
    rw [h] at hident
    have hnone : locus.identText = none := by
      rw [identText, ident, Option.map_eq_none_iff.1 hident]
      rfl
    rw [keyText, hnone, quotedValue_of_element h, unescape_body]
    rfl

/-- An object with one property has the name that is written as its key. -/
theorem properties_of_element (h : locus.element = (singleTree name).locate start) :
    ∃ property, locus.properties = [property] ∧ property.propertyName = some name := by
  have hproperties : locus.properties.map element =
      (locus.element.children.filter Element.isNode).filter fun child =>
        child.kind = .objectProperty := by
    rw [properties, ← map_element_nodes, List.filter_map]
    rfl
  rw [h] at hproperties
  obtain ⟨property, hone, helement⟩ := List.map_eq_singleton_iff.1 (hproperties.trans (by rfl))
  have hkey := map_element_nodeOf property .propertyKey
  rw [helement] at hkey
  obtain ⟨key, hfound, hkeyElement⟩ := Option.map_eq_some_iff.1 (hkey.trans (by rfl))
  refine ⟨property, hone, ?_⟩
  rw [propertyName, keyNode, hfound, Option.bind_some]
  exact keyText_of_element hkeyElement

end Locus

namespace Document

variable {text : String} {tree : Tree}

theorem exists_value_of_parse (h : (parse text).tree = .node .root [variableTree tree])
    (hnode : (tree.locate 8).isNode = true) (hexpr : tree.kind.isExpr = true) :
    ∃ declaration value, (locus text).declarations = [declaration] ∧
      declaration.declaredValue = some value ∧ value.element = tree.locate 8 := by
  have hdeclarations : (locus text).declarations.map Locus.element =
      ((locus text).element.children.filter Element.isNode).filter fun child =>
        child.kind.isDeclaration := by
    rw [Locus.declarations, ← Locus.map_element_nodes, List.filter_map]
    rfl
  have hroot : (locus text).element = (Tree.node .root [variableTree tree]).locate 0 := by
    rw [← h]
    rfl
  rw [hroot] at hdeclarations
  obtain ⟨declaration, hone, helement⟩ :=
    List.map_eq_singleton_iff.1 (hdeclarations.trans (by rfl))
  obtain ⟨value, hvalue, hvalueElement⟩ := Locus.declaredValue_of_element helement hnode hexpr
  exact ⟨declaration, value, hone, hvalue, hvalueElement⟩

theorem parse_quoted (text : String) :
    (parse ("var x = " ++ quote text)).tree = .node .root [variableTree (quotedTree text)] ∧
      (parse ("var x = " ++ quote text)).errors = [] := by
  rw [← List.map_eq_nil_iff (f := SyntaxError.cause)]
  refine parse_variable (Piece.isSplit_quotedPieces (by decide) text) ?_ ?_
    (Rule.yields_quotedValue text)
  · rw [cutLeaves_quote_alone]
    simp [quotedPieces, Piece.ofLeaf]
  · rw [Quoted.toList_quote]
    simp
    decide

theorem parse_single (name : String) :
    (parse ("var x = " ++ ("\x7b" ++ keyText name ++ ": 1\x7d"))).tree =
        .node .root [variableTree (singleTree name)] ∧
      (parse ("var x = " ++ ("\x7b" ++ keyText name ++ ": 1\x7d"))).errors = [] := by
  rw [← List.map_eq_nil_iff (f := SyntaxError.cause)]
  refine parse_variable (Piece.isSplit_singlePieces name) ?_ ?_ (Rule.yields_singleValue name)
  · rw [Lexer.cutLeaves_single]
    simp [singlePieces, Piece.lBrace]
  · simp
    decide

end Document

open Document in
/-- What is written down is read back. A text in quotes is cut into the quotes and one text, which is
left out where it is empty, and none of these tokens is cut off; as the value of a variable it is a
string with that text for its value. A key is read with the name that it is written for. It is
written without quotes exactly if the name is cut into a single identifier. -/
theorem read_back (text name : String) :
    ((tokenize (quote text)).map Token.kind =
        .stringStart :: ((if text = "" then [] else [.stringText]) ++ [.stringEnd, .eof]) ∧
      ∀ token ∈ tokenize (quote text), token.unterminated = false) ∧
    ((parse ("var x = " ++ quote text)).errors = [] ∧
      ∃ declaration value, (locus ("var x = " ++ quote text)).declarations = [declaration] ∧
        declaration.declaredValue = some value ∧ value.kind = .string ∧
          value.literalValue = some text) ∧
    ((parse ("var x = \x7b" ++ keyText name ++ ": 1\x7d")).errors = [] ∧
      ∃ declaration object property,
        (locus ("var x = \x7b" ++ keyText name ++ ": 1\x7d")).declarations = [declaration] ∧
          declaration.declaredValue = some object ∧ object.kind = .object ∧
            object.properties = [property] ∧ property.propertyName = some name) ∧
    keyText name = if (tokenize name).map Token.kind = [.ident, .eof] then name else quote name := by
  refine ⟨⟨?_, unterminated_quote text⟩, ⟨(parse_quoted text).2, ?_⟩, ?_, ?_⟩
  · have hleaves := congrArg (List.map Prod.fst) (map_leaf_tokenize (quote text))
    rw [List.map_map, List.map_append, kinds_quote, List.cons_append, List.append_assoc] at hleaves
    exact hleaves
  · obtain ⟨declaration, value, hone, hvalue, helement⟩ :=
      exists_value_of_parse (parse_quoted text).1 rfl rfl
    exact ⟨declaration, value, hone, hvalue, Locus.kind_of_element helement,
      Locus.literalValue_quoted helement⟩
  · have htext : "var x = \x7b" ++ keyText name ++ ": 1\x7d" =
        "var x = " ++ ("\x7b" ++ keyText name ++ ": 1\x7d") := by
      rw [← String.toList_inj]
      simp
    rw [htext]
    refine ⟨(parse_single name).2, ?_⟩
    obtain ⟨declaration, value, hone, hvalue, helement⟩ :=
      exists_value_of_parse (parse_single name).1 rfl rfl
    obtain ⟨property, hproperty, hname⟩ := Locus.properties_of_element helement
    exact ⟨declaration, value, property, hone, hvalue, Locus.kind_of_element helement, hproperty,
      hname⟩
  · simp only [keyText, isValid_iff_kinds]

end Caret
