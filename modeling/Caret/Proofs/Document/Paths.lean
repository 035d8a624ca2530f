import Caret.Proofs.Rule.Nested

/-!
# A resource, its keys and its members

Two texts for a path: one with a resource in whose body the keys along the path are written, up to
an object with no keys, and one with a resource that the members along the path are taken of. Both
are read to the end of the path as long as there are levels left.
-/

namespace Caret

namespace Path

/-- The objects along a path up to the braces of the last one. -/
def opened : List String → String
  | [] => "\x7b"
  | name :: path => "\x7b" ++ name ++ ": " ++ opened path

def closed (path : List String) : String := String.ofList (List.replicate (path.length + 1) '\x7d')

def accessed (path : List String) : String := String.join (path.map fun name => "." ++ name) ++ "."

def header (id : String) : String := "resource st " ++ quote id ++ " = "

def keysBefore (id : String) (path : List String) : String := header id ++ opened path

/-- A resource whose body is made of objects along a path. -/
def keysText (id : String) (path : List String) : String := keysBefore id path ++ closed path

/-- A resource without properties, and an output that takes members of it. -/
def membersText (id : String) (path : List String) : String :=
  header id ++ "\x7b\x7d\noutput o string = st" ++ accessed path

def headerPieces (id : String) : List Piece :=
  .name "resource" :: ⟨[blank], .ident, "st"⟩ :: ⟨[blank], .stringStart, "\x27"⟩ ::
    ((textLeaves (Quoted.body id)).map Piece.ofLeaf ++
      [.ofLeaf (.stringEnd, "\x27"), ⟨[blank], .eq, "="⟩])

def typeTree (id : String) : Tree :=
  .node .resourceType [.node .string (.leaf .stringStart "\x27" ::
    ((textLeaves (Quoted.body id)).map Tree.ofLeaf ++ [.leaf .stringEnd "\x27"]))]

/-- A resource with the given body. -/
def resourceTree (id : String) (body : Tree) : Tree :=
  .node .resourceDecl
    [.leaf .resourceKw "resource", .leaf .whitespace " ", .node .name [.leaf .ident "st"],
     .leaf .whitespace " ", typeTree id, .leaf .whitespace " ", .leaf .eq "=",
     .leaf .whitespace " ", body]

def outputPieces : List Piece :=
  [.name "output", ⟨[blank], .ident, "o"⟩, ⟨[blank], .ident, "string"⟩, ⟨[blank], .eq, "="⟩,
   ⟨[blank], .ident, "st"⟩]

def receiverTree : Tree := .node .variableAccess [.leaf .ident "st"]

def outputTree (path : List String) : Tree :=
  .node .outputDecl
    [.leaf .outputKw "output", .leaf .whitespace " ", .node .name [.leaf .ident "o"],
     .leaf .whitespace " ", .node .typeName [.leaf .ident "string"], .leaf .whitespace " ",
     .leaf .eq "=", .leaf .whitespace " ", openTree receiverTree path]

end Path

namespace Piece

variable {path : List String}

theorem leaves_nestedPieces (lead : List (Kind × String)) (path : List String) :
    leaves (nestedPieces lead path) = lead ++ leaves (nestedPieces [] path) := by
  cases path <;> simp [leaves, nestedPieces, lBrace]

theorem leaves_nestedPieces_cons (name : String) (path : List String) :
    leaves (nestedPieces [] (name :: path)) =
      (.lBrace, "\x7b") :: (.ident, name) :: (.colon, ":") :: blank ::
        (leaves (nestedPieces [] path) ++ [(.rBrace, "\x7d")]) := by
  have hinner : leaves (nestedPieces [blank] path ++ [.rBrace]) =
      blank :: (leaves (nestedPieces [] path) ++ [(.rBrace, "\x7d")]) := by
    rw [leaves_append, leaves_nestedPieces]
    rfl
  rw [← hinner]
  rfl

end Piece

namespace Lexer

variable {path : List String} {rest : List Char}

theorem cutLeaves_lBrace (rest : List Char) :
    cutLeaves [] ('\x7b' :: rest) = (.lBrace, "\x7b") :: cutLeaves [] rest := cutLeaves_sign rfl rfl

theorem cutLeaves_rBrace (rest : List Char) :
    cutLeaves [] ('\x7d' :: rest) = (.rBrace, "\x7d") :: cutLeaves [] rest := cutLeaves_sign rfl rfl

theorem cutLeaves_dot (rest : List Char) :
    cutLeaves [] ('.' :: rest) = (.dot, ".") :: cutLeaves [] rest := cutLeaves_sign rfl rfl

theorem not_isBlank_opened (path : List String) (rest : List Char) :
    ∀ d ∈ ((Path.opened path).toList ++ rest).head?, isBlank d = false := by
  have hopened : ∃ cs, (Path.opened path).toList = '\x7b' :: cs := by
    cases path <;> exact ⟨_, by simp [Path.opened]; rfl⟩
  obtain ⟨cs, hcs⟩ := hopened
  rw [hcs]
  simp
  decide

theorem cutLeaves_objects (hpath : ∀ name ∈ path, Identifier.isValid name = true) :
    cutLeaves [] ((Path.opened path).toList ++ ((Path.closed path).toList ++ rest)) =
      Piece.leaves (nestedPieces [] path) ++ cutLeaves [] rest := by
  induction path generalizing rest with
  | nil =>
      change cutLeaves [] ('\x7b' :: '\x7d' :: rest) = _
      rw [cutLeaves_lBrace, cutLeaves_rBrace]
      rfl
  | cons name path ih =>
      obtain ⟨hname, hpath⟩ := List.forall_mem_cons.1 hpath
      have hclosed : (Path.closed (name :: path)).toList ++ rest =
          (Path.closed path).toList ++ '\x7d' :: rest := by
        simp [Path.closed, List.replicate_succ']
      have hopened : (Path.opened (name :: path)).toList =
          '\x7b' :: (name.toList ++ ':' :: ' ' :: (Path.opened path).toList) := by
        simp [Path.opened]
      have hcolon : ∀ rest, cutLeaves [] (':' :: rest) = (.colon, ":") :: cutLeaves [] rest :=
        fun rest => cutLeaves_sign rfl rfl
      rw [hclosed, hopened, List.cons_append, List.append_assoc, List.cons_append,
        List.cons_append, cutLeaves_lBrace, cutLeaves_ident hname rfl (by simp; decide), hcolon,
        cutLeaves_blank rfl (not_isBlank_opened path _), ih hpath, cutLeaves_rBrace,
        Piece.leaves_nestedPieces_cons]
      simp [blank]

theorem cutLeaves_accessed (hpath : ∀ name ∈ path, Identifier.isValid name = true) :
    cutLeaves [] (Path.accessed path).toList = Piece.leaves (memberPieces path) := by
  induction path with
  | nil => exact (cutLeaves_dot []).trans (congrArg _ (cutLeaves_nil []))
  | cons name path ih =>
      obtain ⟨hname, hpath⟩ := List.forall_mem_cons.1 hpath
      have haccessed : (Path.accessed (name :: path)).toList =
          '.' :: (name.toList ++ (Path.accessed path).toList) := by
        simp [Path.accessed]
      have hhead : ∀ d ∈ (Path.accessed path).toList.head?, Identifier.continuesWith d = false := by
        cases path <;> simp [Path.accessed] <;> decide
      rw [haccessed, cutLeaves_dot, cutLeaves_ident hname rfl hhead, ih hpath]
      rfl

theorem cutLeaves_header (id : String) (hrest : ∀ c ∈ rest.head?, isBlank c = false) :
    cutLeaves [] ((Path.header id).toList ++ rest) =
      Piece.leaves (Path.headerPieces id) ++ blank :: cutLeaves [] rest := by
  have hheader : (Path.header id).toList ++ rest = "resource".toList ++ ' ' ::
      ("st".toList ++ ' ' :: ((quote id).toList ++ ' ' :: '=' :: ' ' :: rest)) := by
    simp [Path.header]
  have hquote : ∀ d ∈ ((quote id).toList ++ ' ' :: '=' :: ' ' :: rest).head?, isBlank d = false := by
    rw [Quoted.toList_quote]
    simp
    decide
  have heq : cutLeaves [] ('=' :: ' ' :: rest) = (.eq, "=") :: cutLeaves [] (' ' :: rest) :=
    cutLeaves_sign rfl rfl
  have hpieces : Piece.leaves (Path.headerPieces id) = (.ident, "resource") :: blank ::
      (.ident, "st") :: blank :: (.stringStart, "\x27") ::
        (textLeaves (Quoted.body id) ++ [(.stringEnd, "\x27"), blank, (.eq, "=")]) := by
    simp [Path.headerPieces, Piece.name, Piece.ofLeaf]
  rw [hheader, cutLeaves_name (by decide +kernel) rfl, cutLeaves_blank rfl (by simp; decide),
    cutLeaves_name (by decide +kernel) rfl, cutLeaves_blank rfl hquote,
    cutLeaves_quote rfl id (by simp), cutLeaves_blank rfl (by simp; decide), heq,
    cutLeaves_blank rfl hrest, hpieces]
  simp [blank]

theorem cutLeaves_output (rest : List Char)
    (hrest : ∀ d ∈ rest.head?, Identifier.continuesWith d = false) :
    cutLeaves [] ("output o string = st".toList ++ rest) =
      Piece.leaves Path.outputPieces ++ cutLeaves [] rest := by
  have hchars : "output o string = st".toList ++ rest = "output".toList ++ ' ' ::
      ("o".toList ++ ' ' :: ("string".toList ++ ' ' :: '=' :: ' ' :: ("st".toList ++ rest))) := rfl
  have heq : ∀ rest, cutLeaves [] ('=' :: ' ' :: rest) = (.eq, "=") :: cutLeaves [] (' ' :: rest) :=
    fun rest => cutLeaves_sign rfl rfl
  rw [hchars, cutLeaves_name (by decide +kernel) rfl, cutLeaves_blank rfl (by simp; decide),
    cutLeaves_name (by decide +kernel) rfl, cutLeaves_blank rfl (by simp; decide),
    cutLeaves_name (by decide +kernel) rfl, cutLeaves_blank rfl (by simp; decide), heq,
    cutLeaves_blank rfl (by simp; decide), cutLeaves_ident (by decide +kernel) rfl hrest]
  rfl

end Lexer

namespace Rule

variable {following : Piece} {value after : List Piece} {trees : List Tree}
  {causes : List SyntaxError.Cause}

/-- A resource that is declared with a value. -/
theorem Yields.resource {body : Tree}
    (hvalue : expr.Yields value [.leaf .whitespace " ", body] [] (following :: after))
    (hfollowing : [Kind.newline, .eof, .atSign].contains following.kind = true) (id : String) :
    Rule.declaration.Yields (Path.headerPieces id ++ value) [Path.resourceTree id body] []
      (following :: after) := by
  have heq : (expect .eq).Yields (⟨[blank], .eq, "="⟩ :: value)
      [.leaf .whitespace " ", .leaf .eq "="] [] value := yields_expect rfl (by decide)
  have hheader : (header .resourceDecl).Yields
      (⟨[blank], .ident, "st"⟩ :: ⟨[blank], .stringStart, "\x27"⟩ ::
        ((textLeaves (Quoted.body id)).map Piece.ofLeaf ++
          .ofLeaf (.stringEnd, "\x27") :: ⟨[blank], .eq, "="⟩ :: value))
      [.leaf .whitespace " ", .node .name [.leaf .ident "st"], .leaf .whitespace " ",
        Path.typeTree id, .leaf .whitespace " ", .leaf .eq "=", .leaf .whitespace " ", body] []
      (following :: after) :=
    ((((yields_name [blank] "st").andThen (yields_quoted .resourceType .resourceType [blank] "\x27"
      (Quoted.body id))).andThen (yields_existing (by decide))).andThen heq).andThen hvalue
  have hdeclaration : Rule.declaration.Yields (.name "resource" :: _) [Path.resourceTree id body] []
      (following :: after) := Yields.declaration rfl hheader hfollowing []
  simpa [Path.headerPieces] using hdeclaration

theorem Yields.output {path : List String}
    (hlinks : (outermost.expr).Yields (⟨[blank], .ident, "st"⟩ :: value)
      [.leaf .whitespace " ", openTree Path.receiverTree path] causes (following :: after))
    (hfollowing : [Kind.newline, .eof, .atSign].contains following.kind = true) :
    Rule.declaration.Yields (Path.outputPieces ++ value) [Path.outputTree path] causes
      (following :: after) := by
  have heq : (expect .eq).Yields (⟨[blank], .eq, "="⟩ :: ⟨[blank], .ident, "st"⟩ :: value)
      [.leaf .whitespace " ", .leaf .eq "="] [] (⟨[blank], .ident, "st"⟩ :: value) :=
    yields_expect rfl (by decide)
  have hheader : (header .outputDecl).Yields
      (⟨[blank], .ident, "o"⟩ :: ⟨[blank], .ident, "string"⟩ :: ⟨[blank], .eq, "="⟩ ::
        ⟨[blank], .ident, "st"⟩ :: value)
      [.leaf .whitespace " ", .node .name [.leaf .ident "o"], .leaf .whitespace " ",
        .node .typeName [.leaf .ident "string"], .leaf .whitespace " ", .leaf .eq "=",
        .leaf .whitespace " ", openTree Path.receiverTree path] causes (following :: after) :=
    (((yields_name [blank] "o").andThen (yields_typeName [blank] "string")).andThen heq).andThen
      hlinks
  exact Yields.declaration rfl hheader hfollowing []

theorem yields_openTree {path : List String} (hlength : path.length ≤ 100) :
    outermost.expr.Yields (⟨[blank], .ident, "st"⟩ :: (memberPieces path ++ [.endOfFile]))
      [.leaf .whitespace " ", openTree Path.receiverTree path] [.absent .propertyName .eof]
      [.endOfFile] := by
  have hlinks : ((level 127).links [Path.receiverTree]).Yields (memberPieces path ++ [.endOfFile])
      [openTree Path.receiverTree path] [.absent .propertyName .eof] [.endOfFile] :=
    yields_members (by omega)
  have hexpr : (level (127 + 1)).expr.Yields
      (⟨[blank], .ident, "st"⟩ :: (memberPieces path ++ [.endOfFile]))
      (Piece.trivia ⟨[blank], .ident, "st"⟩ ++ [openTree Path.receiverTree path])
      ([] ++ [.absent .propertyName .eof]) [.endOfFile] :=
    Yields.expr_of_links (yields_variable (level 127).expr "st") hlinks (by decide) (by decide)
      (by decide)
  exact hexpr

end Rule

namespace Piece

theorem isSplit_ofLeaf_text (raw : String) :
    ∀ piece ∈ (textLeaves raw).map ofLeaf, piece.IsSplit := by
  unfold textLeaves
  split <;> simp [IsSplit, ofLeaf, kind, Kind.isTrivia]

theorem isSplit_headerPieces (id : String) : ∀ piece ∈ Path.headerPieces id, piece.IsSplit := by
  have htext := isSplit_ofLeaf_text (Quoted.body id)
  simp only [Path.headerPieces, List.forall_mem_cons, List.forall_mem_append]
  refine ⟨?_, ?_, ?_, htext, ?_, ?_, by simp⟩ <;>
    simp [IsSplit, name, ofLeaf, kind, blank, Kind.isTrivia]

theorem isSplit_nestedPieces (path : List String) {lead : List (Kind × String)}
    (hlead : ∀ leaf ∈ lead, leaf.1.isTrivia = true) :
    ∀ piece ∈ nestedPieces lead path, piece.IsSplit := by
  have hsplit : (lBrace lead).IsSplit := ⟨hlead, rfl⟩
  induction path generalizing lead with
  | nil => simpa [nestedPieces, IsSplit, rBrace, ofLeaf, kind, Kind.isTrivia] using hsplit
  | cons name path ih =>
      have hinner := @ih [blank] (by simp [blank, Kind.isTrivia])
        (by simp [IsSplit, lBrace, blank, kind, Kind.isTrivia])
      simp only [nestedPieces, List.forall_mem_cons, List.forall_mem_append]
      refine ⟨hsplit, ?_, ?_, hinner, ?_, by simp⟩ <;>
        simp [IsSplit, Piece.name, rBrace, ofLeaf, kind, Kind.isTrivia]

theorem isSplit_memberPieces (path : List String) : ∀ piece ∈ memberPieces path, piece.IsSplit := by
  induction path with
  | nil => simp [memberPieces, IsSplit, dot, ofLeaf, kind, Kind.isTrivia]
  | cons name path ih =>
      simp only [memberPieces, List.forall_mem_cons]
      refine ⟨?_, ?_, ih⟩ <;> simp [IsSplit, dot, Piece.name, ofLeaf, kind, Kind.isTrivia]

theorem isSplit_endOfFile : ∀ piece ∈ [endOfFile], piece.IsSplit := by
  simp [IsSplit, endOfFile, ofLeaf, kind, Kind.isTrivia]

end Piece

namespace Document

variable {path : List String}

theorem yields_resourceDocument {path : List String} {following : Piece} {after : List Piece}
    (hlength : path.length ≤ 100) (hfollowing : following.kind = .newline ∨ following.kind = .eof)
    (id : String) :
    Rule.declaration.Yields
      (Path.headerPieces id ++ (nestedPieces [blank] path ++ following :: after))
      [Path.resourceTree id (nestedTree path)] [] (following :: after) := by
  have hvalue : Rule.expr.Yields (nestedPieces [blank] path ++ following :: after)
      [.leaf .whitespace " ", nestedTree path] [] (following :: after) :=
    Rule.yields_nested (Nat.lt_of_le_of_lt hlength (by decide))
      (by rcases hfollowing with hkind | hkind <;> rw [hkind] <;> rfl) [blank]
  exact hvalue.resource (by rcases hfollowing with hkind | hkind <;> rw [hkind] <;> rfl) id

theorem parse_keysText (id : String) (hpath : ∀ name ∈ path, Identifier.isValid name = true)
    (hlength : path.length ≤ 100) :
    (parse (Path.keysText id path)).tree = .node .root [Path.resourceTree id (nestedTree path)] := by
  have hsplit : ∀ piece ∈ Path.headerPieces id ++ (nestedPieces [blank] path ++ [.endOfFile]),
      piece.IsSplit := by
    simp only [List.forall_mem_append]
    exact ⟨Piece.isSplit_headerPieces id, Piece.isSplit_nestedPieces path (by decide),
      Piece.isSplit_endOfFile⟩
  have hleaves : Lexer.cutLeaves [] (Path.keysText id path).toList ++ [(.eof, "")] =
      Piece.leaves (Path.headerPieces id ++ (nestedPieces [blank] path ++ [.endOfFile])) := by
    have htext : (Path.keysText id path).toList =
        (Path.header id).toList ++ ((Path.opened path).toList ++ ((Path.closed path).toList ++ [])) := by
      simp [Path.keysText, Path.keysBefore]
    rw [htext, Lexer.cutLeaves_header id (Lexer.not_isBlank_opened path _),
      Lexer.cutLeaves_objects hpath, Lexer.cutLeaves_nil, Piece.leaves_append, Piece.leaves_append,
      Piece.leaves_nestedPieces [blank]]
    simp [Piece.endOfFile, Piece.ofLeaf]
  have hloop : (Rule.loop Rule.documentStep).Yields
      (Path.headerPieces id ++ (nestedPieces [blank] path ++ [.endOfFile]))
      [Path.resourceTree id (nestedTree path)] [] [.endOfFile] :=
    Rule.Yields.documentDeclaration (by simp) (by simp)
      (yields_resourceDocument hlength (.inr rfl) id) (Rule.yields_documentEnd rfl)
  exact (parse_of_yields hsplit hleaves hloop).1

theorem parse_membersText (id : String) (hpath : ∀ name ∈ path, Identifier.isValid name = true)
    (hlength : path.length ≤ 100) :
    (parse (Path.membersText id path)).tree = .node .root
      [Path.resourceTree id (nestedTree []), .leaf .newline "\n", Path.outputTree path] := by
  have hsplit : ∀ piece ∈ Path.headerPieces id ++ (nestedPieces [blank] [] ++
      .ofLeaf (.newline, "\n") :: (Path.outputPieces ++ (memberPieces path ++ [.endOfFile]))),
      piece.IsSplit := by
    simp only [List.forall_mem_append, List.forall_mem_cons]
    refine ⟨Piece.isSplit_headerPieces id, Piece.isSplit_nestedPieces [] (by decide), ?_, ?_,
      Piece.isSplit_memberPieces path, List.forall_mem_cons.1 Piece.isSplit_endOfFile⟩
    · simp [Piece.IsSplit, Piece.ofLeaf, Piece.kind, Kind.isTrivia]
    · simp [Path.outputPieces, Piece.IsSplit, Piece.name, Piece.ofLeaf, Piece.kind, blank,
        Kind.isTrivia]
  have hleaves : Lexer.cutLeaves [] (Path.membersText id path).toList ++ [(.eof, "")] =
      Piece.leaves (Path.headerPieces id ++ (nestedPieces [blank] [] ++
        .ofLeaf (.newline, "\n") :: (Path.outputPieces ++ (memberPieces path ++ [.endOfFile])))) := by
    have htext : (Path.membersText id path).toList = (Path.header id).toList ++
        '\x7b' :: '\x7d' :: '\n' :: ("output o string = st".toList ++
          (Path.accessed path).toList) := by
      simp [Path.membersText]
    have hhead : ∀ d ∈ (Path.accessed path).toList.head?, Identifier.continuesWith d = false := by
      cases path <;> simp [Path.accessed] <;> decide
    rw [htext, Lexer.cutLeaves_header id (by simp; decide), Lexer.cutLeaves_lBrace,
      Lexer.cutLeaves_rBrace, Lexer.cutLeaves_lineFeed rfl, Lexer.cutLeaves_output _ hhead,
      Lexer.cutLeaves_accessed hpath]
    simp [Piece.endOfFile, Piece.ofLeaf, nestedPieces, Piece.lBrace, Piece.rBrace]
  have hloop : (Rule.loop Rule.documentStep).Yields
      (Path.headerPieces id ++ (nestedPieces [blank] [] ++
        .ofLeaf (.newline, "\n") :: (Path.outputPieces ++ (memberPieces path ++ [.endOfFile]))))
      [Path.resourceTree id (nestedTree []), .leaf .newline "\n", Path.outputTree path]
      [.absent .propertyName .eof] [.endOfFile] := by
    have houtput : (Rule.loop Rule.documentStep).Yields
        (Path.outputPieces ++ (memberPieces path ++ [.endOfFile])) [Path.outputTree path]
        [.absent .propertyName .eof] [.endOfFile] :=
      Rule.Yields.documentDeclaration (by simp) (by simp)
        ((Rule.yields_openTree hlength).output (by decide)) (Rule.yields_documentEnd rfl)
    exact Rule.Yields.documentDeclaration (by simp) (by simp)
      (yields_resourceDocument (by simp) (.inl rfl) id) (Rule.Yields.documentNewline rfl houtput)
  exact (parse_of_yields hsplit hleaves hloop).1

end Document

end Caret
