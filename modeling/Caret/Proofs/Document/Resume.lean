import Caret.Proofs.Document.Built
import Caret.Proofs.Document.Hole
import Caret.Proofs.Lexer.Breaks
import Caret.Proofs.Lexer.Constructs
import Caret.Proofs.Lexer.Joins
import Caret.Proofs.Rule.Resume

/-!
# A declaration on a line of its own

Where a text without strings and comments ends with a line, the tokens of a declaration behind it
are those that the declaration has alone, and those of the text are the same as without it. Whether
the declaration becomes one in the tree is then told by the tree of the text.
-/

namespace Caret

/-- The kinds of tokens that reach over the end of a line, or that start what does. -/
def Kind.isReaching (kind : Kind) : Bool := kind = .stringStart || kind.isComment

namespace Lexer

variable {c : Char} {cs left right : List Char} {start : Nat}

theorem countWhile_append_of_mem {test : Char → Bool} (right : List Char)
    (h : ∃ c ∈ left, test c = false) :
    countWhile test (left ++ right) = countWhile test left := by
  induction left with
  | nil => simp at h
  | cons first rest ih =>
      rw [List.cons_append, countWhile, countWhile]
      split
      · rename_i htest
        obtain ⟨c, hmem, hc⟩ := h
        rcases List.mem_cons.1 hmem with rfl | hmem
        · rw [htest] at hc
          cases hc
        · rw [ih ⟨c, hmem, hc⟩]
      · rfl

/-- What comes behind the end of a line does not matter for how far a token reaches on it. -/
theorem countWhile_append_of_break {test : Char → Bool}
    (htest : ∀ d, test d = true → isLineBreak d = false)
    (hbreak : ∃ d ∈ cs, isLineBreak d = true) (right : List Char) :
    countWhile test (cs ++ right) = countWhile test cs := by
  obtain ⟨d, hd, hline⟩ := hbreak
  refine countWhile_append_of_mem right ⟨d, hd, ?_⟩
  by_contra hne
  rw [Bool.not_eq_false] at hne
  rw [htest d hne] at hline
  cases hline

theorem exists_mem_of_not_isLineBreak (hbreak : ∃ d ∈ c :: cs, isLineBreak d = true)
    (hc : isLineBreak c = false) : ∃ d ∈ cs, isLineBreak d = true := by
  obtain ⟨d, hmem, hline⟩ := hbreak
  rcases List.mem_cons.1 hmem with rfl | hmem
  · rw [hc] at hline
    cases hline
  · exact ⟨d, hmem, hline⟩

theorem Symbol.append_right {kind : Kind} {extra : Nat} (h : Symbol c cs kind extra)
    (hbreak : ∃ d ∈ c :: cs, isLineBreak d = true) (hright : right.head? ≠ some '\n') :
    Symbol c (cs ++ right) kind extra := by
  cases h with
  | sign _ hsign => exact .sign _ hsign
  | pair rest hoperator => exact .pair (rest ++ right) hoperator
  | alone hoperator hhead =>
      refine .alone hoperator ?_
      cases cs with
      | cons d cs => exact hhead
      | nil =>
          obtain ⟨d, hd, hline⟩ := hbreak
          obtain rfl := List.mem_singleton.1 hd
          have hoperators : ∀ operator ∈ operators, isLineBreak operator.first = true →
              operator.second = '\n' := by decide
          rw [List.nil_append, hoperators _ hoperator hline]
          exact hright

/-- A token on a line is the same whatever comes behind the end of the line. -/
theorem CodeCut.append_right {modes : List Mode} {next : Cut} (h : CodeCut modes c cs next)
    (hbreak : ∃ d ∈ c :: cs, isLineBreak d = true) (hright : right.head? ≠ some '\n')
    (hkind : next.kind.isReaching = false) : CodeCut modes c (cs ++ right) next := by
  cases h with
  | blanks hblank =>
      have hmore := exists_mem_of_not_isLineBreak hbreak (not_isLineBreak_of_isBlank hblank)
      rw [← countWhile_append_of_break (fun _ => not_isLineBreak_of_isBlank) hmore right]
      exact .blanks hblank
  | symbol h => exact .symbol (h.append_right hbreak hright)
  | slash hnext =>
      obtain ⟨d, hmem, -⟩ := exists_mem_of_not_isLineBreak hbreak rfl
      obtain ⟨first, rest, rfl⟩ := List.exists_cons_of_ne_nil (List.ne_nil_of_mem hmem)
      exact .slash hnext
  | openBrace => exact .openBrace modes _
  | endHole => exact .endHole _ _
  | closeBrace => exact .closeBrace _ _ _
  | looseBrace _ hloose => exact .looseBrace _ hloose
  | digits hdigit =>
      have hmore := exists_mem_of_not_isLineBreak hbreak (not_isLineBreak_of_isDigit hdigit)
      rw [← countWhile_append_of_break (fun _ => not_isLineBreak_of_isDigit) hmore right]
      exact .digits hdigit
  | word hstart =>
      have hcontinues := Identifier.continuesWith_of_startsWith hstart
      have hmore := exists_mem_of_not_isLineBreak hbreak
        (not_isLineBreak_of_continuesWith hcontinues)
      have hcount := countWhile_append_of_break (fun _ => not_isLineBreak_of_continuesWith) hmore right
      rw [← List.take_append_of_le_length (countWhile_le Identifier.continuesWith cs), ← hcount]
      exact .word hstart
  | stray hc hblank hdigit hstart => exact .stray hc hblank hdigit hstart
  | _ => cases hkind

/-- Where no string is opened in code, nothing is. -/
theorem CodeCut.modes_nil {next : Cut} (h : CodeCut [] c cs next)
    (hkind : next.kind.isReaching = false) : next.modes = [] := by
  cases h with
  | quotes => cases hkind
  | quote => cases hkind
  | _ => rfl

theorem modes_scan_nil {modes : List Mode} (hmodes : modes = [])
    (h : ∀ token ∈ (scan modes start cs).1, token.kind.isReaching = false) :
    (scan modes start cs).2 = [] := by
  fun_induction scan modes start cs with
  | case1 => exact hmodes
  | case2 modes start c cs next text after ih =>
      subst hmodes
      obtain ⟨hnext, hafter⟩ := List.forall_mem_cons.1 h
      exact ih ((codeCut [] c _).modes_nil hnext) hafter

/-- Lines are cut into the same tokens whatever comes behind them. -/
theorem scan_append {modes : List Mode} (hmodes : modes = [])
    (hlast : ∀ c ∈ left.getLast?, isLineBreak c = true) (hright : right.head? ≠ some '\n')
    (h : ∀ token ∈ (scan modes start left).1, token.kind.isReaching = false) :
    (scan modes start (left ++ right)).1 = (scan modes start left).1 ++
      (scan [] (start + (String.ofList left).utf8ByteSize) right).1 := by
  fun_induction scan modes start left with
  | case1 =>
      subst hmodes
      simp
  | case2 modes start c cs next text after ih =>
      subst hmodes
      obtain ⟨hnext, hafter⟩ := List.forall_mem_cons.1 h
      have hbreak : ∃ d ∈ c :: cs, isLineBreak d = true :=
        ⟨_, List.getLast_mem (List.cons_ne_nil c cs),
          hlast _ (List.getLast?_eq_getLast_of_ne_nil (List.cons_ne_nil c cs))⟩
      have hcut : cut [] c (cs ++ right) = next :=
        ((codeCut [] c cs).append_right hbreak hright hnext).eq
      have hle : next.extra ≤ cs.length := extra_cut_le [] c cs
      have hsize : (String.ofList (c :: cs)).utf8ByteSize =
          text.utf8ByteSize + (String.ofList (cs.drop next.extra)).utf8ByteSize := by
        rw [← String.utf8ByteSize_append, ← String.ofList_append, List.cons_append,
          List.take_append_drop]
      have hdrop : ∀ d ∈ (cs.drop next.extra).getLast?, isLineBreak d = true := by
        intro d hd
        rw [List.getLast?_drop] at hd
        split at hd
        · cases hd
        · refine hlast d ?_
          obtain ⟨first, rest, rfl⟩ := List.exists_cons_of_ne_nil (by rintro rfl; simp at hd : cs ≠ [])
          rwa [List.getLast?_cons_cons]
      rw [List.cons_append, scan, hcut]
      dsimp only
      rw [List.take_append_of_le_length hle, List.drop_append_of_le_length hle,
        ih ((codeCut [] c _).modes_nil hnext) hdrop hafter, hsize, Nat.add_assoc]
      rfl

/-- The tokens of a declaration. -/
theorem cutLeaves_declaration {name : String} (hname : Identifier.isValid name = true) :
    cutLeaves [] ("var " ++ name ++ " = 1\n").toList =
      [(.ident, "var"), (.whitespace, " "), (.ident, name), (.whitespace, " "), (.eq, "="),
        (.whitespace, " "), (.integer, "1"), (.newline, "\n")] := by
  have hkeyword : Identifier.isValid "var" = true := by decide
  have hvalue : cutLeaves [] [' ', '=', ' ', '1', '\n'] =
      [(.whitespace, " "), (.eq, "="), (.whitespace, " "), (.integer, "1"), (.newline, "\n")] := by
    simp [cutLeaves_cons, cutLeaves_nil, cut, cutCode, countWhile, isBlank, Char.isDigit]
  calc cutLeaves [] ("var " ++ name ++ " = 1\n").toList
      = cutLeaves [] ("var".toList ++ ' ' :: (name.toList ++ ' ' :: ['=', ' ', '1', '\n'])) := by
        simp
    _ = (.ident, "var") :: cutLeaves [] ([] ++ ' ' :: (name.toList ++ ' ' :: ['=', ' ', '1', '\n'])) :=
        cutLeaves_name hkeyword rfl _
    _ = _ := by
        rw [cutLeaves_insert_blanks hname rfl (by simp) (by simp; decide), hvalue]
        rfl

end Lexer

namespace Rule

variable {input : List Lexeme}

/-- Lexemes without strings that end with a line. -/
theorem lines_of_concat {front : List Lexeme} {last : Lexeme}
    (hfront : ∀ lexeme ∈ front, lexeme.kind ≠ .eof ∧ lexeme.kind ≠ .stringStart)
    (hlast : last.kind = .newline) (htext : last.token.text ≠ "") : Lines (front ++ [last]) := by
  induction front with
  | nil => exact .newline last hlast htext
  | cons lexeme rest ih =>
      obtain ⟨hlexeme, hrest⟩ := List.forall_mem_cons.1 hfront
      exact .cons lexeme hlexeme.1 hlexeme.2 (ih hrest)

end Rule

namespace Construct

/-- Where no string starts, nothing is a part of one. -/
theorem Admits.not_isBodyPart {kinds : List Kind} (h : Admits [] kinds)
    (hstart : ∀ kind ∈ kinds, kind ≠ .stringStart) : ∀ kind ∈ kinds, kind.isBodyPart = false := by
  induction kinds with
  | nil => simp
  | cons kind kinds ih =>
      obtain ⟨hbody, hrest⟩ := h
      obtain ⟨hkind, hkinds⟩ := List.forall_mem_cons.1 hstart
      have hbody : kind.isBodyPart = false := hbody
      have hopen : kind.leavesOpen [] = [] := by
        cases kind <;> first | rfl | exact absurd rfl hkind | cases hbody
      rw [hopen] at hrest
      exact List.forall_mem_cons.2 ⟨hbody, ih hrest hkinds⟩

end Construct

namespace Document

open Rule (width)

variable {text name : String}

/-- A text that ends with a line and has no strings and no comments. -/
structure IsLines (text : String) : Prop where
  plain : ∀ token ∈ tokenize text, token.kind.isReaching = false
  last : ∃ c ∈ text.toList.getLast?, Lexer.isLineBreak c = true

theorem IsLines.scan (h : IsLines text) :
    ∀ token ∈ (Lexer.scan [] 0 text.toList).1, token.kind.isReaching = false := by
  have hkinds := congrArg (List.map Prod.fst) (map_unflagged_cutTokens text)
  rw [List.map_map, List.map_map] at hkinds
  have hall : ∀ kind ∈ (Caret.cutTokens text).map (Prod.fst ∘ Lexer.unflagged),
      kind.isReaching = false :=
    List.forall_mem_map.2 fun token hmem => h.plain token (by simp [tokenize_eq, hmem])
  rw [hkinds] at hall
  exact List.forall_mem_map.1 hall

theorem cutTokens_of_modes (h : (Lexer.scan [] 0 text.toList).2 = []) :
    cutTokens text = (Lexer.scan [] 0 text.toList).1 := by
  simp [cutTokens, h]

theorem IsLines.cutTokens (h : IsLines text) :
    cutTokens text = (Lexer.scan [] 0 text.toList).1 :=
  cutTokens_of_modes (Lexer.modes_scan_nil rfl h.scan)

/-- The last token is a newline. -/
theorem IsLines.exists_newline (h : IsLines text) :
    ∃ front last, Caret.cutTokens text = front ++ [last] ∧ last.kind = .newline := by
  obtain ⟨c, hc, hbreak⟩ := h.last
  have htext := Lexer.flatMap_text_scan [] 0 text.toList
  rw [h.cutTokens]
  rcases List.eq_nil_or_concat (Lexer.scan [] 0 text.toList).1 with hnil | ⟨front, last, htokens⟩
  · rw [hnil] at htext
    rw [← htext] at hc
    cases hc
  · rw [List.concat_eq_append] at htokens
    refine ⟨front, last, htokens, ?_⟩
    have hmem : last ∈ (Lexer.scan [] 0 text.toList).1 := by simp [htokens]
    have hne : last.text.toList ≠ [] := by
      simpa using Lexer.text_ne_empty_of_mem_scan hmem
    have hlast : c ∈ last.text.toList := by
      rw [htokens, List.flatMap_append, List.flatMap_singleton] at htext
      rw [← htext, List.getLast?_append_of_ne_nil _ hne] at hc
      exact List.mem_of_getLast? hc
    have hspans : last.kind.spansLines = true := by
      have hleaf : last.leaf ∈ Lexer.cutLeaves [] text.toList := by
        rw [← Lexer.map_leaf_scan [] 0]
        exact List.mem_map_of_mem hmem
      exact Lexer.spansLines_of_isLineBreak hleaf hlast hbreak
    have hreaching := h.scan last hmem
    have hbody : last.kind.isBodyPart = false := by
      refine (Lexer.admits_scan [] 0 text.toList).not_isBodyPart ?_ _ (List.mem_map_of_mem hmem)
      refine List.forall_mem_map.2 fun token htoken hstart => ?_
      have hreaching := h.scan token htoken
      rw [hstart] at hreaching
      cases hreaching
    revert hspans hreaching hbody
    cases last.kind <;> decide

/-- The tokens of a text with a declaration behind it are those of the text and of the
declaration. -/
theorem IsLines.exists_cutTokens_append (h : IsLines text) (hname : Identifier.isValid name = true) :
    ∃ tokens, Caret.cutTokens (text ++ ("var " ++ name ++ " = 1\n")) =
        Caret.cutTokens text ++ tokens ∧
      tokens.map Token.leaf = [(.ident, "var"), (.whitespace, " "), (.ident, name),
        (.whitespace, " "), (.eq, "="), (.whitespace, " "), (.integer, "1"), (.newline, "\n")] := by
  generalize hdeclaration : "var " ++ name ++ " = 1\n" = declaration
  have hleaves := Lexer.cutLeaves_declaration hname
  rw [hdeclaration, ← Lexer.map_leaf_scan [] text.utf8ByteSize] at hleaves
  have hhead : declaration.toList.head? ≠ some '\n' := by
    rw [← hdeclaration]
    simp
  have hplain : ∀ token ∈ (Lexer.scan [] text.utf8ByteSize declaration.toList).1,
      token.kind.isReaching = false := by
    have hall : ∀ leaf ∈ (Lexer.scan [] text.utf8ByteSize declaration.toList).1.map Token.leaf,
        leaf.1.isReaching = false := by
      rw [hleaves]
      simp [Kind.isReaching, Kind.isComment]
    exact List.forall_mem_map.1 hall
  have hscan : (Lexer.scan [] 0 (text ++ declaration).toList).1 =
      (Lexer.scan [] 0 text.toList).1 ++
        (Lexer.scan [] text.utf8ByteSize declaration.toList).1 := by
    have hlast : ∀ c ∈ text.toList.getLast?, Lexer.isLineBreak c = true := by
      obtain ⟨d, hd, hbreak⟩ := h.last
      exact fun c hc => Option.mem_unique hd hc ▸ hbreak
    have happend := Lexer.scan_append rfl hlast hhead h.scan
    rwa [← String.toList_append, String.ofList_toList, Nat.zero_add] at happend
  refine ⟨_, ?_, hleaves⟩
  rw [h.cutTokens, ← hscan]
  refine cutTokens_of_modes (Lexer.modes_scan_nil rfl ?_)
  rw [hscan]
  exact List.forall_mem_append.2 ⟨h.scan, hplain⟩

/-- The text and the declaration are grouped each on its own. -/
theorem IsLines.exists_input (h : IsLines text) (hname : Identifier.isValid name = true) :
    ∃ pre eof stop, eof.kind = .eof ∧ input text = pre ++ [⟨[], eof⟩] ∧
      input (text ++ ("var " ++ name ++ " = 1\n")) = pre ++ stop ∧ Rule.Lines pre ∧
      Rule.Introduces name stop ∧ width pre = text.utf8ByteSize := by
  obtain ⟨front, last, htokens, hlast⟩ := h.exists_newline
  obtain ⟨tokens, happend, hleaves⟩ := h.exists_cutTokens_append hname
  have htrivia : last.isTrivia = false := by rw [Token.isTrivia, hlast]; rfl
  obtain ⟨lexemes, lead, hgroup, hflat⟩ := Lexeme.group_concat front htrivia
  refine ⟨Lexeme.group (front ++ [last]), Token.endOfFile text.utf8ByteSize,
    Lexeme.group (tokens ++ [Token.endOfFile (text ++ ("var " ++ name ++ " = 1\n")).utf8ByteSize]),
    rfl, ?_, ?_, ?_, ?_, ?_⟩
  · rw [input, tokenize_eq, htokens, Lexeme.group_append htrivia]
    rfl
  · rw [input, tokenize_eq, happend, htokens, List.append_assoc (front ++ [last]),
      Lexeme.group_append htrivia]
  · rw [hgroup]
    refine Rule.lines_of_concat (fun lexeme hmem => ?_) hlast ?_
    · have htoken : lexeme.token ∈ Caret.cutTokens text := by
        rw [htokens, ← hflat]
        simp only [List.mem_append, List.mem_flatMap]
        exact .inl (.inl ⟨lexeme, hmem, by simp [Lexeme.tokens]⟩)
      refine ⟨?_, fun hstart => ?_⟩
      · have hcut := isCut_of_mem_cutTokens htoken
        rintro heof
        rw [show lexeme.token.kind = .eof from heof] at hcut
        cases hcut
      · have hplain := h.plain lexeme.token (by simp [tokenize_eq, htoken])
        rw [show lexeme.token.kind = .stringStart from hstart] at hplain
        cases hplain
    · have hmem : last ∈ Caret.cutTokens text := by simp [htokens]
      exact text_ne_empty_of_mem_cutTokens hmem
  · obtain ⟨keyword, rest, rfl, hkeyword, hrest⟩ := List.map_eq_cons_iff.1 hleaves
    obtain ⟨blank, rest, rfl, hblank, hrest⟩ := List.map_eq_cons_iff.1 hrest
    obtain ⟨ident, rest, rfl, hident, -⟩ := List.map_eq_cons_iff.1 hrest
    obtain ⟨hkind, hword⟩ := Prod.mk.inj hkeyword
    obtain ⟨hkind', -⟩ := Prod.mk.inj hblank
    obtain ⟨hkind'', hword''⟩ := Prod.mk.inj hident
    have hfirst : keyword.isTrivia = false := by rw [Token.isTrivia, hkind]; rfl
    have hsecond : blank.isTrivia = true := by rw [Token.isTrivia, hkind']; rfl
    have hthird : ident.isTrivia = false := by rw [Token.isTrivia, hkind'']; rfl
    refine ⟨⟨[], keyword⟩, ⟨[blank], ident⟩, Lexeme.group (rest ++ [Token.endOfFile
      (text ++ ("var " ++ name ++ " = 1\n")).utf8ByteSize]), ?_, rfl, hkind, hword, hkind'', hword''⟩
    rw [List.cons_append, List.cons_append, List.cons_append,
      Lexeme.group_cons_of_not_trivia hfirst, Lexeme.group, if_pos hsecond,
      Lexeme.group_cons_of_not_trivia hthird]
  · have hcontiguous := contiguous_tokenize text
    rw [tokenize_eq, htokens] at hcontiguous
    have hsum := hcontiguous.sum_size
    rw [Nat.zero_add] at hsum
    have htokens' : (Lexeme.group (front ++ [last])).flatMap Lexeme.tokens = front ++ [last] := by
      rw [hgroup, ← hflat]
      simp [Lexeme.tokens]
    rw [width, htokens']
    exact hsum

end Document

namespace Locus

variable {locus : Locus} {start : Nat}

/-- The name of a declaration is the one that its trees have. -/
theorem identText_nameNode {name : String} {kind : Kind} {children : List Tree}
    (h : locus.element = (Tree.node kind children).locate start)
    (hname : Rule.HasName name children) : locus.nameNode.bind identText = some name := by
  obtain ⟨before, after, rfl, hbefore⟩ := hname
  have hnode := map_element_nodeOf locus .name
  have hnone : ((Tree.locateAll start before).filter Element.isNode).find?
      (fun child => child.kind = .name) = none := by
    rw [List.find?_eq_none]
    intro child hmem
    simpa using kind_ne_of_mem_locateAll hbefore (List.mem_filter.1 hmem).1
  rw [h, Tree.locate, Element.children, Tree.locateAll_append, List.filter_append, List.find?_append,
    hnone, Option.none_or, Tree.locateAll] at hnode
  obtain ⟨named, hnamed, helement⟩ := Option.map_eq_some_iff.1 (hnode.trans rfl)
  have hident := map_element_tokenOf named .ident
  rw [helement] at hident
  obtain ⟨ident, hident, htoken⟩ := Option.map_eq_some_iff.1 (hident.trans rfl)
  rw [nameNode, hnamed, Option.bind_some, identText, Locus.ident, hident, Option.map_some]
  exact congrArg some (isToken_of_element htoken).2.2

end Locus

namespace Document

/-- A declaration of a variable at the top level, with its keyword at the given byte and with the
given name. -/
def Declares (root : Locus) (start : Nat) (name : String) : Prop :=
  ∃ declaration ∈ root.children, declaration.isNode = true ∧ declaration.kind = .varDecl ∧
    (∃ keyword ∈ declaration.children, keyword.isToken = true ∧ keyword.kind = .varKw ∧
      keyword.span.start = start) ∧
    declaration.nameNode.bind Locus.identText = some name

variable {text name : String} {start : Nat} {trees : List Tree}

/-- A declaration at the top level is one of the trees of a document. -/
theorem Declares.exists_children (hparse : (parse text).tree = .node .root trees)
    (h : Declares (locus text) start name) : ∃ children, Rule.Declares start children trees := by
  obtain ⟨declaration, hchild, hnode, hkind, ⟨keyword, hkeyword, htoken, hword, hstart⟩, -⟩ := h
  obtain ⟨before, tree, after, rfl, helement, -⟩ :=
    Locus.exists_split_of_mem_children (element_locus hparse) hchild
  cases tree with
  | leaf kind text =>
      have hleaf := (Locus.isToken_of_element helement).1
      rw [Locus.isNode, Element.isNode, show declaration.element.isToken = true from hleaf] at hnode
      cases hnode
  | node kind children =>
      obtain rfl : kind = .varDecl := (Locus.isNode_of_element helement).2.symm.trans hkind
      obtain ⟨left, inner, right, rfl, hinner, -⟩ :=
        Locus.exists_split_of_mem_children helement hkeyword
      refine ⟨_, before, after, left, inner, right, rfl, rfl, ?_, ?_⟩
      · cases inner with
        | leaf tag word =>
            obtain rfl : tag = .varKw := (Locus.isToken_of_element hinner).2.1.symm.trans hword
            exact ⟨word, rfl⟩
        | node tag inner =>
            have hinside := (Locus.isNode_of_element hinner).1
            rw [Locus.isNode, Element.isNode, show keyword.element.isToken = true from htoken]
              at hinside
            cases hinside
      · rw [Locus.span, hinner, Tree.span_locate] at hstart
        simpa using hstart

theorem declares_of_hasName {children : List Tree} (hparse : (parse text).tree = .node .root trees)
    (h : Rule.Declares start children trees) (hname : Rule.HasName name children) :
    Declares (locus text) start name := by
  obtain ⟨before, after, left, keyword, right, rfl, hchildren, ⟨word, rfl⟩, hstart⟩ := h
  obtain ⟨declaration, hchild, helement, -⟩ :=
    Locus.exists_child_of_split _ (element_locus hparse)
  obtain ⟨hnode, hkind⟩ := Locus.isNode_of_element helement
  obtain ⟨child, hmem, hinner, -⟩ := Locus.exists_child_of_split _ (hchildren ▸ helement)
  obtain ⟨htoken, hkeyword, -⟩ := Locus.isToken_of_element hinner
  refine ⟨declaration, hchild, hnode, hkind, ⟨child, hmem, htoken, hkeyword, ?_⟩,
    Locus.identText_nameNode helement hname⟩
  · rw [Locus.span, hinner, Tree.span_locate]
    simpa using hstart

/-- A declaration behind some lines is one in the tree exactly if the tree of the lines does not go
on behind them. -/
theorem declares_iff_swallows (hlines : IsLines text) (hname : Identifier.isValid name = true) :
    Declares (locus (text ++ ("var " ++ name ++ " = 1\n"))) text.utf8ByteSize name ↔
      (parse text).tree.swallows = false := by
  obtain ⟨pre, eof, stop, heof, hfin, hstop, hpre, hintroduces, hwidth⟩ :=
    hlines.exists_input hname
  have hled : Rule.Led (pre ++ stop) := by
    rw [← hstop]
    exact Lexeme.led_group _
  have hresumes := (Rule.resumes hintroduces (hintroduces.follows ⟨eof, heof, rfl⟩) hpre hled).2
  have htree : (parse text).tree.swallows =
      Tree.swallowsAll (Rule.loop Rule.documentStep (pre ++ [⟨[], eof⟩])).trees := by
    rw [← hfin]
    rfl
  have hparse : (parse (text ++ ("var " ++ name ++ " = 1\n"))).tree =
      .node .root (Rule.loop Rule.documentStep (pre ++ stop)).trees := by
    rw [← hstop]
    rfl
  rw [htree, ← hwidth]
  rcases hresumes with ⟨hstays, children, hdeclares, hnamed⟩ | ⟨htakes, hnone⟩
  · rw [hstays]
    exact ⟨fun _ => rfl, fun _ => declares_of_hasName hparse hdeclares hnamed⟩
  · rw [htakes]
    refine ⟨fun h => ?_, nofun⟩
    obtain ⟨children, hdeclares⟩ := h.exists_children hparse
    exact absurd hdeclares (hnone children)

/-- A declaration behind an object that is not closed becomes one, but not if the object is the value
of a property in another. -/
theorem not_declares_in_property :
    IsLines "var x = \x7b\n" ∧ IsLines "var x = \x7b\n  a: \x7b\n" ∧
      Identifier.isValid "n" = true ∧
      Declares (locus ("var x = \x7b\n" ++ ("var " ++ "n" ++ " = 1\n"))) 10 "n" ∧
      ¬Declares (locus ("var x = \x7b\n  a: \x7b\n" ++ ("var " ++ "n" ++ " = 1\n"))) 17 "n" := by
  have hobject : IsLines "var x = \x7b\n" := ⟨by decide +kernel, '\n', by decide +kernel, rfl⟩
  have hproperty : IsLines "var x = \x7b\n  a: \x7b\n" :=
    ⟨by decide +kernel, '\n', by decide +kernel, rfl⟩
  have hname : Identifier.isValid "n" = true := by decide +kernel
  refine ⟨hobject, hproperty, hname, ?_, fun h => ?_⟩
  · exact (declares_iff_swallows hobject hname).2 (by decide +kernel)
  · have hstays := (declares_iff_swallows hproperty hname).1 h
    have htakes : (parse "var x = \x7b\n  a: \x7b\n").tree.swallows = true := by decide +kernel
    rw [hstays] at htakes
    cases htakes

end Document

end Caret
