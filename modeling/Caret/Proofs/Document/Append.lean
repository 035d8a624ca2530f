import Caret.Proofs.Document.Paired
import Caret.Proofs.Document.Strings
import Caret.Proofs.Lexer.Breaks
import Caret.Proofs.Lexer.Joins
import Caret.Proofs.Rule.Balance

/-!
# Texts behind complete lines

A text without a fault that ends with a line is read on its own: what is behind it is cut and read
as if it stood alone, and every fault is one that it has alone. Nothing that was opened in front of
it is open any more, and no decorator is left that waits for its declaration.
-/

namespace Caret

/-- A span so many bytes further on. -/
def Span.shift (count : Nat) (span : Span) : Span := ⟨span.start + count, span.stop + count⟩

def SyntaxError.shift (count : Nat) (error : SyntaxError) : SyntaxError :=
  { error with span := error.span.shift count }

namespace Element

mutual

/-- An element so many bytes further on, with all that is in it. -/
def shift (count : Nat) : Element → Element
  | token kind span text => token kind (span.shift count) text
  | node kind span children => node kind (span.shift count) (shiftAll count children)

def shiftAll (count : Nat) : List Element → List Element
  | [] => []
  | element :: elements => element.shift count :: shiftAll count elements

end

theorem shiftAll_eq_map (count : Nat) (elements : List Element) :
    shiftAll count elements = elements.map (shift count) := by
  induction elements with
  | nil => rfl
  | cons element elements ih => rw [shiftAll, ih, List.map_cons]

end Element

namespace Tree

mutual

/-- A tree that is placed further on is shifted. -/
theorem locate_add (start count : Nat) :
    ∀ tree : Tree, tree.locate (start + count) = (tree.locate start).shift count
  | leaf kind text => by
      rw [locate, locate, Element.shift, Span.shift, Nat.add_right_comm]
  | node kind children => by
      rw [locate, locate, Element.shift, Span.shift, Nat.add_right_comm,
        locateAll_add start count children]

theorem locateAll_add (start count : Nat) :
    ∀ trees : List Tree,
      locateAll (start + count) trees = Element.shiftAll count (locateAll start trees)
  | [] => rfl
  | tree :: trees => by
      rw [locateAll, locateAll, Element.shiftAll, locate_add start count tree, Nat.add_right_comm,
        locateAll_add (start + tree.size) count trees]

end

end Tree

namespace Token

/-- The same token so many bytes further on. -/
def Ahead (count : Nat) (token other : Token) : Prop :=
  other.leaf = token.leaf ∧ other.start = token.start + count

variable {start count : Nat} {tokens others : List Token} {token other : Token}

theorem Ahead.text_eq (h : Ahead count token other) : other.text = token.text :=
  congrArg Prod.snd h.1

theorem Ahead.kind_eq (h : Ahead count token other) : other.kind = token.kind :=
  congrArg Prod.fst h.1

theorem Ahead.stop_eq (h : Ahead count token other) : other.stop = token.stop + count := by
  rw [stop, stop, size, size, h.text_eq, h.2, Nat.add_right_comm]

/-- Tokens that stand side by side are known by their leaves and by where the first one is. -/
theorem Contiguous.forall₂_ahead (htokens : Contiguous start tokens)
    (hothers : Contiguous (start + count) others) (h : others.map leaf = tokens.map leaf) :
    List.Forall₂ (Ahead count) tokens others := by
  induction tokens generalizing start others with
  | nil =>
      obtain rfl : others = [] := by simpa using h
      exact .nil
  | cons token tokens ih =>
      obtain ⟨other, others, rfl, hleaf, hleaves⟩ := List.map_eq_cons_iff.1 h
      have hahead : Ahead count token other := ⟨hleaf, by rw [hothers.1, htokens.1]⟩
      exact .cons hahead (ih htokens.2 (hahead.stop_eq ▸ hothers.2) hleaves)

end Token

namespace Rule

/-- Readings of the same lexemes so many bytes further on. -/
def ahead (count : Nat) : Likeness where
  lexeme := Lexeme.Paired (Token.Ahead count)
  trees left right := right = left
  error first second := second = first.shift count
  kind_eq h := h.token.kind_eq.symm
  text_eq h _ := h.token.text_eq.symm
  settled h := ⟨.nil, h.token⟩
  lead {x y} h := by
    have hlead := h.lead
    generalize x.lead = lead at hlead
    generalize y.lead = lead' at hlead
    induction hlead with
    | nil => rfl
    | cons htoken _ ih =>
        rw [List.map_cons, List.map_cons, ih, Tree.ofToken, Tree.ofToken, htoken.kind_eq,
          htoken.text_eq]
  leaf h _ := by rw [h.token.text_eq]
  located {x y} cause h := by
    rw [SyntaxError.shift, Span.shift, Token.span, Token.span, h.token.2, h.token.stop_eq]
  nil := rfl
  append hleft hright := by rw [hleft, hright]
  wrapped kind children children' h := by rw [h]

end Rule

namespace Lexer

variable {c : Char} {cs : List Char}

/-- The characters of a newline that ends with a line feed. -/
theorem eq_of_newline {modes : List Mode} {all : List Char} {text : String}
    (h : cutLeaves modes all = [(.newline, text)]) (hlast : text.toList.getLast? = some '\n') :
    isInBody modes = false ∧ (all = ['\n'] ∨ all = ['\r', '\n']) := by
  obtain ⟨c, cs, right, rfl, htext, hextra, hkind, hafter⟩ := cutLeaves_eq_cons h
  obtain ⟨hcode, hbreak⟩ := (tokenCut modes c (cs ++ right)).of_newline hkind
  have hright : right = [] := by
    have hspelling := spelling_cutLeaves (cut modes c (cs ++ right)).modes right
    rw [hafter] at hspelling
    exact hspelling.symm
  subst hright
  rw [List.append_nil] at hextra ⊢
  rw [htext] at hlast
  rw [cut_of_not_isInBody hcode] at hextra
  refine ⟨hcode, ?_⟩
  simp only [isLineBreak, Bool.or_eq_true, decide_eq_true_eq] at hbreak
  rcases hbreak with rfl | rfl
  · have hnone : cs = [] := List.length_eq_zero_iff.1 hextra.symm
    exact .inl (by rw [hnone])
  · cases cs with
    | nil => simp at hlast
    | cons d cs =>
        have hle : (cutCode modes '\r' (d :: cs)).extra ≤ 1 := by
          change (if (d :: cs).head? = some '\n' then _ else _ : Cut).extra ≤ 1
          split
          · exact Nat.le_refl 1
          · exact Nat.zero_le 1
        rw [hextra, List.length_cons] at hle
        obtain rfl : cs = [] := List.length_eq_zero_iff.1 (by omega)
        obtain rfl : d = '\n' := by simpa using hlast
        exact .inr rfl

/-- Behind complete lines, the tokens are those of the rest of the text alone. -/
theorem cutLeaves_append {left : List Char} {front : List (Kind × String)} {text : String}
    (h : cutLeaves [] left = front ++ [(.newline, text)])
    (hlast : text.toList.getLast? = some '\n')
    (hbalanced : Construct.Balanced ((cutLeaves [] left).map Prod.fst)) (right : List Char) :
    cutLeaves [] (left ++ right) = cutLeaves [] left ++ cutLeaves [] right := by
  obtain ⟨rest, modes, rfl, -, hopen, hrest, hcut⟩ := exists_modes_of_cutLeaves .nil h
  obtain ⟨hcode, hchars⟩ := eq_of_newline hrest hlast
  have hnone : modes = [] := by
    have hbehind := Construct.behind_of_unwind hbalanced
    rw [h, List.map_append, Construct.behind_append] at hbehind
    have hmap : modes.map Mode.construct = [] := hopen.trans hbehind
    exact List.map_eq_nil_iff.1 hmap
  subst hnone
  have halike : Alike rest (rest ++ right) := by
    rcases hchars with rfl | rfl <;> exact alike_of_head (by decide) rfl
  have hline : cutLeaves [] (rest ++ right) = cutLeaves [] rest ++ cutLeaves [] right := by
    rcases hchars with rfl | rfl
    · rw [List.singleton_append, cutLeaves_lineFeed rfl, cutLeaves_lineFeed rfl, cutLeaves_nil]
      rfl
    · rw [List.cons_append, List.singleton_append, cutLeaves_return rfl, cutLeaves_return rfl,
        cutLeaves_nil]
      rfl
  rw [List.append_assoc, hcut _ halike, hline, h, hrest, List.append_assoc]

end Lexer

namespace Document

variable {text : String}

/-- A text without a fault that ends with a line, and with no decorator that stands alone. -/
structure IsComplete (text : String) : Prop where
  faultless : (parse text).errors = []
  last : ∃ front newline eof, tokenize text = front ++ [newline, eof] ∧
    newline.kind = .newline ∧ newline.text.toList.getLast? = some '\n'
  undecorated : ∀ child ∈ ((parse text).tree.locate 0).children, child.kind ≠ .decorator

theorem balanced_of_faultless (h : (parse text).errors = []) :
    Construct.Balanced ((Lexer.cutLeaves [] text.toList).map Prod.fst) := by
  have hbalanced := (Rule.balances_document (input text) h (Lexeme.led_group _)).1
  have halike := Tree.alike_of_stands (forall₂_stands_leaves_parse text)
  have hkinds : (Lexer.cutLeaves [] text.toList).map Prod.fst = (cutTokens text).map Token.kind := by
    rw [map_kind_cutTokens, Lexer.cutLeaves, List.map_map]
    rfl
  rw [hkinds, Construct.Balanced, ← Construct.unwind_congr halike, leaves_parse]
  exact hbalanced

theorem IsComplete.exists_last (h : IsComplete text) :
    ∃ front newline, cutTokens text = front ++ [newline] ∧ newline.kind = .newline ∧
      newline.text.toList.getLast? = some '\n' := by
  obtain ⟨front, newline, eof, htokens, hkind, hlast⟩ := h.last
  rw [tokenize_eq, show [newline, eof] = [newline] ++ [eof] from rfl, ← List.append_assoc] at htokens
  exact ⟨front, newline, (List.append_inj' htokens rfl).1, hkind, hlast⟩

theorem map_leaf_tokenize_append (h : IsComplete text) (other : String) :
    (tokenize (text ++ other)).map Token.leaf =
      (cutTokens text).map Token.leaf ++ (tokenize other).map Token.leaf := by
  obtain ⟨front, newline, htokens, hkind, hlast⟩ := h.exists_last
  have hleaves : Lexer.cutLeaves [] text.toList =
      front.map Token.leaf ++ [(.newline, newline.text)] := by
    rw [← map_leaf_cutTokens, htokens, List.map_append, List.map_singleton, Token.leaf, hkind]
  rw [map_leaf_tokenize, map_leaf_tokenize, map_leaf_cutTokens, String.toList_append,
    Lexer.cutLeaves_append hleaves hlast (balanced_of_faultless h.faultless), List.append_assoc]

/-- The tokens of a text that goes on behind complete lines: those of the lines, and those of the
rest so many bytes further on. -/
theorem IsComplete.exists_tokens (h : IsComplete text) (other : String) :
    ∃ tokens, List.Forall₂ (Token.Ahead 0) (tokenize (text ++ other)) (cutTokens text ++ tokens) ∧
      List.Forall₂ (Token.Ahead text.utf8ByteSize) (tokenize other) tokens := by
  obtain ⟨left, tokens, htokens, hleft, hright⟩ :=
    List.map_eq_append_iff.1 (map_leaf_tokenize_append h other)
  have hall := contiguous_tokenize (text ++ other)
  rw [htokens] at hall
  obtain ⟨hcontiguous, hcontiguous'⟩ := hall.append
  have hlines := (tokenize_eq text ▸ contiguous_tokenize text).append
  have hsize : (left.map Token.size).sum = text.utf8ByteSize := by
    have hsizes : left.map Token.size = (cutTokens text).map Token.size := by
      have hsizes := congrArg (List.map fun leaf : Kind × String => leaf.2.utf8ByteSize) hleft
      rw [List.map_map, List.map_map] at hsizes
      exact hsizes
    rw [hsizes]
    have hend := hlines.2.1
    rw [Nat.zero_add] at hend
    exact hend.symm
  rw [Nat.zero_add, hsize] at hcontiguous'
  refine ⟨tokens, ?_, (contiguous_tokenize other).forall₂_ahead (by rwa [Nat.zero_add]) hright⟩
  rw [htokens]
  refine List.rel_append (hcontiguous.forall₂_ahead hlines.1 hleft.symm) ?_
  exact hcontiguous'.forall₂_ahead hcontiguous' rfl

theorem IsComplete.whole (h : IsComplete text) : Rule.Whole (Lexeme.group (cutTokens text)) ∧
    input text = Lexeme.group (cutTokens text) ++ [⟨[], Token.endOfFile text.utf8ByteSize⟩] ∧
      ∀ tokens, Lexeme.group (cutTokens text ++ tokens) =
        Lexeme.group (cutTokens text) ++ Lexeme.group tokens := by
  obtain ⟨front, newline, htokens, hkind, -⟩ := h.exists_last
  have htrivia : newline.isTrivia = false := by rw [Token.isTrivia, hkind]; rfl
  have hgroup := fun tokens => Lexeme.group_append htrivia front tokens
  rw [← htokens] at hgroup
  refine ⟨?_, ?_, hgroup⟩
  · obtain ⟨lexemes, lead, hlexemes, -⟩ := Lexeme.group_concat front htrivia
    have hne : ∀ lexeme ∈ Lexeme.group (cutTokens text), lexeme.kind ≠ .eof := by
      intro lexeme hmem heof
      have htoken : lexeme.token ∈ (Lexeme.group (cutTokens text)).map Lexeme.token :=
        List.mem_map_of_mem hmem
      rw [Lexeme.map_token_group] at htoken
      have hcut := isCut_of_mem_cutTokens (List.mem_filter.1 htoken).1
      rw [show lexeme.token.kind = .eof from heof] at hcut
      cases hcut
    rw [htokens, hlexemes] at hne ⊢
    clear hlexemes
    induction lexemes with
    | nil => exact .newline _ hkind
    | cons lexeme lexemes ih =>
        exact .cons _ (hne _ List.mem_cons_self)
          (ih fun other hmem => hne other (List.mem_cons_of_mem _ hmem))
  · rw [input, tokenize_eq, hgroup]
    rfl

/-- The tokens of a text are read in the same way further on. -/
theorem loop_documentStep_ahead {count : Nat} {tokens : List Token}
    (h : List.Forall₂ (Token.Ahead count) (tokenize text) tokens) :
    (Rule.loop Rule.documentStep (Lexeme.group tokens)).trees =
      (Rule.loop Rule.documentStep (input text)).trees ∧
    (Rule.loop Rule.documentStep (Lexeme.group tokens)).errors =
      (Rule.loop Rule.documentStep (input text)).errors.map (SyntaxError.shift count) := by
  have hinputs : (Rule.ahead count).Inputs (input text) (Lexeme.group tokens) :=
    inputs_of_paired (fun h => h.kind_eq) (fun h => h) h
  have houtcomes := Rule.Likeness.keeps_loop
    (fun hinput => Rule.Likeness.steps_documentStep hinput) hinputs
  have herrors := houtcomes.errors
  refine ⟨houtcomes.trees, ?_⟩
  generalize (Rule.loop Rule.documentStep (input text)).errors = errors at herrors
  generalize (Rule.loop Rule.documentStep (Lexeme.group tokens)).errors = errors' at herrors
  induction herrors with
  | nil => rfl
  | cons herror _ ih => rw [ih, List.map_cons, show _ = _ from herror]

/-- The trees of a document cover its text. -/
theorem sizeAll_loop (text : String) :
    Tree.sizeAll (Rule.loop Rule.documentStep (input text)).trees = text.utf8ByteSize := by
  have hspan := span_locus text
  change ((Tree.node .root (Rule.loop Rule.documentStep (input text)).trees).locate 0).span = _ at hspan
  rw [Tree.span_locate, Tree.size, Nat.zero_add] at hspan
  exact congrArg Span.stop hspan

/-- What is behind complete lines is read as if it stood alone: the trees of the whole text are
those of the lines and those of the rest, and the faults are those of the rest, so many bytes
further on. -/
theorem parse_append (h : IsComplete text) (other : String) :
    ((parse (text ++ other)).tree.locate 0).children =
      ((parse text).tree.locate 0).children ++
        ((parse other).tree.locate 0).children.map (Element.shift text.utf8ByteSize) ∧
    (parse (text ++ other)).errors =
      (parse other).errors.map (SyntaxError.shift text.utf8ByteSize) := by
  obtain ⟨hwhole, hinput, hgroup⟩ := h.whole
  obtain ⟨tokens, hahead, hother⟩ := h.exists_tokens other
  generalize Lexeme.group (cutTokens text) = pre at hwhole hinput hgroup
  have hend : Rule.IsEnd [⟨[], Token.endOfFile text.utf8ByteSize⟩] := ⟨_, rfl, rfl⟩
  have hchildren : ∀ text, ((parse text).tree.locate 0).children =
      Tree.locateAll 0 (Rule.loop Rule.documentStep (input text)).trees := fun _ => rfl
  have herrors : ∀ text, (parse text).errors =
      (Rule.loop Rule.documentStep (input text)).errors := fun _ => rfl
  have hlines := h.faultless
  have hundecorated := h.undecorated
  have hsize := sizeAll_loop text
  rw [herrors, hinput] at hlines
  rw [hchildren, hinput] at hundecorated
  rw [hinput] at hsize
  have happend := Rule.loop_documentStep_append hend hwhole hlines (fun tree hmem => ?_)
    (Lexeme.group tokens)
  · obtain ⟨htrees, hfaults⟩ := loop_documentStep_ahead hahead
    obtain ⟨htrees', hfaults'⟩ := loop_documentStep_ahead hother
    rw [hgroup, happend] at htrees hfaults
    rw [hchildren, hchildren, hchildren, herrors, herrors, hinput, ← htrees, Tree.locateAll_append,
      hsize, htrees', Tree.locateAll_add, Element.shiftAll_eq_map]
    refine ⟨rfl, ?_⟩
    have hzero : SyntaxError.shift 0 = id := rfl
    rw [hfaults', hzero, List.map_id] at hfaults
    exact hfaults.symm
  · obtain ⟨left, right, hsplit⟩ := List.append_of_mem hmem
    rw [hsplit, Tree.locateAll_append, Tree.locateAll] at hundecorated
    rw [← Tree.kind_locate tree (0 + Tree.sizeAll left)]
    exact hundecorated _ (by simp)

/-- Behind a declaration with a decorator, a fault is found where it is found alone. -/
theorem parse_append_output :
    IsComplete "@secure()\nparam p string\n" ∧
      ((parse ("@secure()\nparam p string\n" ++ "output o")).tree.locate 0).children =
        ((parse "@secure()\nparam p string\n").tree.locate 0).children ++
          ((parse "output o").tree.locate 0).children.map (Element.shift 25) ∧
      (parse ("@secure()\nparam p string\n" ++ "output o")).errors =
        (parse "output o").errors.map (SyntaxError.shift 25) := by
  have hcomplete : IsComplete "@secure()\nparam p string\n" :=
    ⟨by decide +kernel, ⟨(tokenize "@secure()\nparam p string\n").dropLast.dropLast,
      ⟨.newline, "\n", 24, false⟩, Token.endOfFile 25, by decide +kernel, rfl, by decide⟩,
      by decide +kernel⟩
  exact ⟨hcomplete, parse_append hcomplete "output o"⟩

end Document

end Caret
