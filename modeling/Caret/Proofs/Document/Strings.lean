import Caret.Proofs.Document.Built
import Caret.Proofs.Rule.Strings
import Caret.Proofs.Tree.Last

/-!
# Strings and holes of a document

A token that opens a string or a hole has the token that closes it in the text: the first one that
closes more than what stands between the two has opened. In the tree the two stand in one node, in
front of and behind its other children, as long as recovery has put no token into an error node
below it that closes something else.
-/

namespace Caret

namespace Construct

/-- Kinds of tokens that open and close the same. -/
structure Alike (kind other : Kind) : Prop where
  isBodyPart : other.isBodyPart = kind.isBodyPart
  opens : other.opens = kind.opens
  closes : other.closes = kind.closes

variable {kind other : Kind} {outer : List Construct} {left right : List Kind}

theorem alike_of_becomes (h : kind.Becomes other) : Alike kind other := by
  cases h with
  | same => exact ⟨rfl, rfl, rfl⟩
  | keyword hleaf => cases other <;> first | exact ⟨rfl, rfl, rfl⟩ | cases hleaf
  | name hkind => cases kind <;> first | exact ⟨rfl, rfl, rfl⟩ | cases hkind

theorem Alike.leavesOpen (h : Alike kind other) (outer : List Construct) :
    other.leavesOpen outer = kind.leavesOpen outer := by
  rw [Kind.leavesOpen, Kind.leavesOpen, h.closes, h.opens]

theorem unwind_congr (h : List.Forall₂ Alike left right) (outer : List Construct) :
    unwind outer right = unwind outer left := by
  induction h generalizing outer with
  | nil => rfl
  | cons halike _ ih =>
      rw [unwind, unwind, halike.closes, halike.opens]
      split <;> rw [ih]

theorem admits_congr (h : List.Forall₂ Alike left right) :
    Admits outer right ↔ Admits outer left := by
  induction h generalizing outer with
  | nil => rfl
  | cons halike _ ih => rw [Admits, Admits, halike.isBodyPart, halike.leavesOpen, ih]

theorem behind_congr (h : List.Forall₂ Alike left right) (outer : List Construct) :
    behind outer right = behind outer left := by
  induction h generalizing outer with
  | nil => rfl
  | @cons kind other _ _ halike _ ih =>
      calc behind outer (other :: _)
          = behind (other.leavesOpen outer) _ := rfl
        _ = behind (kind.leavesOpen outer) _ := by rw [ih, halike.leavesOpen]

end Construct

open Construct (Admits Settles behind)

namespace Tree

variable {tokens : List Token} {leaves : List (Kind × String)} {trees : List Tree}

theorem alike_of_stands (h : List.Forall₂ Token.Stands tokens leaves) :
    List.Forall₂ Construct.Alike (tokens.map Token.kind) (kinds leaves) := by
  rw [kinds, List.forall₂_map_left_iff, List.forall₂_map_right_iff]
  exact h.imp fun _ _ hstands => Construct.alike_of_becomes hstands.1

/-- The leaves that some tokens become. -/
theorem exists_leaves_of_stands {before after : List Token} {token : Token}
    (h : List.Forall₂ Token.Stands (before ++ token :: after) leaves) :
    ∃ left leaf right, leaves = left ++ leaf :: right ∧ List.Forall₂ Token.Stands before left ∧
      token.Stands leaf ∧ List.Forall₂ Token.Stands after right := by
  have hbefore := List.forall₂_take_append _ _ _ h.flip
  have hafter := List.forall₂_drop_append _ _ _ h.flip
  obtain ⟨leaf, right, hleaf, hright, hdrop⟩ := List.forall₂_cons_right_iff.1 hafter
  exact ⟨_, leaf, right, by rw [← hdrop, List.take_append_drop], hbefore.flip, hleaf, hright.flip⟩

/-- The tokens that become some leaves. -/
theorem exists_tokens_of_stands {before after : List (Kind × String)} {leaf : Kind × String}
    (h : List.Forall₂ Token.Stands tokens (before ++ leaf :: after)) :
    ∃ left token right, tokens = left ++ token :: right ∧ List.Forall₂ Token.Stands left before ∧
      token.Stands leaf ∧ List.Forall₂ Token.Stands right after := by
  have hbefore := List.forall₂_take_append _ _ _ h
  have hafter := List.forall₂_drop_append _ _ _ h
  obtain ⟨token, right, htoken, hright, hdrop⟩ := List.forall₂_cons_right_iff.1 hafter
  exact ⟨_, token, right, by rw [← hdrop, List.take_append_drop], hbefore, htoken, hright⟩

theorem recoversAll_iff : RecoversAll trees ↔ ∀ tree ∈ trees, tree.Recovers := by
  induction trees with
  | nil => simp [RecoversAll]
  | cons tree trees ih => rw [RecoversAll, ih, List.forall_mem_cons]

/-- The number of bytes that leaves take. -/
def bytes (leaves : List (Kind × String)) : Nat := (leaves.map (·.2.utf8ByteSize)).sum

theorem bytes_append (left right : List (Kind × String)) :
    bytes (left ++ right) = bytes left + bytes right := by
  rw [bytes, List.map_append, List.sum_append]
  rfl

theorem bytes_leavesAll (trees : List Tree) : bytes (leavesAll trees) = sizeAll trees :=
  sum_leavesAll trees

theorem bytes_eq_of_stands (h : List.Forall₂ Token.Stands tokens leaves) :
    bytes leaves = (tokens.map Token.size).sum := by
  induction h with
  | nil => rfl
  | cons hstands _ ih =>
      rw [bytes, List.map_cons, List.sum_cons, List.map_cons, List.sum_cons, ← ih, hstands.2]
      rfl

/-- Leaves that have text and start at the same byte are the same ones. -/
theorem eq_of_bytes_eq {left right left' right' : List (Kind × String)}
    (h : left ++ right = left' ++ right') (hbytes : bytes left = bytes left')
    (hleaves : ∀ leaf ∈ left ++ right, leaf.2 ≠ "") : left = left' := by
  have hnil : ∀ middle : List (Kind × String), (∀ leaf ∈ middle, leaf ∈ left ++ right) →
      bytes middle = 0 → middle = [] := by
    intro middle hmem hzero
    cases middle with
    | nil => rfl
    | cons leaf middle =>
        have hne := hleaves leaf (hmem leaf List.mem_cons_self)
        rw [bytes, List.map_cons, List.sum_cons, Nat.add_eq_zero_iff] at hzero
        exact absurd (String.utf8ByteSize_eq_zero_iff.1 hzero.1) hne
  rcases List.append_eq_append_iff.1 h with ⟨middle, rfl, rfl⟩ | ⟨middle, rfl, hmiddle⟩
  · rw [bytes_append] at hbytes
    rw [hnil middle (fun leaf hmem => by simp [hmem]) (by omega), List.append_nil]
  · rw [bytes_append] at hbytes
    rw [hnil middle (fun leaf hmem => by simp [hmem]) (by omega), List.append_nil]

end Tree

namespace Locus

/-- A place that holds a tree of a text, with the leaves of the text in front of it and behind
it. -/
structure Amid (text : String) (before : List (Kind × String)) (tree : Tree)
    (after : List (Kind × String)) (locus : Locus) : Prop where
  element : locus.element = tree.locate (Tree.bytes before)
  leaves : (Document.parse text).tree.leaves = before ++ (tree.leaves ++ after)
  strung : tree.Strung after

/-- Whether the tokens in each error node of a place close what they open and nothing else. -/
def Recovers (locus : Locus) : Prop :=
  ∀ error ∈ locus.descendants, error.kind = .error → Construct.Balanced (error.leaves.map kind)

instance (locus : Locus) : Decidable locus.Recovers :=
  inferInstanceAs (Decidable (∀ error ∈ locus.descendants, _ → _))

variable {locus child node : Locus} {text : String} {before after : List (Kind × String)}
  {tree : Tree} {kind : Kind} {trees : List Tree} {start : Nat}

theorem map_kind_place (start : Nat) (leaves : List Leaf) :
    (Leaf.place start leaves).map (·.2.1) = leaves.map Leaf.kind := by
  induction leaves generalizing start with
  | nil => rfl
  | cons leaf leaves ih => rw [Leaf.place, List.map_cons, List.map_cons, ih]

theorem map_kind_leaves (h : locus.element = tree.locate start) :
    locus.leaves.map Locus.kind = Tree.kinds tree.leaves := by
  obtain ⟨⟨element, left, right⟩, above⟩ := locus
  obtain rfl : element = tree.locate start := h
  cases tree with
  | leaf kind text => rfl
  | node tag children =>
      have hplaced := Tree.placed_searchAll children start []
        ⟨(Tree.node tag children).locate start, left, right⟩ above
      have hkinds := congrArg (List.map (·.2.1)) hplaced
      rw [map_kind_place, List.map_map] at hkinds
      rw [Tree.leaves, Tree.kinds, ← Tree.map_homedAll tag, List.map_map]
      exact hkinds

theorem Recovers.of_mem_children (h : locus.Recovers) (hchild : child ∈ locus.children) :
    child.Recovers := by
  intro error herror
  obtain ⟨hunder, hnode⟩ := mem_descendants_iff.1 herror
  exact h error (mem_descendants_iff.2 ⟨(Under.child .root hchild).trans hunder, hnode⟩)

theorem Recovers.of_element (h : locus.element = tree.locate start) (hrecovers : locus.Recovers) :
    tree.Recovers := by
  induction locus using children_induction generalizing tree start with
  | step locus ih =>
      cases tree with
      | leaf tag text => trivial
      | node tag children =>
          obtain ⟨hnode, hkind⟩ := isNode_of_element h
          refine ⟨fun herror => ?_, Tree.recoversAll_iff.2 fun inner hmem => ?_⟩
          · have hself := hrecovers locus (mem_descendants_iff.2 ⟨.root, hnode⟩)
              (hkind.trans herror)
            rwa [map_kind_leaves h] at hself
          · obtain ⟨left, right, rfl⟩ := List.append_of_mem hmem
            obtain ⟨child, hchild, helement, -⟩ := exists_child_of_split _ h
            exact ih child hchild helement (hrecovers.of_mem_children hchild)

theorem Amid.of_mem_children (h : locus.Amid text before (.node kind trees) after)
    (hchild : child ∈ locus.children) :
    ∃ left tree right, trees = left ++ tree :: right ∧
      child.Amid text (before ++ Tree.leavesAll left) tree (Tree.leavesAll right ++ after) ∧
      child.here.left.length = left.length ∧ child.here.right.length = right.length := by
  obtain ⟨left, tree, right, rfl, helement, hleft, hright⟩ :=
    exists_split_of_mem_children h.element hchild
  obtain ⟨-, hstrung⟩ := h.strung
  refine ⟨left, tree, right, rfl, ⟨?_, ?_, (Tree.strungAll_append.1 hstrung).2.1⟩, hleft, hright⟩
  · rw [Tree.bytes_append, Tree.bytes_leavesAll]
    exact helement
  · rw [h.leaves, Tree.leaves, Tree.leavesAll_append, Tree.leavesAll]
    simp only [List.append_assoc]

/-- A place that has children holds a node. -/
theorem Amid.eq_node (h : locus.Amid text before tree after) (hchild : child ∈ locus.children) :
    ∃ trees, tree = .node locus.kind trees := by
  cases tree with
  | leaf tag word =>
      have hnode := isNode_of_mem_children hchild
      rw [isNode_eq_not, (isToken_of_element h.element).1] at hnode
      cases hnode
  | node tag trees => exact ⟨trees, by rw [(isNode_of_element h.element).2]⟩

end Locus

namespace Document

variable {text : String} {node : Locus} {opening closing : Token}

theorem strung_parse (text : String) : (parse text).tree.Strung [] := by
  have hapart := (Rule.weaves_document (input text)).apart (Lexeme.led_group _) (Rule.apart_nil _)
  have hrest : (Rule.document (input text)).rest = [⟨[], Token.endOfFile text.utf8ByteSize⟩] :=
    Rule.rest_document rfl (ends_group_tokenize text).1
  have hbehind : Rule.Behind (Rule.document (input text)).rest [] :=
    ⟨Token.endOfFile text.utf8ByteSize, rfl, by rw [hrest]; exact .done _⟩
  exact (hapart.threads [] hbehind).1

/-- Each place in the tree of a text has leaves of the text in front of it and behind it. -/
theorem exists_amid (h : Locus.Under (locus text) node) :
    ∃ before tree after, node.Amid text before tree after := by
  induction h with
  | root => exact ⟨[], (parse text).tree, [], rfl, by simp, strung_parse text⟩
  | child _ hchild ih =>
      obtain ⟨before, tree, after, hamid⟩ := ih
      obtain ⟨trees, rfl⟩ := hamid.eq_node hchild
      obtain ⟨left, inner, right, -, hinner, -⟩ := hamid.of_mem_children hchild
      exact ⟨_, inner, _, hinner⟩

theorem admits_leaves_parse (text : String) : Admits [] (Tree.kinds (parse text).tree.leaves) := by
  rw [Construct.admits_congr (Tree.alike_of_stands (forall₂_stands_leaves_parse text)),
    map_kind_cutTokens]
  exact Lexer.admits_scan [] 0 text.toList

/-- A token that opens a string or a hole and the token that closes it: what stands between the two
closes what it opens and nothing else. -/
def Matches (text : String) (opening closing : Token) : Prop :=
  ∃ before inner after, tokenize text = before ++ opening :: (inner ++ closing :: after) ∧
    Construct.Balanced (inner.map Token.kind) ∧
    ∃ construct, opening.kind.opens = some construct ∧ closing.kind.closes = some construct

theorem leaf_ne_empty {leaf : Kind × String} (h : leaf ∈ (parse text).tree.leaves) :
    leaf.2 ≠ "" := by
  obtain ⟨i, hi, rfl⟩ := List.mem_iff_getElem.1 h
  have hstands := forall₂_stands_leaves_parse text
  have hi' := hstands.length_eq ▸ hi
  have htext := (hstands.get hi' hi).2
  simp only [List.get_eq_getElem] at htext
  rw [htext]
  exact text_ne_empty_of_mem_cutTokens (List.getElem_mem hi')

/-- A token that is not the end of the file is one that is cut. -/
theorem exists_cutTokens_eq {before after : List Token} {token : Token}
    (h : tokenize text = before ++ token :: after) (hkind : token.kind ≠ .eof) :
    ∃ rest, after = rest ++ [Token.endOfFile text.utf8ByteSize] ∧
      cutTokens text = before ++ token :: rest := by
  rw [tokenize_eq] at h
  rcases List.eq_nil_or_concat' after with rfl | ⟨rest, last, rfl⟩
  · obtain ⟨-, heof⟩ := List.append_inj' h rfl
    rw [← (List.cons.inj heof).1] at hkind
    exact absurd rfl hkind
  · rw [← List.cons_append, ← List.append_assoc] at h
    obtain ⟨hcut, heof⟩ := List.append_inj' h rfl
    exact ⟨rest, by rw [heof], hcut⟩

theorem kind_ne_eof_of_closes {kind : Kind} (h : kind.closes.isSome = true) : kind ≠ .eof := by
  rintro rfl
  cases h

/-- The leaves that two tokens become, with what stands between them. -/
theorem Matches.exists_leaves (h : Matches text opening closing) :
    ∃ before first inner last after,
      (parse text).tree.leaves = before ++ first :: (inner ++ last :: after) ∧
      Tree.bytes before = opening.start ∧ Tree.bytes (before ++ first :: inner) = closing.start ∧
      closing.Stands last ∧ last.1 = closing.kind ∧ last.1.closes.isSome = true ∧
      Construct.Balanced (Tree.kinds inner) := by
  obtain ⟨before, inner, after, htokens, hbalanced, construct, -, hcloses⟩ := h
  have hcloses : closing.kind.closes.isSome = true := by rw [hcloses]; rfl
  have hword : closing.kind.isWord = false := by
    revert hcloses
    cases closing.kind <;> decide
  have hall := contiguous_tokenize text
  rw [htokens] at hall
  have hopening := hall.sum_size
  rw [← List.cons_append, ← List.append_assoc] at htokens hall
  have hclosing := hall.sum_size
  obtain ⟨rest, -, hcut⟩ := exists_cutTokens_eq htokens (kind_ne_eof_of_closes hcloses)
  have hstands := forall₂_stands_leaves_parse text
  rw [hcut] at hstands
  obtain ⟨outside, last, right, hleaves, hbefore, hlast, -⟩ := Tree.exists_leaves_of_stands hstands
  obtain ⟨left, first, middle, rfl, hleft, -, hmiddle⟩ := Tree.exists_leaves_of_stands hbefore
  have hkind := hlast.1.eq_of_not_isWord hword
  refine ⟨left, first, middle, last, right, ?_, ?_, ?_, hlast, hkind, ?_, ?_⟩
  · rw [hleaves, List.append_assoc, List.cons_append]
  · rw [Tree.bytes_eq_of_stands hleft, ← hopening, Nat.zero_add]
  · rw [Tree.bytes_eq_of_stands hbefore, ← hclosing, Nat.zero_add]
  · rwa [hkind]
  · rw [Construct.Balanced, Construct.unwind_congr (Tree.alike_of_stands hmiddle)]
    exact hbalanced

/-- The leaves of a place that starts with one of two tokens, and those behind it. -/
theorem Matches.exists_behind {before after : List (Kind × String)} {tree : Tree}
    (h : Matches text opening closing) (hamid : node.Amid text before tree after)
    (hstart : opening.start = node.span.start) :
    ∃ first inner last rest, tree.leaves ++ after = first :: (inner ++ last :: rest) ∧
      Tree.bytes (before ++ first :: inner) = closing.start ∧
      closing.Stands last ∧ last.1 = closing.kind ∧ last.1.closes.isSome = true ∧
      Construct.Balanced (Tree.kinds inner) := by
  obtain ⟨front, first, inner, last, rest, hleaves, hopening, hbehind⟩ := h.exists_leaves
  have hspan : node.span.start = Tree.bytes before := by
    rw [Locus.span, hamid.element, Tree.span_locate]
  have hsplit := hamid.leaves.symm.trans hleaves
  obtain rfl : before = front := by
    refine Tree.eq_of_bytes_eq hsplit (by rw [← hspan, ← hstart, hopening]) fun leaf hmem => ?_
    exact leaf_ne_empty (hamid.leaves ▸ hmem)
  exact ⟨first, inner, last, rest, List.append_cancel_left hsplit, hbehind⟩

/-- What a token opens is not left open by a node in which another token closes it. -/
theorem Matches.not_open {before : List (Kind × String)} {trees : List Tree} {kind first : Kind}
    (h : Matches text opening closing) (hamid : node.Amid text before (.node kind trees) [])
    (hstart : opening.start = node.span.start) : ¬Tree.Open first trees := by
  rintro ⟨word, rest, hleaves, inner', hsettles, -⟩
  obtain ⟨_, inner, last, _, hsplit, -, -, -, hcloses, hbalanced⟩ := h.exists_behind hamid hstart
  rw [List.append_nil, Tree.leaves, hleaves] at hsplit
  obtain ⟨-, rfl⟩ := List.cons.inj hsplit
  rw [Tree.kinds_append] at hsettles
  have hnone := hbalanced.unwind_cons hcloses
  rw [show Tree.kinds (last :: _) = last.1 :: Tree.kinds _ from rfl, hnone] at hsettles
  cases hsettles

/-- Of the node that a token opens, the token that closes it is the last child. -/
theorem Matches.exists_last {before after : List (Kind × String)} {trees : List Tree}
    {kind first final : Kind} (h : Matches text opening closing)
    (hamid : node.Amid text before (.node kind trees) after)
    (hstart : opening.start = node.span.start) (hclosed : Tree.Closed first final trees)
    (hcloses : final.closes.isSome = true) :
    ∃ child ∈ node.children, child.here.right = [] ∧ child.isToken = true ∧ child.kind = final ∧
      closing.Sits child := by
  obtain ⟨leaf, inner, last, rest, hsplit, hclosing, hstands, -, hends, hbalanced⟩ :=
    h.exists_behind hamid hstart
  obtain ⟨word, middle, ending, rfl, hmiddle⟩ := hclosed
  obtain ⟨rfl, hcut⟩ : (first, word) = leaf ∧
      Tree.leavesAll middle ++ (final, ending) :: after = inner ++ last :: rest := by
    simpa [Tree.leaves, Tree.leavesAll, Tree.leavesAll_append] using hsplit
  have hkinds := congrArg Tree.kinds hcut
  rw [Tree.kinds_append, Tree.kinds_append] at hkinds
  have hlength : (Tree.leavesAll middle).length = inner.length := by
    have heq := hmiddle.eq_of_append_cons hbalanced hcloses hends hkinds
    simpa [Tree.kinds] using congrArg List.length heq
  obtain ⟨rfl, hlast⟩ := List.append_inj hcut hlength
  obtain ⟨rfl, -⟩ := List.cons.inj hlast
  have helement := hamid.element
  rw [← List.cons_append] at helement
  obtain ⟨child, hchild, hinner, -, hright⟩ := Locus.exists_child_of_split _ helement
  obtain ⟨htoken, hkind, htext⟩ := Locus.isToken_of_element hinner
  have hspan : child.span = ⟨closing.start, closing.start + ending.utf8ByteSize⟩ := by
    have hbytes : Tree.sizeAll (.leaf first word :: middle) =
        Tree.bytes ((first, word) :: Tree.leavesAll middle) :=
      (Tree.bytes_leavesAll _).symm
    rw [Locus.span, hinner, Tree.span_locate, hbytes, ← Tree.bytes_append, hclosing]
    rfl
  refine ⟨child, hchild, hright rfl, htoken, hkind, hkind ▸ hstands.1, htext.trans hstands.2, ?_⟩
  rw [hspan, Token.span, Token.stop, Token.size, ← hstands.2]

/-- A string and a hole end with the token that closes them in the text, where recovery puts nothing
into an error node below them that closes something else; and such a string is terminated. -/
theorem exists_closing_of_matches (h : Locus.Under (locus text) node) (hnode : node.isNode = true)
    (hkind : node.kind = .interpolation ∨ node.kind = .string)
    (hmatches : Matches text opening closing) (hstart : opening.start = node.span.start)
    (hrecovers : node.Recovers) :
    (∃ child ∈ node.children, child.isToken = true ∧ closing.Sits child) ∧
      node.span.stop = closing.stop ∧ (node.kind = .string → node.isTerminated = true) := by
  obtain ⟨before, tree, after, hamid⟩ := exists_amid h
  have hrecovers' := hrecovers.of_element hamid.element
  cases tree with
  | leaf tag word =>
      rw [Locus.isNode_eq_not, (Locus.isToken_of_element hamid.element).1] at hnode
      cases hnode
  | node tag trees =>
      obtain rfl : node.kind = tag := (Locus.isNode_of_element hamid.element).2
      have hadmits := admits_leaves_parse text
      rw [hamid.leaves, Tree.kinds_append, Construct.admits_append, Tree.kinds_append] at hadmits
      obtain ⟨hholds, hstrung⟩ := hamid.strung
      have hends : ∃ first final, (Tree.Closed first final trees ∨
          Tree.Open first trees ∧ after = []) ∧ final.closes.isSome = true ∧
            (node.kind = .string → final = .stringEnd) := by
        have hsettles : ∀ tree ∈ trees, tree.SettlesAnywhere := fun tree _ =>
          Tree.settlesAnywhere tree
        rcases hkind with hkind | hkind <;> rw [hkind] at hholds ⊢
        · exact ⟨.interpStart, .interpEnd, Tree.closed_or_open_hole hsettles hholds hstrung
            hrecovers'.2 hadmits.2, rfl, nofun⟩
        · exact ⟨.stringStart, .stringEnd, Tree.closed_or_open_string hsettles hholds hstrung
            hrecovers'.2 hadmits.2, rfl, fun _ => rfl⟩
      obtain ⟨first, final, hclosed | ⟨hopen, rfl⟩, hcloses, hfinal⟩ := hends
      · obtain ⟨child, hchild, hright, htoken, hkind, hsits⟩ :=
          hmatches.exists_last hamid hstart hclosed hcloses
        have hlocated := h.located (located_locus text)
        refine ⟨⟨child, hchild, htoken, hsits⟩, ?_, fun hstring => ?_⟩
        · rw [← (hlocated.of_mem_children hchild).2.2.2.2 hright, hsits.2.2]
          rfl
        · rw [Locus.isTerminated, Locus.lastToken_of_right_eq_nil hchild hright,
            Locus.lastToken_of_isToken htoken]
          simp [hkind, hfinal hstring]
      · exact absurd hopen (hmatches.not_open hamid hstart)

/-- What is skipped in a hole leaves it closed. -/
theorem exists_closing_of_skipped :
    ∃ node, Locus.Under (locus "var x = \x27$\x7ba b\x7d\x27") node ∧ node.isNode = true ∧
      node.kind = .interpolation ∧ (∃ error ∈ node.descendants, error.kind = .error) ∧
      Matches "var x = \x27$\x7ba b\x7d\x27" ⟨.interpStart, "$\x7b", 9, false⟩
        ⟨.interpEnd, "\x7d", 14, false⟩ ∧
      node.span.start = 9 ∧ node.Recovers ∧
      ∃ child ∈ node.children, child.isToken = true ∧ child.kind = .interpEnd := by
  have hexists : ∃ node ∈ (locus "var x = \x27$\x7ba b\x7d\x27").descendants,
      node.kind = .interpolation ∧ (∃ error ∈ node.descendants, error.kind = .error) ∧
        node.span.start = 9 ∧ node.Recovers := by
    decide +kernel
  obtain ⟨node, hmem, hkind, herror, hstart, hrecovers⟩ := hexists
  obtain ⟨hunder, hnode⟩ := Locus.mem_descendants_iff.1 hmem
  have hmatches : Matches "var x = \x27$\x7ba b\x7d\x27" ⟨.interpStart, "$\x7b", 9, false⟩
      ⟨.interpEnd, "\x7d", 14, false⟩ := by
    refine ⟨(tokenize "var x = \x27$\x7ba b\x7d\x27").take 7, [⟨.ident, "a", 11, false⟩,
      ⟨.whitespace, " ", 12, false⟩, ⟨.ident, "b", 13, false⟩],
      (tokenize "var x = \x27$\x7ba b\x7d\x27").drop 12, by decide +kernel, by decide, .hole, rfl, rfl⟩
  obtain ⟨⟨child, hchild, htoken, hsits⟩, -⟩ :=
    exists_closing_of_matches hunder hnode (.inl hkind) hmatches hstart.symm hrecovers
  exact ⟨node, hunder, hnode, hkind, herror, hmatches, hstart, hrecovers, child, hchild, htoken,
    hsits.1.eq_of_not_isWord rfl⟩

/-- What is skipped in an array takes the token that closes the hole around it. -/
theorem not_closing_in_array :
    Matches "var x = \x27$\x7b[ + \x7d\x27" ⟨.interpStart, "$\x7b", 9, false⟩
        ⟨.interpEnd, "\x7d", 15, false⟩ ∧
      ∃ node, Locus.Under (locus "var x = \x27$\x7b[ + \x7d\x27") node ∧ node.kind = .interpolation ∧
        node.span.start = 9 ∧ (∃ error ∈ node.descendants, error.kind = .error) ∧
        ∀ child ∈ node.children, child.kind ≠ .interpEnd := by
  refine ⟨⟨(tokenize "var x = \x27$\x7b[ + \x7d\x27").take 7, [⟨.lBrack, "[", 11, false⟩,
    ⟨.whitespace, " ", 12, false⟩, ⟨.plus, "+", 13, false⟩, ⟨.whitespace, " ", 14, false⟩],
    (tokenize "var x = \x27$\x7b[ + \x7d\x27").drop 13, by decide +kernel, by decide, .hole, rfl,
    rfl⟩, ?_⟩
  have hexists : ∃ node ∈ (locus "var x = \x27$\x7b[ + \x7d\x27").descendants,
      node.kind = .interpolation ∧ node.span.start = 9 ∧
        (∃ error ∈ node.descendants, error.kind = .error) ∧
        ∀ child ∈ node.children, child.kind ≠ .interpEnd := by
    decide +kernel
  obtain ⟨node, hmem, hnode⟩ := hexists
  exact ⟨node, (Locus.mem_descendants_iff.1 hmem).1, hnode⟩

end Document

end Caret
