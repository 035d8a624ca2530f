import Caret.Proofs.Document.Built
import Caret.Proofs.Rule.Forks

/-!
# A name behind a token of an object in a text

Two texts have the same tokens up to one that a key can come behind, and in the second one a name
follows it. Where that token is one of an object of the first text, the second text has an object
that starts at the same byte, with the name as a key.
-/

namespace Caret

open Lexer (cutLeaves spelling)
open Tree (sizeAll objects objectsAll Gains HasTokenAt HasKeyAt)

theorem Kind.not_isTrivia_of_precedesKey {kind : Kind} (h : kind.precedesKey = true) :
    kind.isTrivia = false := by
  cases kind <;> first | rfl | cases h

/-! Objects of a tree and of a text -/

namespace Locus

variable {root : Locus}

/-- The objects of a place below another one are objects of that one. -/
theorem exists_tree_of_under {node : Locus} {tree : Tree} {base : Nat} (h : Under root node)
    (helement : root.element = tree.locate base) :
    ∃ (inner : Tree) (start : Nat), node.element = inner.locate start ∧
      ∀ object ∈ inner.objects start, object ∈ tree.objects base := by
  induction h with
  | root => exact ⟨tree, base, helement, fun _ hmem => hmem⟩
  | @child parent node _ hchild ih =>
      obtain ⟨inner, start, hinner, hobjects⟩ := ih
      cases inner with
      | leaf kind text =>
          have hnode := isNode_of_mem_children hchild
          rw [isNode_eq_not, (isToken_of_element hinner).1] at hnode
          cases hnode
      | node kind trees =>
          obtain ⟨before, tree', after, rfl, hplaced, -⟩ :=
            exists_split_of_mem_children hinner hchild
          refine ⟨tree', _, hplaced, fun object hmem => hobjects object ?_⟩
          rw [objects, Tree.objectsAll_append, objectsAll]
          simp [hmem]

mutual

/-- Each object of a tree has its place. -/
theorem exists_of_mem_objects (tree : Tree) {locus : Locus} {base start : Nat}
    {children : List Tree} (hunder : Under root locus)
    (helement : locus.element = tree.locate base) (h : (start, children) ∈ tree.objects base) :
    ∃ object, Under root object ∧ object.element = (Tree.node .object children).locate start := by
  cases tree with
  | leaf kind text => simp [objects] at h
  | node kind trees =>
      rw [objects, List.mem_append] at h
      rcases h with h | h
      · split at h
        · rename_i hkind
          obtain ⟨rfl, rfl⟩ := Prod.mk.inj (List.mem_singleton.1 h)
          exact ⟨locus, hunder, hkind ▸ helement⟩
        · cases h
      · exact exists_of_mem_objectsAll trees [] hunder helement h

theorem exists_of_mem_objectsAll (trees before : List Tree) {locus : Locus} {kind : Kind}
    {base start : Nat} {children : List Tree} (hunder : Under root locus)
    (helement : locus.element = (Tree.node kind (before ++ trees)).locate base)
    (h : (start, children) ∈ objectsAll (base + sizeAll before) trees) :
    ∃ object, Under root object ∧ object.element = (Tree.node .object children).locate start := by
  cases trees with
  | nil => simp [objectsAll] at h
  | cons tree trees =>
      rw [objectsAll, List.mem_append] at h
      rcases h with h | h
      · obtain ⟨child, hchild, hplaced, -⟩ := exists_child_of_split before helement
        exact exists_of_mem_objects tree (hunder.child hchild) hplaced h
      · refine exists_of_mem_objectsAll trees (before ++ [tree]) hunder (by simpa using helement) ?_
        rw [Tree.sizeAll_append, sizeAll, sizeAll, Nat.add_zero, ← Nat.add_assoc]
        exact h

end

end Locus

/-- An object has a property with a name for its key that is written at a place. -/
def Locus.HasKeyAt (object : Locus) (name : String) (place : Nat) : Prop :=
  ∃ property ∈ object.properties, property.propertyName = some name ∧
    ∃ key word, property.keyNode = some key ∧ key.ident = some word ∧
      word.span = ⟨place, place + name.utf8ByteSize⟩

/-! Tokens that fork -/

namespace Rule

variable {name : String} {shift place : Nat} {tokens tokens' : List Token} {token token' : Token}

theorem size_spelling_cons (part : Kind × String) (parts : List (Kind × String)) :
    (String.ofList (spelling (part :: parts))).utf8ByteSize =
      part.2.utf8ByteSize + (String.ofList (spelling parts)).utf8ByteSize := by
  simp [spelling]

/-- Trivia goes to the token behind it. -/
theorem Fork.group_cons (h : Fork name shift place (Lexeme.group tokens) (Lexeme.group tokens'))
    (hsame : token.leaf = token'.leaf) (heof : token.kind ≠ .eof) :
    Fork name shift (token.text.utf8ByteSize + place) (Lexeme.group (token :: tokens))
      (Lexeme.group (token' :: tokens')) := by
  have htoken : Tree.ofToken token = Tree.ofToken token' :=
    congrArg (fun part : Kind × String => Tree.leaf part.1 part.2) hsame
  have htrivia : token.isTrivia = token'.isTrivia :=
    congrArg (fun part : Kind × String => part.1.isTrivia) hsame
  cases hskip : token.isTrivia with
  | false =>
      rw [Lexeme.group_cons_of_not_trivia hskip,
        Lexeme.group_cons_of_not_trivia (htrivia.symm.trans hskip)]
      have hfork : Fork name shift (sizeAll (Lexeme.tokens ⟨[], token⟩ |>.map Tree.ofToken) + place)
          (⟨[], token⟩ :: Lexeme.group tokens) (⟨[], token'⟩ :: Lexeme.group tokens') :=
        .there rfl htoken heof h
      exact hfork
  | true =>
      rw [Lexeme.group, Lexeme.group, if_pos hskip, if_pos (htrivia.symm.trans hskip)]
      generalize Lexeme.group tokens = input at h ⊢
      generalize Lexeme.group tokens' = input' at h ⊢
      cases h with
      | @here first other next rest rest' hlead hkind hprecedes hne hident htext hshift =>
          have hfork : Fork name shift
              (sizeAll (Lexeme.lead ⟨token :: first.lead, first.token⟩ |>.map Tree.ofToken))
              (⟨token :: first.lead, first.token⟩ :: rest)
              (⟨token' :: other.lead, other.token⟩ :: next :: rest') :=
            .here (by simp [htoken, hlead]) hkind hprecedes hne hident htext hshift
          exact hfork
      | @there place lexeme other rest rest' hlead hinner heof hrest =>
          have hfork : Fork name shift (sizeAll (Lexeme.tokens ⟨token :: lexeme.lead, lexeme.token⟩
                |>.map Tree.ofToken) + place)
              (⟨token :: lexeme.lead, lexeme.token⟩ :: rest)
              (⟨token' :: other.lead, other.token⟩ :: rest') :=
            .there (by simp [htoken, hlead]) hinner heof hrest
          rw [← Nat.add_assoc]
          exact hfork

/-- A token with nothing but trivia in front of it. -/
theorem exists_group_of_gap {gap rest : List (Kind × String)} {part : Kind × String}
    (h : tokens.map Token.leaf = gap ++ part :: rest)
    (hgap : ∀ other ∈ gap, other.1.isTrivia = true) (hpart : part.1.isTrivia = false) :
    ∃ next more, Lexeme.group tokens = next :: more ∧ next.token.leaf = part ∧
      next.lead.map Token.leaf = gap := by
  induction gap generalizing tokens with
  | nil =>
      obtain ⟨token, tokens, rfl, rfl, -⟩ := List.map_eq_cons_iff.1 h
      exact ⟨⟨[], token⟩, _, Lexeme.group_cons_of_not_trivia hpart, rfl, rfl⟩
  | cons other gap ih =>
      obtain ⟨token, tokens, rfl, rfl, htail⟩ := List.map_eq_cons_iff.1 h
      obtain ⟨next, more, hgroup, hnext, hlead⟩ :=
        ih htail fun other hmem => hgap other (List.mem_cons_of_mem _ hmem)
      have hskip : token.isTrivia = true := hgap _ List.mem_cons_self
      exact ⟨{ next with lead := token :: next.lead }, more, by simp [Lexeme.group, hskip, hgroup],
        hnext, by simp [hlead]⟩

theorem sizeAll_eq_size_spelling (tokens : List Token) :
    sizeAll (tokens.map Tree.ofToken) =
      (String.ofList (spelling (tokens.map Token.leaf))).utf8ByteSize := by
  induction tokens with
  | nil => rfl
  | cons token tokens ih =>
      rw [List.map_cons, List.map_cons, sizeAll, size_spelling_cons, ih]
      rfl

/-- Tokens that are the same up to one that a key can come behind, and then a name. -/
theorem fork_group {before gap rest rest' : List (Kind × String)} {part part' : Kind × String}
    (h : tokens.map Token.leaf = before ++ part :: rest)
    (h' : tokens'.map Token.leaf = before ++ part' :: (gap ++ (.ident, name) :: rest'))
    (hbefore : ∀ other ∈ before, other.1 ≠ .eof) (hkind : part.1 = part'.1)
    (hprecedes : part.1.precedesKey = true) (hne : part.2 ≠ "")
    (hgap : ∀ other ∈ gap, other.1.isTrivia = true) :
    Fork name (String.ofList (spelling (part' :: gap))).utf8ByteSize
      (String.ofList (spelling before)).utf8ByteSize (Lexeme.group tokens)
      (Lexeme.group tokens') := by
  induction before generalizing tokens tokens' with
  | nil =>
      obtain ⟨first, tokens, rfl, rfl, -⟩ := List.map_eq_cons_iff.1 h
      obtain ⟨other, tokens', rfl, rfl, htail⟩ := List.map_eq_cons_iff.1 h'
      obtain ⟨next, more, hgroup, hnext, hlead⟩ := exists_group_of_gap htail hgap rfl
      have htrivia : first.isTrivia = false := Kind.not_isTrivia_of_precedesKey hprecedes
      have hfirst : other.kind.precedesKey = true :=
        (congrArg Kind.precedesKey hkind).symm.trans hprecedes
      have htrivia' : other.isTrivia = false := Kind.not_isTrivia_of_precedesKey hfirst
      have hlead' : (Lexeme.mk [] first).lead.map Tree.ofToken =
          (Lexeme.mk [] other).lead.map Tree.ofToken := rfl
      have hfork : Fork name (other.text.utf8ByteSize + sizeAll (next.lead.map Tree.ofToken)) 0
          (⟨[], first⟩ :: Lexeme.group tokens) (⟨[], other⟩ :: next :: more) :=
        .here hlead' hkind hprecedes hne (congrArg Prod.fst hnext) (congrArg Prod.snd hnext) rfl
      rw [Lexeme.group_cons_of_not_trivia htrivia, Lexeme.group_cons_of_not_trivia htrivia', hgroup,
        size_spelling_cons, ← hlead, ← sizeAll_eq_size_spelling]
      exact hfork
  | cons other before ih =>
      obtain ⟨first, tokens, rfl, rfl, hrest⟩ := List.map_eq_cons_iff.1 h
      obtain ⟨first', tokens', rfl, hsame, hrest'⟩ := List.map_eq_cons_iff.1 h'
      rw [size_spelling_cons first.leaf]
      have hfork := ih hrest hrest' fun other hmem => hbefore other (List.mem_cons_of_mem _ hmem)
      exact hfork.group_cons hsame.symm (hbefore _ List.mem_cons_self)

end Rule

namespace Document

variable {text text' name : String} {before gap rest rest' : List (Kind × String)}
  {part part' : Kind × String}

/-- Where a name is put behind a token that a key can come behind, an object with that token gains
the name as a key. -/
theorem gains_parse (hfresh : name ∉ contextualWords)
    (h : cutLeaves [] text.toList = before ++ part :: rest)
    (h' : cutLeaves [] text'.toList = before ++ part' :: (gap ++ (.ident, name) :: rest'))
    (hgap : ∀ other ∈ gap, other.1.isTrivia = true) (hkind : part.1 = part'.1)
    (hprecedes : part.1.precedesKey = true) (hne : part.2 ≠ "") :
    Gains name (String.ofList (spelling (part' :: gap))).utf8ByteSize
      (String.ofList (spelling before)).utf8ByteSize [(parse text).tree] [(parse text').tree] := by
  have hbefore : ∀ other ∈ before, other.1 ≠ .eof := by
    intro other hmem heof
    have hcut := isCut_of_mem_cutLeaves (h ▸ List.mem_append_left _ hmem)
    rw [heof] at hcut
    cases hcut
  have hmap : (tokenize text).map Token.leaf = before ++ part :: (rest ++ [(.eof, "")]) := by
    rw [map_leaf_tokenize, h, List.append_assoc, List.cons_append]
  have hmap' : (tokenize text').map Token.leaf =
      before ++ part' :: (gap ++ (.ident, name) :: (rest' ++ [(.eof, "")])) := by
    rw [map_leaf_tokenize, h']
    simp
  have hforked : Rule.Forked name _ _ (input text) (input text') :=
    ⟨Rule.fork_group hmap hmap' hbefore hkind hprecedes hne hgap, Lexeme.led_group _,
      Lexeme.led_group _, hfresh⟩
  rcases Rule.forks_document _ _ _ hforked with ⟨left, -, -, hrest⟩ | hgains
  · -- a document is read to its end, which is not in front of any token
    have hend := Rule.rest_document rfl (ends_group_tokenize text).1
    exact absurd (congrArg Rule.kind hend) hrest.ne_eof
  · exact hgains

variable {object last : Locus} {start place shift : Nat} {children : List Tree}

/-- The token of an object, in the tree of the text. -/
theorem exists_hasTokenAt (hobject : Locus.Under (locus text) object)
    (hkind : object.kind = .object) (hchild : last ∈ object.children)
    (hlast : last ∈ (locus text).leaves)
    (htrivia : last.kind.isTrivia = false) :
    ∃ children, (object.span.start, children) ∈ objectsAll 0 [(parse text).tree] ∧
      HasTokenAt last.span.start object.span.start children := by
  obtain ⟨tree, start, helement, hobjects⟩ := Locus.exists_tree_of_under hobject
    (rfl : (locus text).element = (parse text).tree.locate 0)
  have hnode := Locus.isNode_of_mem_children hchild
  cases tree with
  | leaf kind token =>
      rw [Locus.isNode_eq_not, (Locus.isToken_of_element helement).1] at hnode
      cases hnode
  | node kind trees =>
      obtain rfl : kind = .object := (Locus.isNode_of_element helement).2.symm.trans hkind
      have hstart : object.span.start = start := by
        rw [Locus.span, helement, Tree.span_locate]
      obtain ⟨before, tree, after, rfl, hplaced, -⟩ :=
        Locus.exists_split_of_mem_children helement hchild
      have hspan : last.span = ⟨start + sizeAll before, start + sizeAll before + tree.size⟩ := by
        rw [Locus.span, hplaced, Tree.span_locate]
      cases tree with
      | node kind trees =>
          have htoken := (Locus.mem_leaves_iff.1 hlast).2
          have hinner := (Locus.isNode_of_element hplaced).1
          rw [Locus.isNode_eq_not, htoken] at hinner
          cases hinner
      | leaf kind token =>
          obtain ⟨-, rfl, -⟩ := Locus.isToken_of_element hplaced
          rw [hstart, hspan]
          refine ⟨_, ?_, before, _, token, after, rfl, htrivia, ?_, rfl⟩
          · rw [objectsAll, objectsAll, List.append_nil]
            exact hobjects _ (by simp [objects])
          · rintro rfl
            have := start_lt_stop hlast
            rw [hspan] at this
            simp [Tree.size] at this

theorem hasKeyAt_of_element (helement : object.element = (Tree.node .object children).locate start)
    (hkey : HasKeyAt name place start children) : object.HasKeyAt name place := by
  obtain ⟨before, more, after, rfl, hplace⟩ := hkey
  obtain ⟨property, hproperty, hplaced, -⟩ := Locus.exists_child_of_split before helement
  obtain ⟨hnode, hkind⟩ := Locus.isNode_of_element hplaced
  obtain ⟨key, hkeyNode, hkey⟩ : ∃ key, property.keyNode = some key ∧
      key.element = (Tree.node .propertyKey [.leaf .ident name]).locate place := by
    refine Option.map_eq_some_iff.1 ?_
    rw [Locus.keyNode, Locus.map_element_nodeOf, hplaced, hplace]
    rfl
  obtain ⟨word, hident, hword⟩ : ∃ word, key.ident = some word ∧
      word.element = (Tree.leaf .ident name).locate place := by
    refine Option.map_eq_some_iff.1 ?_
    rw [Locus.ident, Locus.map_element_tokenOf, hkey]
    rfl
  refine ⟨property, ?_, ?_, key, word, hkeyNode, hident, ?_⟩
  · simp [Locus.properties, Locus.nodes, hproperty, hnode, hkind]
  · simp [Locus.propertyName, hkeyNode, Locus.keyText, Locus.identText, hident,
      (Locus.isToken_of_element hword).2.2]
  · rw [Locus.span, hword, Tree.span_locate]
    rfl

/-- Where an object has a token that a key is gained for, there is one that starts where it does and
has the key. -/
theorem exists_object_of_gains
    (h : Gains name shift last.span.start [(parse text).tree] [(parse text').tree])
    (hobject : Locus.Under (locus text) object) (hkind : object.kind = .object)
    (hchild : last ∈ object.children) (hlast : last ∈ (locus text).leaves)
    (htrivia : last.kind.isTrivia = false) :
    ∃ object', Locus.Under (locus text') object' ∧ object'.kind = .object ∧
      object'.span.start = object.span.start ∧ object'.HasKeyAt name (last.span.start + shift) := by
  obtain ⟨children, hmem, htoken⟩ := exists_hasTokenAt hobject hkind hchild hlast htrivia
  rw [← Nat.zero_add last.span.start] at htoken ⊢
  obtain ⟨children', hmem', hkey⟩ := h.exists_object 0 _ children hmem htoken
  rw [objectsAll, objectsAll, List.append_nil] at hmem'
  obtain ⟨object', hunder, helement⟩ := Locus.exists_of_mem_objects _ .root
    (rfl : (locus text').element = (parse text').tree.locate 0) hmem'
  refine ⟨object', hunder, (Locus.isNode_of_element helement).2, ?_,
    hasKeyAt_of_element helement hkey⟩
  rw [Locus.span, helement, Tree.span_locate]

end Document

end Caret
