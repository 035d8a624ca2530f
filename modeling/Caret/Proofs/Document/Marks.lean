import Caret.Proofs.Document.Hole
import Caret.Proofs.Lexer.Joins
import Caret.Proofs.Rule.InStep

/-!
# The marks of a document

The leaves of a text that are no trivia, each with the node it is a child of: what the grammar makes
of the tokens. They answer each other, and those of two texts that part ways are in step.
-/

namespace Caret

namespace Document

/-- The leaves of a text in the nodes that they are in. -/
def homed (text : String) : List Leaf :=
  Tree.homedAll .root (Rule.document (Lexeme.group (tokenize text))).trees

def marks (text : String) : List Leaf :=
  Tree.marks .root (Rule.document (Lexeme.group (tokenize text))).trees

theorem marks_eq_filter (text : String) :
    marks text = (homed text).filter fun leaf => !leaf.kind.isTrivia := rfl

end Document

theorem Leaf.length_place (start : Nat) (leaves : List Leaf) :
    (place start leaves).length = leaves.length := by
  induction leaves generalizing start with
  | nil => rfl
  | cons leaf leaves ih => rw [place, List.length_cons, ih, List.length_cons]

/-- The leaf that a token of a tree is, in the node that it is a child of. -/
def Locus.leaf (token : Locus) : Leaf :=
  ⟨(token.parent.map kind).getD .root, token.kind, token.text⟩

/-- A leaf made of a token with the given kind and text. -/
def Leaf.Takes (leaf : Leaf) (part : Kind × String) : Prop :=
  part.1.Becomes leaf.kind ∧ leaf.text = part.2

theorem Leaf.Takes.kind_eq {leaf : Leaf} {part : Kind × String} (h : leaf.Takes part)
    (hword : leaf.kind.isWord = false) : part.1 = leaf.kind :=
  (h.1.eq_of_not_isWord (h.1.isWord_eq.symm.trans hword)).symm

namespace Document

variable {text name : String}

theorem map_placed_leaves (text : String) :
    (locus text).leaves.map Locus.placed = Leaf.place 0 (homed text) := by
  have htree : homed text = Tree.homedAll .root [(parse text).tree] := rfl
  obtain ⟨children, hchildren⟩ := exists_tree_parse text
  rw [locus, htree, hchildren, Tree.map_placed_leaves]
  simp [Tree.homedAll, Tree.homed]

theorem forall₂_takes_homed (text : String) :
    List.Forall₂ Leaf.Takes (homed text) (Lexer.cutLeaves [] text.toList) := by
  have hstands := forall₂_stands_leaves_parse text
  rw [leaves_parse, ← Tree.map_homedAll .root] at hstands
  have hleaves : (cutTokens text).map Token.leaf = Lexer.cutLeaves [] text.toList := by
    have h := map_leaf_tokenize text
    rw [tokenize_eq, List.map_append] at h
    exact List.append_cancel_right h
  rw [← hleaves, List.forall₂_map_right_iff]
  rw [List.forall₂_map_right_iff] at hstands
  exact hstands.flip

theorem homed_eq_map (text : String) : homed text = (locus text).leaves.map Locus.leaf := by
  have hunplace : ∀ start leaves, (Leaf.place start leaves).map (fun part =>
      (⟨part.1.getD .root, part.2.1, part.2.2.1⟩ : Leaf)) = leaves := by
    intro start leaves
    induction leaves generalizing start with
    | nil => rfl
    | cons leaf leaves ih => rw [Leaf.place, List.map_cons, ih]; rfl
  rw [← hunplace 0 (homed text), ← map_placed_leaves, List.map_map]
  rfl

theorem forall₂_takes_leaves (text : String) :
    List.Forall₂ (fun locus part => locus.leaf.Takes part) (locus text).leaves
      (Lexer.cutLeaves [] text.toList) := by
  have htakes := forall₂_takes_homed text
  rw [homed_eq_map, List.forall₂_map_left_iff] at htakes
  exact htakes

theorem map_leaf_cutTokens (text : String) :
    (cutTokens text).map Token.leaf = Lexer.cutLeaves [] text.toList := by
  have hmap := map_leaf_tokenize text
  rw [tokenize_eq, List.map_append] at hmap
  exact (List.append_inj' hmap rfl).1

/-- What the grammar reads of a text. -/
def input (text : String) : List Lexeme := Lexeme.group (tokenize text)

theorem map_leaf_input (text : String) :
    (input text).map (fun lexeme => lexeme.token.leaf) =
      ((Lexer.cutLeaves [] text.toList).filter fun part => !part.1.isTrivia) ++ [(.eof, "")] := by
  have htokens : (input text).map (fun lexeme => lexeme.token.leaf) =
      ((tokenize text).filter fun token => !token.isTrivia).map Token.leaf := by
    rw [← Lexeme.map_token_group, List.map_map]
    rfl
  have hfilter : ((tokenize text).filter fun token => !token.isTrivia).map Token.leaf =
      ((tokenize text).map Token.leaf).filter fun part => !part.1.isTrivia := by
    rw [List.filter_map]
    rfl
  rw [htokens, hfilter, map_leaf_tokenize, List.filter_append]
  rfl

theorem fits_input (hname : Identifier.isValid name = true) (hfresh : name ∉ contextualWords) :
    Rule.Fits name (input text) := by
  refine ⟨Lexeme.led_group _, hfresh, fun token hmem hword htext => ?_⟩
  obtain ⟨lexeme, hlexeme, rfl⟩ := List.mem_map.1 hmem
  have hleaf : lexeme.token.leaf ∈ (input text).map (fun lexeme => lexeme.token.leaf) :=
    List.mem_map_of_mem hlexeme
  rw [map_leaf_input] at hleaf
  rcases List.mem_append.1 hleaf with hleaf | hleaf
  · have hkind := Lexer.kind_of_isWord (List.mem_filter.1 hleaf).1 hword
    change lexeme.token.kind = (Kind.ofReserved lexeme.token.text).getD .ident at hkind
    unfold Identifier.isValid at hname
    rw [Bool.and_eq_true, Option.isNone_iff_eq_none] at hname
    rw [hkind, htext, hname.2]
    rfl
  · rw [List.mem_singleton] at hleaf
    have hkind : lexeme.token.kind = .eof := congrArg Prod.fst hleaf
    rw [hkind] at hword
    cases hword

/-- Each mark of a text answers the one before it. -/
theorem runs_marks {deep : Prop} (hname : Identifier.isValid name = true)
    (hfresh : name ∉ contextualWords)
    (herrors : ∀ error ∈ (parse text).errors, error.cause = .nestingTooDeep → deep) :
    ∃ start last, Leaf.Runs deep name start (marks text) last := by
  have hdue : Rule.Due name [] ⟨.root, .eof, ""⟩ (input text) := by
    intro home hasks
    rcases hasks.kind_cases with ⟨⟨-, herror⟩ | ⟨-, hawaits⟩, -, -⟩ | ⟨-, -, hline⟩
    · cases herror
    · cases hawaits
    · rcases hline with ⟨hkind, -⟩ | ⟨hkind, -⟩ <;> cases hkind
  obtain ⟨found, last, htrees, hruns, -⟩ :=
    Rule.answers_document (fits_input hname hfresh) herrors ⟨.root, .eof, ""⟩ hdue
  have hmarks : marks text = found := htrees
  exact ⟨_, last, by rwa [hmarks]⟩

end Document

namespace Rule

theorem agree_of_map_leaf {name : String} {front rest rest' : List (Kind × String)}
    {part part' : Kind × String} {input input' : List Lexeme}
    (h : input.map (fun lexeme => lexeme.token.leaf) = front ++ part :: rest)
    (h' : input'.map (fun lexeme => lexeme.token.leaf) = front ++ part' :: (.ident, name) :: rest')
    (hfront : ∀ other ∈ front, other.1 ≠ .eof) (htwins : part.1.Twins part'.1)
    (heof : part.1 ≠ .eof) (hin : part.1 = .ident → part.2 = "in" ∧ part'.2 = "in") :
    Agree name front.length input input' := by
  induction front generalizing input input' with
  | nil =>
      obtain ⟨first, tail, rfl, rfl, -⟩ := List.map_eq_cons_iff.1 h
      obtain ⟨first', tail', rfl, rfl, htail⟩ := List.map_eq_cons_iff.1 h'
      obtain ⟨next, more, rfl, hnext, -⟩ := List.map_eq_cons_iff.1 htail
      exact .here htwins heof hin (congrArg Prod.fst hnext) (congrArg Prod.snd hnext)
  | cons other front ih =>
      obtain ⟨first, tail, rfl, hfirst, htail⟩ := List.map_eq_cons_iff.1 h
      obtain ⟨first', tail', rfl, hfirst', htail'⟩ := List.map_eq_cons_iff.1 h'
      have hsame := hfirst.trans hfirst'.symm
      refine .there (congrArg Prod.fst hsame) (congrArg Prod.snd hsame) ?_
        (ih htail htail' fun other hmem => hfront other (List.mem_cons_of_mem _ hmem))
      have hkind := hfront other List.mem_cons_self
      rwa [← hfirst] at hkind

end Rule

namespace Document

theorem isCut_of_mem_cutLeaves {text : String} {part : Kind × String}
    (h : part ∈ Lexer.cutLeaves [] text.toList) : part.1.isCut = true := by
  obtain ⟨token, htoken, rfl⟩ := List.mem_map.1 h
  exact Lexer.isCut_of_mem_scan htoken

/-- Where a name is put behind a token, or behind what is left of it, the marks are in step. -/
theorem passes_marks {text text' name : String} {before gap rest rest' : List (Kind × String)}
    {part part' : Kind × String} (hfresh : name ∉ contextualWords)
    (h : Lexer.cutLeaves [] text.toList = before ++ part :: rest)
    (h' : Lexer.cutLeaves [] text'.toList = before ++ part' :: (gap ++ (.ident, name) :: rest'))
    (hgap : ∀ other ∈ gap, other.1.isTrivia = true) (hpart : part.1.isTrivia = false)
    (hpart' : part'.1.isTrivia = false) (htwins : part.1.Twins part'.1)
    (hin : part.1 = .ident → part.2 = "in" ∧ part'.2 = "in") :
    Rule.Passes (before.filter fun other => !other.1.isTrivia).length (marks text) (marks text') := by
  have hnone : gap.filter (fun other => !other.1.isTrivia) = [] := by
    rw [List.filter_eq_nil_iff]
    intro other hmem
    simp [hgap other hmem]
  have hcut : ∀ other ∈ before ++ part :: rest, other.1.isCut = true := fun other hmem =>
    isCut_of_mem_cutLeaves (by rwa [h])
  have hne : ∀ other ∈ before ++ part :: rest, other.1 ≠ .eof := by
    intro other hmem heof
    have hkind := hcut other hmem
    rw [heof] at hkind
    cases hkind
  have hmap : (input text).map (fun lexeme => lexeme.token.leaf) =
      (before.filter fun other => !other.1.isTrivia) ++ part ::
        ((rest.filter fun other => !other.1.isTrivia) ++ [(.eof, "")]) := by
    rw [map_leaf_input, h, List.filter_append, List.filter_cons_of_pos (by simp [hpart])]
    simp
  have hmap' : (input text').map (fun lexeme => lexeme.token.leaf) =
      (before.filter fun other => !other.1.isTrivia) ++ part' :: (.ident, name) ::
        ((rest'.filter fun other => !other.1.isTrivia) ++ [(.eof, "")]) := by
    rw [map_leaf_input, h', List.filter_append, List.filter_cons_of_pos (by simp [hpart']),
      List.filter_append, hnone, List.nil_append, List.filter_cons_of_pos (by rfl)]
    simp
  have hagree := Rule.agree_of_map_leaf hmap hmap'
    (fun other hmem => hne other (List.mem_append_left _ (List.mem_filter.1 hmem).1)) htwins
    (hne part (by simp)) hin
  have halong : Rule.Along name (before.filter fun other => !other.1.isTrivia).length (input text)
      (input text') := ⟨hagree, Lexeme.led_group _, Lexeme.led_group _, hfresh⟩
  have hstep : Rule.InStep name .root _ (Rule.document (input text))
      (Rule.document (input text')) := Rule.inStep_document halong
  rcases hstep with ⟨left, -, -, hrest⟩ | hpasses
  · have hend := Rule.rest_document rfl (ends_group_tokenize text).1
    exact absurd (congrArg Rule.kind hend) hrest.ne_eof
  · exact hpasses

variable {left gap right : List Locus} {leaf next : Locus}

theorem marks_eq_map (text : String) :
    marks text = ((locus text).leaves.filter fun leaf => !leaf.kind.isTrivia).map Locus.leaf := by
  rw [marks_eq_filter, homed_eq_map, List.filter_map]
  rfl

theorem length_filter_of_takes {before : List (Kind × String)}
    (h : List.Forall₂ (fun locus part => locus.leaf.Takes part) left before) :
    (left.filter fun leaf => !leaf.kind.isTrivia).length =
      (before.filter fun part => !part.1.isTrivia).length := by
  induction h with
  | nil => rfl
  | @cons leaf part _ _ htakes _ ih =>
      have htrivia : leaf.kind.isTrivia = part.1.isTrivia := htakes.1.isTrivia_eq
      rw [List.filter_cons, List.filter_cons, htrivia]
      split
      · rw [List.length_cons, List.length_cons, ih]
      · exact ih

/-- The mark of a token has the marks of the tokens before it in front of it. -/
theorem marks_getElem {before : List (Kind × String)}
    (hleaves : (locus text).leaves = left ++ leaf :: right)
    (hleft : List.Forall₂ (fun locus part => locus.leaf.Takes part) left before)
    (hleaf : leaf.kind.isTrivia = false) :
    (marks text)[(before.filter fun part => !part.1.isTrivia).length]? = some leaf.leaf := by
  rw [marks_eq_map, hleaves, List.filter_append, List.filter_cons_of_pos (by simp [hleaf]),
    List.map_append, List.map_cons, ← length_filter_of_takes hleft]
  simp

theorem placed_leaf (hname : Identifier.isValid name = true) (hfresh : name ∉ contextualWords)
    (hleaf : leaf ∈ (locus text).leaves) (htrivia : leaf.kind.isTrivia = false) :
    leaf.leaf.Placed := by
  have herrors : ∀ error ∈ (parse text).errors, error.cause = .nestingTooDeep → True :=
    fun _ _ _ => True.intro
  obtain ⟨start, last, hruns⟩ := runs_marks hname hfresh herrors
  refine hruns.placed leaf.leaf ?_
  rw [marks_eq_map]
  exact List.mem_map_of_mem (List.mem_filter.2 ⟨hleaf, by simp [htrivia]⟩)

/-- Of two leaves with nothing but trivia between them the second one answers the first. -/
theorem follows_of_leaves {deep : Prop} (hname : Identifier.isValid name = true)
    (hfresh : name ∉ contextualWords)
    (herrors : ∀ error ∈ (parse text).errors, error.cause = .nestingTooDeep → deep)
    (hleaves : (locus text).leaves = left ++ leaf :: (gap ++ next :: right))
    (hgap : ∀ other ∈ gap, other.kind.isTrivia = true) (hleaf : leaf.kind.isTrivia = false)
    (hnext : next.kind.isTrivia = false) :
    leaf.leaf.Placed ∧ leaf.leaf.Follows deep name next.leaf := by
  obtain ⟨start, last, hruns⟩ := runs_marks hname hfresh herrors
  have hnone : gap.filter (fun other => !other.kind.isTrivia) = [] := by
    rw [List.filter_eq_nil_iff]
    intro other hmem
    simp [hgap other hmem]
  have hmarks : marks text = (left.filter fun other => !other.kind.isTrivia).map Locus.leaf ++
      leaf.leaf :: next.leaf ::
        (right.filter fun other => !other.kind.isTrivia).map Locus.leaf := by
    rw [marks_eq_map, hleaves, List.filter_append, List.filter_cons_of_pos (by simp [hleaf]),
      List.filter_append, hnone, List.nil_append, List.filter_cons_of_pos (by simp [hnext])]
    simp
  rw [hmarks] at hruns
  exact ⟨hruns.placed leaf.leaf (by simp), hruns.follows⟩

/-- The bytes of a leaf come behind those of the leaves before it. -/
theorem span_of_leaves (hleaves : (locus text).leaves = left ++ leaf :: right) :
    leaf.span = ⟨(left.map (·.text.utf8ByteSize)).sum,
      (left.map (·.text.utf8ByteSize)).sum + leaf.text.utf8ByteSize⟩ := by
  have hplaced := map_placed_leaves text
  rw [homed_eq_map, hleaves, List.map_append, List.map_append, Leaf.place_append,
    List.map_cons, List.map_cons, Leaf.place, List.map_map] at hplaced
  have hlength : (left.map Locus.placed).length = (Leaf.place 0 (left.map Locus.leaf)).length := by
    rw [Leaf.length_place, List.length_map, List.length_map]
  obtain ⟨-, hrest⟩ := List.append_inj hplaced hlength
  obtain ⟨hfirst, -⟩ := List.cons.inj hrest
  have hspan : leaf.span = _ := congrArg (fun part => part.2.2.2) hfirst
  rw [hspan, Nat.zero_add]
  rfl

theorem exists_parts_of_takes {parts : List (Kind × String)}
    (h : List.Forall₂ (fun locus part => locus.leaf.Takes part) (left ++ leaf :: right) parts) :
    ∃ before part after, parts = before ++ part :: after ∧
      List.Forall₂ (fun locus part => locus.leaf.Takes part) left before ∧
      leaf.leaf.Takes part ∧ List.Forall₂ (fun locus part => locus.leaf.Takes part) right after := by
  have hbefore := List.forall₂_take_append _ _ _ h.flip
  have hafter := List.forall₂_drop_append _ _ _ h.flip
  obtain ⟨part, after, hpart, hrest, hdrop⟩ := List.forall₂_cons_right_iff.1 hafter
  exact ⟨_, part, after, by rw [← hdrop, List.take_append_drop], hbefore.flip, hpart, hrest.flip⟩

/-- The tokens of some leaves. -/
theorem exists_parts_of_leaves (hleaves : (locus text).leaves = left ++ leaf :: right) :
    ∃ before part after, Lexer.cutLeaves [] text.toList = before ++ part :: after ∧
      List.Forall₂ (fun locus part => locus.leaf.Takes part) left before ∧
      leaf.leaf.Takes part ∧ List.Forall₂ (fun locus part => locus.leaf.Takes part) right after := by
  have hall := forall₂_takes_leaves text
  rw [hleaves] at hall
  exact exists_parts_of_takes hall

theorem exists_leaves_of_takes {leaves : List Locus} {before after : List (Kind × String)}
    {part : Kind × String}
    (h : List.Forall₂ (fun locus part => locus.leaf.Takes part) leaves (before ++ part :: after)) :
    ∃ left leaf right, leaves = left ++ leaf :: right ∧
      List.Forall₂ (fun locus part => locus.leaf.Takes part) left before ∧
      leaf.leaf.Takes part ∧ List.Forall₂ (fun locus part => locus.leaf.Takes part) right after := by
  have hbefore := List.forall₂_take_append _ _ _ h
  have hafter := List.forall₂_drop_append _ _ _ h
  obtain ⟨leaf, right, hleaf, hright, hdrop⟩ := List.forall₂_cons_right_iff.1 hafter
  exact ⟨_, leaf, right, by rw [← hdrop, List.take_append_drop], hbefore, hleaf, hright⟩

/-- The leaves of some tokens. -/
theorem exists_leaves_of_parts {before after : List (Kind × String)} {part : Kind × String}
    (hparts : Lexer.cutLeaves [] text.toList = before ++ part :: after) :
    ∃ left leaf right, (locus text).leaves = left ++ leaf :: right ∧
      List.Forall₂ (fun locus part => locus.leaf.Takes part) left before ∧
      leaf.leaf.Takes part ∧ List.Forall₂ (fun locus part => locus.leaf.Takes part) right after := by
  have hall := forall₂_takes_leaves text
  rw [hparts] at hall
  exact exists_leaves_of_takes hall

/-- Leaves are trivia where their tokens are. -/
theorem forall_isTrivia_iff {leaves : List Locus} {parts : List (Kind × String)}
    (h : List.Forall₂ (fun locus part => locus.leaf.Takes part) leaves parts) :
    (∀ leaf ∈ leaves, leaf.kind.isTrivia = true) ↔ ∀ part ∈ parts, part.1.isTrivia = true := by
  induction h with
  | nil => simp
  | @cons leaf part _ _ htakes _ ih =>
      have htrivia : leaf.kind.isTrivia = part.1.isTrivia := htakes.1.isTrivia_eq
      rw [List.forall_mem_cons, List.forall_mem_cons, ih, htrivia]

/-- Leaves take as many bytes as their tokens are spelled with. -/
theorem sum_of_takes {before : List (Kind × String)}
    (h : List.Forall₂ (fun locus part => locus.leaf.Takes part) left before) :
    (left.map (·.text.utf8ByteSize)).sum =
      (String.ofList (Lexer.spelling before)).utf8ByteSize := by
  induction h with
  | nil => rfl
  | @cons leaf part _ _ htakes _ ih =>
      have htext : leaf.text = part.2 := htakes.2
      rw [List.map_cons, List.sum_cons, ih, htext]
      simp [Lexer.spelling, String.ofList_append]

/-- The tree covers the text. -/
theorem span_locus (text : String) : (locus text).span = ⟨0, text.utf8ByteSize⟩ := by
  have hsum : ((homed text).map (·.text.utf8ByteSize)).sum = (parse text).tree.size := by
    have htree : homed text = Tree.homedAll .root [(parse text).tree] := rfl
    rw [htree, Tree.sum_homedAll, Tree.sizeAll, Tree.sizeAll, Nat.add_zero]
  have hsize : ((homed text).map (·.text.utf8ByteSize)).sum = text.utf8ByteSize := by
    rw [homed_eq_map, List.map_map]
    refine (sum_of_takes (forall₂_takes_leaves text)).trans ?_
    rw [Lexer.spelling_cutLeaves, String.ofList_toList]
  change ((parse text).tree.locate 0).span = _
  rw [Tree.span_locate, ← hsum, hsize, Nat.zero_add]

/-- The characters in front of a leaf, its own and those behind it. -/
theorem spelling_of_leaves {text : String} {before after : List (Kind × String)}
    {part : Kind × String}
    (hparts : Lexer.cutLeaves [] text.toList = before ++ part :: after) :
    Lexer.spelling before ++ (part.2.toList ++ Lexer.spelling after) = text.toList := by
  have hall := Lexer.spelling_cutLeaves [] text.toList
  rw [hparts] at hall
  rw [← hall]
  simp [Lexer.spelling]

/-- The bytes of a leaf are counted from the start of the text. -/
theorem size_of_leaves {before : List (Kind × String)} {part : Kind × String}
    (hleaves : (locus text).leaves = left ++ leaf :: right)
    (hleft : List.Forall₂ (fun locus part => locus.leaf.Takes part) left before)
    (hleaf : leaf.leaf.Takes part) :
    leaf.span.start = (String.ofList (Lexer.spelling before)).utf8ByteSize ∧
      leaf.span.stop = (String.ofList (Lexer.spelling before)).utf8ByteSize + part.2.utf8ByteSize := by
  have htext : leaf.text = part.2 := hleaf.2
  rw [span_of_leaves hleaves, sum_of_takes hleft, htext]
  exact ⟨rfl, rfl⟩

end Document

end Caret
