import Caret.Proofs.Context.Silence
import Caret.Proofs.Document.Inside

/-!
# The region of an offset

The region of an offset is told by the nodes around it: by the innermost string there, its holes
and its quotes. The lexer tells it too, by the constructs that it keeps open where it has cut the
tokens up to the offset. In a tree without error nodes the two agree at every offset that is not at
the type of a resource.
-/

namespace Caret

open Construct (inString Admits Settles behind)

/-- The tokens that an offset can be inside of without being in the text of a string or in code. -/
def Kind.isEdge : Kind → Bool
  | stringStart | stringEnd | interpStart => true
  | _ => false

theorem Kind.isWord_of_isEdge {kind : Kind} (h : kind.isEdge = true) : kind.isWord = false := by
  cases kind <;> first | rfl | cases h

/-- The region of an offset where the lexer has a construct open. -/
def Lexer.Mode.region : Mode → Region
  | .body _ => .literalText
  | .hole _ => .hole

/-- The constructs that the lexer has open once it has cut the tokens up to an offset. -/
def openAt (text : String) (offset : Nat) : List Lexer.Mode :=
  Lexer.openAfter [] ((tokenize text).countP fun token => token.stop ≤ offset) text.toList

instance (text : String) (offset : Nat) : Decidable (InComment text offset) :=
  inferInstanceAs (Decidable (∃ token ∈ tokenize text, _))

/-- The region of an offset as the tokens of the text have it. -/
def tokenRegion (text : String) (offset : Nat) : Option Region :=
  if InComment text offset then some .comment
  else if ∃ token ∈ tokenize text, token.kind.isEdge = true ∧
      token.span.strictlyContains offset = true then some .delimiter
  else (openAt text offset).head?.map Lexer.Mode.region

/-- The region of an offset in a construct. -/
def Construct.region : Construct → Region
  | string => .literalText
  | hole => .hole

namespace Token

theorem stop_endOfFile (offset : Nat) : (endOfFile offset).stop = offset := by
  simp [stop, endOfFile, size]

variable {start offset : Nat} {tokens : List Token} {last : Token}

/-- Tokens that stand side by side leave out no byte. -/
theorem Contiguous.exists_across (h : Contiguous start (tokens ++ [last])) (hstart : start < offset)
    (hstop : offset ≤ last.start) :
    ∃ token ∈ tokens, token.start < offset ∧ offset ≤ token.stop := by
  induction tokens generalizing start with
  | nil =>
      have heq : last.start = start := h.1
      omega
  | cons token tokens ih =>
      have heq : token.start = start := h.1
      by_cases hin : offset ≤ token.stop
      · exact ⟨token, List.mem_cons_self, by omega, hin⟩
      · obtain ⟨other, hmem, hother⟩ := ih h.2 (by omega)
        exact ⟨other, List.mem_cons_of_mem _ hmem, hother⟩

end Token

namespace Document

variable {text : String} {offset : Nat} {leaf other : Locus} {kind : Kind} {word : String}
  {before after : List (Kind × String)}

/-- Each offset of a text but the first one is inside or at the end of a leaf. -/
theorem exists_leaf_across (hpos : 0 < offset) (hle : offset ≤ text.utf8ByteSize) :
    ∃ leaf ∈ (locus text).leaves, leaf.span.start < offset ∧ offset ≤ leaf.span.stop := by
  have hcontiguous := contiguous_tokenize text
  rw [tokenize_eq] at hcontiguous
  obtain ⟨token, htoken, hstart, hstop⟩ := hcontiguous.exists_across hpos hle
  obtain ⟨leaf, hleaf, hsits⟩ := exists_leaf htoken
  rw [Token.Sits, Token.span] at hsits
  exact ⟨leaf, hleaf, by rw [hsits.2.2]; exact hstart, by rw [hsits.2.2]; exact hstop⟩

/-- The tokens up to an offset are those in front of the one around it, and that one if it ends
there. -/
theorem take_countP_tokenize {front rest : List Token} {token : Token}
    (hcut : cutTokens text = front ++ token :: rest) (hstart : token.start < offset)
    (hstop : offset ≤ token.stop) :
    (cutTokens text).take ((tokenize text).countP fun token => token.stop ≤ offset) =
      if token.stop ≤ offset then front ++ [token] else front := by
  have hpairwise := (contiguous_tokenize text).pairwise.1
  rw [tokenize_eq, hcut, List.pairwise_append, List.pairwise_append, List.pairwise_cons] at hpairwise
  obtain ⟨⟨-, ⟨hafter, -⟩, hbefore⟩, -, hend⟩ := hpairwise
  have hfront : ∀ other ∈ front, other.stop ≤ offset := by
    intro other hmem
    have := hbefore other hmem token List.mem_cons_self
    omega
  have hrest : ∀ other ∈ rest, ¬other.stop ≤ offset := by
    intro other hmem
    have hmem' : other ∈ cutTokens text := by simp [hcut, hmem]
    have hne := text_ne_empty_of_mem_cutTokens hmem'
    have hsize : other.size ≠ 0 := by simpa [Token.size] using hne
    have := hafter other hmem
    rw [Token.stop]
    omega
  have hlast : token.stop ≤ text.utf8ByteSize :=
    hend token (by simp) (Token.endOfFile text.utf8ByteSize) List.mem_cons_self
  have hcount : (tokenize text).countP (fun token => token.stop ≤ offset) = front.length +
      (if token.stop ≤ offset then 1 else 0) + (if text.utf8ByteSize ≤ offset then 1 else 0) := by
    rw [tokenize_eq, hcut, List.countP_append, List.countP_append, List.countP_cons,
      List.countP_singleton, List.countP_eq_length.2 (by simpa using hfront),
      List.countP_eq_zero.2 (by simpa using hrest)]
    simp only [decide_eq_true_eq, Nat.zero_add, Token.stop_endOfFile]
  rw [hcount, hcut]
  by_cases hat : token.stop ≤ offset
  · rw [if_pos hat, if_pos hat, List.append_cons front token rest]
    by_cases hsize : text.utf8ByteSize ≤ offset
    · have hnil : rest = [] := by
        refine List.eq_nil_iff_forall_not_mem.2 fun other hmem => hrest other hmem ?_
        have hother := hend other (by simp [hmem]) (Token.endOfFile text.utf8ByteSize)
          List.mem_cons_self
        exact Nat.le_trans hother hsize
      rw [hnil, List.append_nil]
      exact List.take_of_length_le (by simp)
    · rw [if_neg hsize]
      exact List.take_left' (by simp)
  · rw [if_neg hat, if_neg hat, if_neg (by omega)]
    exact List.take_left' (by simp)

/-- What the lexer has open at an offset is told by the leaf around it and the leaves in front. -/
theorem construct_openAt (hamid : leaf.Amid text before (.leaf kind word) after)
    (hstart : leaf.span.start < offset) (hstop : offset ≤ leaf.span.stop) :
    (openAt text offset).map Lexer.Mode.construct =
      if leaf.span.stop ≤ offset then kind.leavesOpen (behind [] (Tree.kinds before))
      else behind [] (Tree.kinds before) := by
  have hstands := forall₂_stands_leaves_parse text
  rw [hamid.leaves] at hstands
  obtain ⟨front, token, rest, hcut, hfront, htoken, -⟩ := Tree.exists_tokens_of_stands hstands
  have hspan : leaf.span = token.span := by
    have hsum : (front.map Token.size).sum = token.start := by
      have hcontiguous := contiguous_tokenize text
      rw [tokenize_eq, hcut, List.append_assoc, List.cons_append] at hcontiguous
      simpa using hcontiguous.sum_size
    rw [Locus.span, hamid.element, Tree.span_locate, Tree.bytes_eq_of_stands hfront, hsum]
    have hsize : word.utf8ByteSize = token.size := congrArg String.utf8ByteSize htoken.2
    rw [Tree.size, hsize]
    rfl
  rw [hspan] at hstart hstop ⊢
  have htake := take_countP_tokenize hcut hstart hstop
  have hkinds := map_kind_cutTokens text
  have hbefore : behind [] (Tree.kinds before) = behind [] (front.map Token.kind) :=
    Construct.behind_congr (Tree.alike_of_stands hfront) []
  have htag := (Construct.alike_of_becomes htoken.1).leavesOpen
  rw [openAt, Lexer.construct_openAfter [] 0, List.map_take, ← hkinds, ← List.map_take, htake,
    hbefore]
  change behind [] _ = if token.stop ≤ offset then _ else _
  split
  · rw [List.map_append, Construct.behind_append, htag]
    rfl
  · rfl

/-- A leaf is no node. -/
theorem kind_ne_string (hleaf : leaf ∈ (locus text).leaves) : leaf.kind ≠ .string := by
  obtain ⟨token, htoken, hbecomes, -⟩ := exists_token hleaf
  have hcut := isCut_of_mem_cutTokens htoken
  intro hstring
  rw [hstring] at hbecomes
  rw [← hbecomes.eq_of_leaf_not_isWord rfl] at hcut
  cases hcut

/-- The innermost string of an offset is the nearest one around the leaf there. -/
theorem innermostString_eq_find? (hleaf : leaf ∈ (locus text).leaves)
    (hstart : leaf.span.start < offset) (hstop : offset ≤ leaf.span.stop) :
    (locus text).innermostString offset =
      leaf.properAncestors.find? (Locus.isStringAround offset) := by
  obtain ⟨hunder, htoken⟩ := Locus.mem_leaves_iff.1 hleaf
  have henter : ∀ element : Element, (decide (element.span.start < offset) &&
      decide (offset ≤ element.span.stop)) = true ↔
        element.span.start < offset ∧ offset ≤ element.span.stop := by simp
  have hself : leaf.search (fun element => decide (element.span.start < offset) &&
      decide (offset ≤ element.span.stop)) = [leaf] := by
    rw [Locus.search_eq, if_pos ((henter _).2 ⟨hstart, hstop⟩), Locus.children_of_isToken htoken]
    rfl
  have hnone : Locus.isStringAround offset leaf = false := by
    simp [Locus.isStringAround, kind_ne_string hleaf]
  rw [Locus.innermostString, hunder.search_eq_reverse (isRoot_locus text) (located_locus text)
    henter hstart hstop, hself, List.filter_append, List.filter_singleton, hnone, cond_false,
    List.append_nil, List.filter_reverse, List.getLast?_reverse, List.head?_filter]

end Document

namespace Locus

variable {text : String} {offset : Nat} {outer : List Construct}
  {locus child string hole leaf token : Locus}

/-- An offset that belongs to a hole is inside of its node or at the end of it. -/
theorem lt_of_isInHole (h : Under (Document.locus text) hole) (hin : isInHole offset hole = true) :
    hole.span.start < offset ∧ offset ≤ hole.span.stop := by
  have hlocated := h.located (Document.located_locus text)
  have hmem : ∀ {kind token}, hole.tokenOf kind = some token →
      token ∈ hole.children ∧ token.isToken = true :=
    fun htoken => List.mem_filter.1 (List.mem_of_find?_eq_some htoken)
  have hbounds : ∀ {token}, token ∈ hole.children ∧ token.isToken = true →
      hole.span.start ≤ token.span.start ∧ token.span.start < token.span.stop ∧
        token.span.stop ≤ hole.span.stop := by
    intro token htoken
    have hcontains := Span.contains_iff.1 (hlocated.of_mem_children htoken.1).2.1
    have hne := Document.start_lt_stop (mem_leaves_iff.2 ⟨h.child htoken.1, htoken.2⟩)
    exact ⟨hcontains.1, hne, hcontains.2⟩
  unfold isInHole at hin
  split at hin
  · cases hin
  · rename_i opening hopening
    have hopens := hbounds (hmem hopening)
    rw [Bool.and_eq_true, decide_eq_true_eq, decide_eq_true_eq] at hin
    obtain ⟨hstart, hstop⟩ := hin
    refine ⟨by omega, ?_⟩
    split at hstop
    · exact hstop
    · rename_i closing hclosing
      have hcloses := hbounds (hmem hclosing)
      omega

/-- Of the holes of a string an offset can belong to the one around it alone. -/
theorem any_isInHole (h : Under (Document.locus text) string) (hchild : child ∈ string.children)
    (hstart : child.span.start < offset) (hstop : offset ≤ child.span.stop) :
    string.interpolations.any (isInHole offset) = true ↔
      child.isNode = true ∧ child.kind = .interpolation ∧ isInHole offset child = true := by
  rw [List.any_eq_true]
  constructor
  · rintro ⟨hole, hmem, hin⟩
    obtain ⟨hmem, hkind⟩ := List.mem_filter.1 hmem
    obtain ⟨hmem, hnode⟩ := List.mem_filter.1 hmem
    obtain ⟨hbefore, hafter⟩ := lt_of_isInHole (h.child hmem) hin
    rcases eq_or_apart_of_pairwise (h.located (Document.located_locus text)).pairwise_children
      hchild hmem with rfl | hlt | hlt
    · exact ⟨hnode, by simpa using hkind, hin⟩
    · omega
    · omega
  · rintro ⟨hnode, hkind, hin⟩
    exact ⟨child, List.mem_filter.2 ⟨List.mem_filter.2 ⟨hchild, hnode⟩, by simpa using hkind⟩, hin⟩

/-- An offset is in a quote or in the opening of a hole if it is inside of the leaf there, and that is
one. -/
theorem isInDelimiter_iff (h : Under (Document.locus text) string)
    (hleaf : leaf ∈ (Document.locus text).leaves) (hstart : leaf.span.start < offset)
    (hstop : offset ≤ leaf.span.stop) :
    isInDelimiter string offset = true ↔ offset < leaf.span.stop ∧
      (leaf ∈ string.children ∧ leaf.kind.isStringDelimiter = true ∨
        ∃ hole ∈ string.interpolations, leaf ∈ hole.children ∧ leaf.kind = .interpStart) := by
  have hinside : ∀ token ∈ (Document.locus text).leaves,
      token.span.strictlyContains offset = true ↔ token = leaf ∧ offset < leaf.span.stop := by
    intro token htoken
    simp only [Span.strictlyContains, Bool.and_eq_true, decide_eq_true_eq]
    constructor
    · rintro ⟨hbefore, hafter⟩
      obtain rfl := Document.eq_of_start_lt htoken hleaf hbefore (by omega) hstart hstop
      exact ⟨rfl, hafter⟩
    · rintro ⟨rfl, hlt⟩
      exact ⟨hstart, hlt⟩
  have htoken := (mem_leaves_iff.1 hleaf).2
  rw [isInDelimiter, List.any_eq_true]
  constructor
  · rintro ⟨token, hmem, hin⟩
    rcases List.mem_append.1 hmem with hown | hopening
    · obtain ⟨hmem, hkind⟩ := List.mem_filter.1 hown
      obtain ⟨hmem, hisToken⟩ := List.mem_filter.1 hmem
      obtain ⟨rfl, hlt⟩ := (hinside token (mem_leaves_iff.2 ⟨h.child hmem, hisToken⟩)).1 hin
      exact ⟨hlt, .inl ⟨hmem, hkind⟩⟩
    · obtain ⟨hole, hhole, hmem⟩ := List.mem_flatMap.1 hopening
      obtain ⟨hmem, hkind⟩ := List.mem_filter.1 hmem
      obtain ⟨hmem, hisToken⟩ := List.mem_filter.1 hmem
      have hunder := h.child (List.mem_filter.1 (List.mem_filter.1 hhole).1).1
      obtain ⟨rfl, hlt⟩ := (hinside token (mem_leaves_iff.2 ⟨hunder.child hmem, hisToken⟩)).1 hin
      exact ⟨hlt, .inr ⟨hole, hhole, hmem, by simpa using hkind⟩⟩
  · rintro ⟨hlt, hmem⟩
    refine ⟨leaf, ?_, (hinside leaf hleaf).2 ⟨rfl, hlt⟩⟩
    rcases hmem with ⟨hmem, hkind⟩ | ⟨hole, hhole, hmem, hkind⟩
    · exact List.mem_append_left _ (List.mem_filter.2 ⟨List.mem_filter.2 ⟨hmem, htoken⟩, hkind⟩)
    · refine List.mem_append_right _ (List.mem_flatMap.2 ⟨hole, hhole, ?_⟩)
      exact List.mem_filter.2 ⟨List.mem_filter.2 ⟨hmem, htoken⟩, by simpa using hkind⟩

/-- The token that opens a hole is its first child, and the one that closes it the last. -/
theorem Inside.ends_of_hole (h : hole.Inside text outer) (hrecovers : hole.Recovers)
    (hkind : hole.kind = .interpolation) (hchild : child ∈ hole.children)
    (hne : child.span.start < child.span.stop) :
    (child.kind = .interpStart → child.here.left = []) ∧
      (child.kind = .interpEnd → child.isToken = true ∧ child.here.right = []) := by
  have herror : hole.kind ≠ .error := by rw [hkind]; decide
  rcases h.cases_of_mem_children hrecovers herror hchild hne with
    ⟨construct, hconstruct, hcases⟩ | ⟨hnone, -⟩
  · obtain rfl : .hole = construct := by
      rw [hkind] at hconstruct
      exact Option.some.inj hconstruct
    rcases hcases with ⟨-, hopening, hleft, -⟩ | ⟨htoken, hclosing, hright, -⟩ | hinside
    · refine ⟨fun _ => hleft, fun hend => ?_⟩
      rw [hopening] at hend
      cases hend
    · refine ⟨fun hstart => ?_, fun _ => ⟨htoken, hright⟩⟩
      rw [hclosing] at hstart
      cases hstart
    · have hapart := hinside.isApart rfl
      constructor <;> intro heq <;> rw [heq] at hapart <;> cases hapart
  · rw [hkind] at hnone
    cases hnone

theorem Inside.exists_opening (h : hole.Inside text outer) (hkind : hole.kind = .interpolation)
    (hchild : child ∈ hole.children) :
    ∃ opening ∈ hole.children, opening.kind = .interpStart ∧ opening.here.left = [] ∧
      opening.isToken = true := by
  obtain ⟨before, tree, after, hamid, -⟩ := h
  obtain ⟨trees, rfl⟩ := hamid.eq_node hchild
  have hholds := hamid.strung.1
  rw [hkind] at hholds
  obtain ⟨first, rest, rfl⟩ : ∃ first rest, trees = Tree.leaf .interpStart first :: rest := by
    obtain ⟨first, middle, -, ⟨last, rfl⟩ | ⟨rfl, -⟩⟩ := hholds <;> exact ⟨first, _, rfl⟩
  have helement := hamid.element
  rw [← List.nil_append (Tree.leaf _ _ :: _)] at helement
  obtain ⟨opening, hopening, hinner, hleft, -⟩ := exists_child_of_split _ helement
  obtain ⟨htoken, hstart, -⟩ := isToken_of_element hinner
  exact ⟨opening, hopening, hstart, hleft rfl, htoken⟩

/-- An offset belongs to a hole unless it is in the token that opens it or behind the start of the one
that closes it. -/
theorem Inside.isInHole_iff (h : hole.Inside text outer) (hunder : Under (Document.locus text) hole)
    (hrecovers : hole.Recovers) (hkind : hole.kind = .interpolation)
    (hchild : child ∈ hole.children) (hstart : child.span.start < offset)
    (hstop : offset ≤ child.span.stop) :
    isInHole offset hole = true ↔
      (child.kind = .interpStart → child.span.stop ≤ offset) ∧ child.kind ≠ .interpEnd := by
  have hlocated := hunder.located (Document.located_locus text)
  have hrole := h.ends_of_hole hrecovers hkind hchild (by omega)
  have hchildren := Span.contains_iff.1 (hlocated.of_mem_children hchild).2.1
  have hend : ∀ {closing : Locus}, closing ∈ hole.children → closing.here.right = [] →
      closing.span.stop = hole.span.stop := fun hmem => (hlocated.of_mem_children hmem).2.2.2.2
  obtain ⟨opening, hopening, hopens, hleft, htoken⟩ := h.exists_opening hkind hchild
  have hfirst : hole.tokenOf .interpStart = some opening :=
    (hunder.tidy (Document.tidy_locus text)).tokenOf_interpStart hkind hopening hopens
  have hopeningIff : opening.span.stop ≤ offset ↔
      (child.kind = .interpStart → child.span.stop ≤ offset) := by
    rcases hlocated.eq_or_stop_le_of_first hopening hleft hchild with rfl | hle
    · exact ⟨fun hle _ => hle, fun hle => hle hopens⟩
    · refine ⟨fun _ hkindStart => ?_, fun _ => by omega⟩
      obtain rfl := eq_of_length_left hchild hopening (by rw [hrole.1 hkindStart, hleft])
      omega
  rw [isInHole, hfirst]
  dsimp only
  rw [Bool.and_eq_true, decide_eq_true_eq, decide_eq_true_eq, hopeningIff]
  refine and_congr_right fun _ => ?_
  cases hclosing : hole.tokenOf .interpEnd with
  | none =>
      refine ⟨fun _ hkindEnd => ?_, fun _ => Nat.le_trans hstop hchildren.2⟩
      have hmissing := List.find?_eq_none.1 hclosing child
        (List.mem_filter.2 ⟨hchild, (hrole.2 hkindEnd).1⟩)
      simp [hkindEnd] at hmissing
  | some closing =>
      obtain ⟨hmem, hisToken⟩ := List.mem_filter.1 (List.mem_of_find?_eq_some hclosing)
      have hcloses : closing.kind = .interpEnd := by simpa using List.find?_some hclosing
      have hne := Document.start_lt_stop (mem_leaves_iff.2 ⟨hunder.child hmem, hisToken⟩)
      have hright := ((h.ends_of_hole hrecovers hkind hmem hne).2 hcloses).2
      have hstopEnd := hend hmem hright
      dsimp only
      rcases eq_or_apart_of_pairwise hlocated.pairwise_children hchild hmem with rfl | hlt | hlt
      · exact ⟨fun hle => by omega, fun hkindEnd => absurd hcloses hkindEnd⟩
      · refine ⟨fun _ hkindEnd => ?_, fun _ => by omega⟩
        have := hend hchild (hrole.2 hkindEnd).2
        omega
      · omega

end Locus

namespace Document

variable {text : String} {offset : Nat} {outer : List Construct}
  {node string hole parent child leaf : Locus}

/-- A text whose tree has no error node. -/
def IsClean (text : String) : Prop := ∀ node ∈ (locus text).descendants, node.kind ≠ .error

theorem IsClean.kind_ne (h : IsClean text) (hunder : Locus.Under (locus text) node)
    (hnode : node.isNode = true) : node.kind ≠ .error :=
  h node (Locus.mem_descendants_iff.2 ⟨hunder, hnode⟩)

theorem IsClean.recovers (h : IsClean text) (hunder : Locus.Under (locus text) node) :
    node.Recovers := by
  intro error herror hkind
  obtain ⟨hbelow, hnode⟩ := Locus.mem_descendants_iff.1 herror
  exact absurd hkind (h.kind_ne (hunder.trans hbelow) hnode)

/-- The region in a string at an offset in one of its holes. -/
theorem IsClean.regionInString_eq (h : IsClean text) (hunder : Locus.Under (locus text) string)
    (hhole : hole ∈ string.children) (hkind : hole.kind = .interpolation)
    (hinside : hole.Inside text outer) (hchild : child ∈ hole.children)
    (hstart : child.span.start < offset) (hstop : offset ≤ child.span.stop) :
    Locus.regionInString string offset =
      if (child.kind = .interpStart → child.span.stop ≤ offset) ∧ child.kind ≠ .interpEnd then .hole
      else if Locus.isInDelimiter string offset then .delimiter else .literalText := by
  have hholeUnder := hunder.child hhole
  have hnode := Locus.isNode_of_mem_children hchild
  have hcontains := Span.contains_iff.1
    ((hholeUnder.located (located_locus text)).of_mem_children hchild).2.1
  have hbefore : hole.span.start < offset := by omega
  have hafter : offset ≤ hole.span.stop := by omega
  have hany := Locus.any_isInHole hunder hhole hbefore hafter
  have hin := hinside.isInHole_iff hholeUnder (h.recovers hholeUnder) hkind hchild hstart hstop
  rw [Locus.regionInString]
  refine if_congr ?_ rfl rfl
  rw [hany, hin]
  simp [hnode, hkind]

/-- A hole stands in a string. -/
theorem exists_string_of_hole (h : Locus.Under (locus text) hole) (hkind : hole.kind = .interpolation)
    (hnode : hole.isNode = true) :
    ∃ string, Locus.Under (locus text) string ∧ hole ∈ string.children ∧ string.kind = .string := by
  cases h with
  | root =>
      rw [kind_locus] at hkind
      cases hkind
  | @child string _ hstring hmem =>
      exact ⟨string, hstring, hmem, ((hstring.tidy (tidy_locus text)).of_mem_children hmem).2 hkind
        hnode⟩

/-- Where a place stands whose proper ancestors hold an offset, and what the strings around it make
of the offset. -/
structure Settled (text : String) (offset : Nat) (outer : List Construct) (node : Locus) : Prop where
  inside : node.Inside text outer
  region : inString outer = false →
    (node.properAncestors.find? (Locus.isStringAround offset)).map
      (fun string => Locus.regionInString string offset) = outer.head?.map Construct.region

theorem IsClean.exists_settled (h : IsClean text) (hunder : Locus.Under (locus text) node)
    (hstart : node.span.start < offset) (hstop : offset ≤ node.span.stop)
    (hapart : node.isToken = true → node.kind.isApart = true)
    (haround : ∀ string ∈ node.properAncestors, string.kind = .string →
      Locus.isStringAround offset string = true) :
    ∃ outer, Settled text offset outer node := by
  induction hunder with
  | root =>
      refine ⟨[], ⟨[], (parse text).tree, [], ⟨rfl, by simp, strung_parse text⟩, rfl, rfl⟩, fun _ => ?_⟩
      rw [Locus.properAncestors, Locus.ancestors_of_isRoot (isRoot_locus text)]
      rfl
  | @child parent child hparent hchild ih =>
      have hnode := Locus.isNode_of_mem_children hchild
      have hlocated := hparent.located (located_locus text)
      have hcontains := Span.contains_iff.1 (hlocated.of_mem_children hchild).2.1
      rw [Locus.properAncestors_of_mem_children hchild, Locus.ancestors_eq_cons] at haround
      obtain ⟨hparentAround, haround⟩ := List.forall_mem_cons.1 haround
      obtain ⟨outer, hinside, hregion⟩ := ih (by omega) (by omega)
        (fun htoken => by rw [Locus.isNode_eq_not, htoken] at hnode; cases hnode) haround
      have hskip : ∀ {place : Locus}, place.kind ≠ .string →
          Locus.isStringAround offset place = false := by
        intro place hkind
        simp [Locus.isStringAround, hkind]
      rcases hinside.cases_of_mem_children (h.recovers hparent) (h.kind_ne hparent hnode) hchild
        (by omega) with ⟨construct, hconstruct, hcases⟩ | ⟨hnone, hchildInside⟩
      · have hchildInside : child.Inside text (construct :: outer) := by
          rcases hcases with ⟨htoken, hkind, -⟩ | ⟨htoken, hkind, -⟩ | hchildInside
          · have happart := hapart htoken
            rw [hkind] at happart
            cases construct <;> cases happart
          · have happart := hapart htoken
            rw [hkind] at happart
            cases construct <;> cases happart
          · exact hchildInside
        refine ⟨construct :: outer, hchildInside, fun hcode => ?_⟩
        cases construct with
        | string => cases hcode
        | hole =>
            have hhole : parent.kind = .interpolation := Kind.construct_eq_some_iff.1 hconstruct
            have happart := hchildInside.isApart rfl
            have hends : (child.kind = .interpStart → child.span.stop ≤ offset) ∧
                child.kind ≠ .interpEnd := by
              constructor <;> intro heq <;> rw [heq] at happart <;> cases happart
            obtain ⟨string, hstring, hmem, hkind⟩ := exists_string_of_hole hparent hhole hnode
            have hstringAround : Locus.isStringAround offset string = true := by
              refine haround string ?_ hkind
              rw [Locus.properAncestors_of_mem_children hmem]
              exact Locus.mem_ancestors string
            rw [Locus.properAncestors_of_mem_children hchild, Locus.ancestors_eq_cons,
              List.find?_cons_of_neg (by simp [hskip (by rw [hhole]; decide)]),
              Locus.properAncestors_of_mem_children hmem, Locus.ancestors_eq_cons,
              List.find?_cons_of_pos hstringAround, Option.map_some,
              h.regionInString_eq hstring hmem hhole hinside hchild hstart hstop, if_pos hends]
            rfl
      · have hne : parent.kind ≠ .string := by
          intro hkind
          rw [hkind] at hnone
          cases hnone
        refine ⟨outer, hchildInside, fun hcode => ?_⟩
        rw [Locus.properAncestors_of_mem_children hchild, Locus.ancestors_eq_cons,
          List.find?_cons_of_neg (by simp [hskip hne])]
        exact hregion hcode

/-- A string around a leaf counts at each offset of the leaf, but for the end of the quote that closes
it. -/
theorem isStringAround_of_mem (hleaf : leaf ∈ (locus text).leaves)
    (hstart : leaf.span.start < offset) (hstop : offset ≤ leaf.span.stop)
    (htype : ∀ ancestor ∈ leaf.properAncestors, ancestor.kind ≠ .resourceType)
    (hmem : string ∈ leaf.properAncestors) (hkind : string.kind = .string)
    (hopen : offset < leaf.span.stop ∨ leaf.kind ≠ .stringEnd ∨ leaf ∉ string.children) :
    Locus.isStringAround offset string = true := by
  have hunderLeaf := (Locus.mem_leaves_iff.1 hleaf).1
  obtain ⟨hunder, haround⟩ := (hunderLeaf.mem_properAncestors_iff (isRoot_locus text)).1 hmem
  have hlocated := hunder.located (located_locus text)
  have hcontains := Span.contains_iff.1 (haround.under.contains hlocated)
  have hparent : ∀ parent, string.parent = some parent → parent.kind ≠ .resourceType := by
    intro parent hparent
    refine htype parent ?_
    cases hunder with
    | root => cases hparent
    | @child other _ hother hchild =>
        rw [Locus.parent_of_mem_children hchild] at hparent
        obtain rfl := Option.some.inj hparent
        exact (hunderLeaf.mem_properAncestors_iff (isRoot_locus text)).2
          ⟨hother, string, hchild, haround.under⟩
  rw [Locus.isStringAround, Bool.and_eq_true, Bool.and_eq_true, Bool.or_eq_true, decide_eq_true_eq,
    decide_eq_true_eq]
  refine ⟨⟨hkind, ?_⟩, ?_⟩
  · split
    · rfl
    · exact decide_eq_true (hparent _ ‹_›)
  by_cases hend : offset < string.span.stop
  · exact .inl hend
  · right
    rw [Bool.not_eq_true', ← Bool.not_eq_true, Locus.isTerminated]
    intro hterminated
    split at hterminated
    · cases hterminated
    · rename_i last hlast
      obtain ⟨hbelow, htoken, hlastStop⟩ := Locus.lastToken_eq_some hlast hlocated
      have hlastLeaf := Locus.mem_leaves_iff.2 ⟨hunder.trans hbelow, htoken⟩
      have hne := start_lt_stop hlastLeaf
      obtain rfl := eq_of_start_lt hlastLeaf hleaf (by omega) (by omega) hstart hstop
      have hquote : last.kind = .stringEnd := by simpa using hterminated
      rcases hopen with hlt | hkindEnd | hnone
      · omega
      · exact hkindEnd hquote
      · exact hnone (mem_children_of_lastToken hunder hkind haround.isNode hlast hquote)

/-- The region in a string at an offset in one of its own tokens. -/
theorem regionInString_of_token (hunder : Locus.Under (locus text) string)
    (hchild : leaf ∈ string.children) (htoken : leaf.isToken = true)
    (hkind : leaf.kind ≠ .interpStart ∧ leaf.kind ≠ .interpEnd)
    (hstart : leaf.span.start < offset) (hstop : offset ≤ leaf.span.stop) :
    Locus.regionInString string offset =
      if leaf.kind.isEdge = true ∧ offset < leaf.span.stop then .delimiter else .literalText := by
  have hleaf := Locus.mem_leaves_iff.2 ⟨hunder.child hchild, htoken⟩
  have hnone : ¬string.interpolations.any (Locus.isInHole offset) = true := by
    rw [Locus.any_isInHole hunder hchild hstart hstop, Locus.isNode_eq_not, htoken]
    simp
  have hedge : leaf.kind.isStringDelimiter = leaf.kind.isEdge := by
    obtain ⟨hopening, hclosing⟩ := hkind
    generalize leaf.kind = kind at hopening hclosing
    cases kind <;> first | rfl | exact absurd rfl hopening | exact absurd rfl hclosing
  rw [Locus.regionInString, if_neg hnone]
  refine if_congr ?_ rfl rfl
  rw [Locus.isInDelimiter_iff hunder hleaf hstart hstop, hedge]
  constructor
  · rintro ⟨hlt, ⟨-, htrue⟩ | ⟨-, -, -, hopening⟩⟩
    · exact ⟨htrue, hlt⟩
    · exact absurd hopening hkind.1
  · rintro ⟨htrue, hlt⟩
    exact ⟨hlt, .inl ⟨hchild, htrue⟩⟩

/-- The token that closes a hole has a single byte. -/
theorem stop_eq_of_interpEnd (hleaf : leaf ∈ (locus text).leaves) (hkind : leaf.kind = .interpEnd) :
    leaf.span.stop = leaf.span.start + 1 := by
  obtain ⟨token, htoken, hbecomes, -, hspan⟩ := exists_token hleaf
  have hsame : token.kind = .interpEnd := by
    rw [hkind] at hbecomes
    exact (hbecomes.eq_of_leaf_not_isWord rfl).symm
  have hsize : token.size = 1 := by
    obtain ⟨cut, hcut, heq⟩ := exists_mem_scan_of_mem_cutTokens htoken
    have hmem : cut.leaf ∈ Lexer.cutLeaves [] text.toList := by
      rw [← Lexer.map_leaf_scan [] 0]
      exact List.mem_map_of_mem hcut
    have htag : cut.kind = token.kind := congrArg Prod.fst heq
    have htext : cut.text = token.text := congrArg (·.2.1) heq
    have hsign : cut.leaf.1.sign = some '\x7d' := by
      change cut.kind.sign = _
      rw [htag, hsame]
      rfl
    rw [Token.size, ← htext, show cut.text = cut.leaf.2 from rfl, Lexer.text_of_sign hmem hsign]
    rfl
  rw [hspan, Token.span, Token.stop, hsize]

/-- The region in a string at an offset in a token around one of its holes. -/
theorem IsClean.regionInString_of_hole (h : IsClean text) (hunder : Locus.Under (locus text) string)
    (hhole : hole ∈ string.children) (hkind : hole.kind = .interpolation)
    (hinside : hole.Inside text outer) (hchild : leaf ∈ hole.children)
    (htoken : leaf.isToken = true) (hends : leaf.kind = .interpStart ∨ leaf.kind = .interpEnd)
    (hstart : leaf.span.start < offset) (hstop : offset ≤ leaf.span.stop) :
    Locus.regionInString string offset =
      if offset < leaf.span.stop then .delimiter
      else if leaf.kind = .interpStart then .hole else .literalText := by
  have hleaf := Locus.mem_leaves_iff.2 ⟨(hunder.child hhole).child hchild, htoken⟩
  have hmem : hole ∈ string.interpolations := by
    refine List.mem_filter.2 ⟨List.mem_filter.2 ⟨hhole, ?_⟩, decide_eq_true hkind⟩
    exact Locus.isNode_of_mem_children hchild
  have hdelimiter := Locus.isInDelimiter_iff hunder hleaf hstart hstop
  rw [h.regionInString_eq hunder hhole hkind hinside hchild hstart hstop]
  rcases hends with hopening | hclosing
  · by_cases hlt : offset < leaf.span.stop
    · rw [if_neg (fun hin => absurd (hin.1 hopening) (by omega)), if_pos hlt,
        if_pos (hdelimiter.2 ⟨hlt, .inr ⟨hole, hmem, hchild, hopening⟩⟩)]
    · rw [if_pos ⟨fun _ => by omega, by rw [hopening]; decide⟩, if_neg hlt, if_pos hopening]
  · have hsize := stop_eq_of_interpEnd hleaf hclosing
    have hlt : ¬offset < leaf.span.stop := by omega
    rw [if_neg (fun hin => hin.2 hclosing), if_neg (fun hin => hlt (hdelimiter.1 hin).1),
      if_neg hlt, if_neg (by rw [hclosing]; decide)]

theorem construct_openAt_of_at (h : leaf.At text outer) (htoken : leaf.isToken = true)
    (hstart : leaf.span.start < offset) (hstop : offset ≤ leaf.span.stop) :
    (openAt text offset).map Lexer.Mode.construct =
      if offset < leaf.span.stop then outer else leaf.kind.leavesOpen outer := by
  obtain ⟨before, tree, after, hamid, rfl⟩ := h
  cases tree with
  | leaf tag word =>
      have hkind := (Locus.isToken_of_element hamid.element).2.1
      rw [construct_openAt hamid hstart hstop, hkind]
      by_cases hlt : offset < leaf.span.stop
      · rw [if_neg (by omega), if_pos hlt]
      · rw [if_pos (by omega), if_neg hlt]
  | node tag trees =>
      have hnode := (Locus.isNode_of_element hamid.element).1
      rw [Locus.isNode_eq_not, htoken] at hnode
      cases hnode

/-- The region of an offset in a leaf as the lexer has it. -/
def leafRegion (text : String) (offset : Nat) (leaf : Locus) : Option Region :=
  if leaf.kind.isEdge = true ∧ offset < leaf.span.stop then some .delimiter
  else ((openAt text offset).map Lexer.Mode.construct).head?.map Construct.region

/-- The region of an offset as the strings around a place have it. -/
def regionAround (offset : Nat) (place : Locus) : Option Region :=
  (place.properAncestors.find? (Locus.isStringAround offset)).map
    fun string => Locus.regionInString string offset

section

variable (h : IsClean text) (hleaf : leaf ∈ (locus text).leaves) (hstart : leaf.span.start < offset)
  (hstop : offset ≤ leaf.span.stop)
  (htype : ∀ ancestor ∈ leaf.properAncestors, ancestor.kind ≠ .resourceType)

include h hleaf hstart hstop htype

/-- In a leaf that is no part of a string the region is that of the hole around it. -/
theorem regionAround_of_isApart (hapart : leaf.kind.isApart = true) :
    regionAround offset leaf = leafRegion text offset leaf := by
  obtain ⟨hunder, htoken⟩ := Locus.mem_leaves_iff.1 hleaf
  have hquote : leaf.kind ≠ .stringEnd := by
    intro heq
    rw [heq] at hapart
    cases hapart
  obtain ⟨outer, hinside, hregion⟩ := h.exists_settled hunder hstart hstop (fun _ => hapart)
    fun string hmem hkind =>
      isStringAround_of_mem hleaf hstart hstop htype hmem hkind (.inr (.inl hquote))
  have hcode : inString outer = false := by
    by_contra hstring
    rw [Bool.not_eq_false] at hstring
    rw [hinside.eq_stringText htoken hstring] at hapart
    cases hapart
  have hopen : leaf.kind.leavesOpen outer = outer := by
    generalize leaf.kind = kind at hapart
    cases kind <;> first | rfl | cases hapart
  have hedge : leaf.kind.isEdge = false := by
    generalize leaf.kind = kind at hapart
    cases kind <;> first | rfl | cases hapart
  rw [leafRegion, construct_openAt_of_at hinside.at htoken hstart hstop, hopen, ite_self, hedge,
    if_neg (by simp)]
  exact hregion hcode

variable (hparent : Locus.Under (locus text) parent) (hchild : leaf ∈ parent.children)

include hparent hchild

theorem exists_settled_parent : ∃ outer, Settled text offset outer parent := by
  have hlocated := hparent.located (located_locus text)
  have hcontains := Span.contains_iff.1 (hlocated.of_mem_children hchild).2.1
  have hnode := Locus.isNode_of_mem_children hchild
  refine h.exists_settled hparent (by omega) (by omega) (fun htoken => ?_) fun string hmem hkind => ?_
  · rw [Locus.isNode_eq_not, htoken] at hnode
    cases hnode
  · refine isStringAround_of_mem hleaf hstart hstop htype ?_ hkind (.inr (.inr fun hin => ?_))
    · rw [Locus.properAncestors_of_mem_children hchild, Locus.ancestors_eq_cons]
      exact List.mem_cons_of_mem _ hmem
    · have hsame : string = parent := by
        have hother := Locus.parent_of_mem_children hin
        rw [Locus.parent_of_mem_children hchild] at hother
        exact (Option.some.inj hother).symm
      have hself := ((hparent.mem_properAncestors_iff (isRoot_locus text)).1 (hsame ▸ hmem)).2
      exact hself.ne rfl

omit h in
/-- In a token of a string, but behind its closing quote, the region is that of the string. -/
theorem regionAround_of_inside (hkind : parent.kind = .string)
    (hinside : offset < leaf.span.stop ∨ leaf.kind ≠ .stringEnd)
    (hkinds : leaf.kind ≠ .interpStart ∧ leaf.kind ≠ .interpEnd) :
    regionAround offset leaf =
      some (if leaf.kind.isEdge = true ∧ offset < leaf.span.stop then .delimiter
        else .literalText) := by
  have haround : Locus.isStringAround offset parent = true := by
    refine isStringAround_of_mem hleaf hstart hstop htype ?_ hkind (hinside.imp id .inl)
    rw [Locus.properAncestors_of_mem_children hchild]
    exact Locus.mem_ancestors parent
  rw [regionAround, Locus.properAncestors_of_mem_children hchild, Locus.ancestors_eq_cons,
    List.find?_cons_of_pos haround, Option.map_some,
    regionInString_of_token hparent hchild (Locus.mem_leaves_iff.1 hleaf).2 hkinds hstart hstop]

omit h hstart htype in
/-- Behind its closing quote, the region is that of what stands around the string. -/
theorem regionAround_of_closed (hquote : leaf.kind = .stringEnd) (hright : leaf.here.right = [])
    (hend : leaf.span.stop ≤ offset) :
    regionAround offset leaf =
      (parent.properAncestors.find? (Locus.isStringAround offset)).map
        (fun string => Locus.regionInString string offset) := by
  have hlast : parent.isTerminated = true := by
    rw [Locus.isTerminated, Locus.lastToken_of_right_eq_nil hchild hright,
      Locus.lastToken_of_isToken (Locus.mem_leaves_iff.1 hleaf).2]
    exact decide_eq_true hquote
  have hsame := ((hparent.located (located_locus text)).of_mem_children hchild).2.2.2.2 hright
  have hpast : ¬offset < parent.span.stop := by omega
  have hnot : ¬Locus.isStringAround offset parent = true := by
    rw [Locus.isStringAround, hlast, decide_eq_false hpast]
    simp
  rw [regionAround, Locus.properAncestors_of_mem_children hchild, Locus.ancestors_eq_cons,
    List.find?_cons_of_neg hnot]

/-- In a token of a string the region is that of the string, but for the end of its closing quote,
where it is that of what stands around the string. -/
theorem regionAround_of_string (hkind : parent.kind = .string) :
    regionAround offset leaf = leafRegion text offset leaf := by
  have htoken := (Locus.mem_leaves_iff.1 hleaf).2
  have hnode := Locus.isNode_of_mem_children hchild
  obtain ⟨outer, hinside, hregion⟩ :=
    exists_settled_parent h hleaf hstart hstop htype hparent hchild
  have hcode : inString outer = false := by
    rw [← Bool.not_eq_true, hinside.inString_iff hnode, hkind]
    decide
  have hin := regionAround_of_inside hleaf hstart hstop htype hparent hchild hkind
  rw [leafRegion]
  rcases hinside.cases_of_mem_children (h.recovers hparent) (h.kind_ne hparent hnode) hchild
    (start_lt_stop hleaf) with ⟨construct, hconstruct, hcases⟩ | ⟨hnone, -⟩
  · obtain rfl : .string = construct := by
      rw [hkind] at hconstruct
      exact Option.some.inj hconstruct
    rcases hcases with ⟨-, hquote, -, hat⟩ | ⟨-, hquote, hright, hat⟩ | hchildInside
    · -- the opening quote
      have hquote : leaf.kind = .stringStart := hquote
      rw [hin (.inr (by rw [hquote]; decide)) (by rw [hquote]; decide),
        construct_openAt_of_at hat htoken hstart hstop, hquote]
      by_cases hlt : offset < leaf.span.stop
      · rw [if_pos ⟨rfl, hlt⟩, if_pos ⟨rfl, hlt⟩]
      · rw [if_neg (fun hin => hlt hin.2), if_neg (fun hin => hlt hin.2), if_neg hlt]
        rfl
    · -- the closing quote
      have hquote : leaf.kind = .stringEnd := hquote
      by_cases hlt : offset < leaf.span.stop
      · rw [hin (.inl hlt) (by rw [hquote]; decide), hquote, if_pos ⟨rfl, hlt⟩, if_pos ⟨rfl, hlt⟩]
      · rw [regionAround_of_closed hleaf hstop hparent hchild hquote hright (by omega),
          hregion hcode, if_neg (fun hin => hlt hin.2),
          construct_openAt_of_at hat htoken hstart hstop, if_neg hlt, hquote]
        rfl
    · -- the text between them
      have hquote := hchildInside.eq_stringText htoken rfl
      rw [hin (.inr (by rw [hquote]; decide)) (by rw [hquote]; decide),
        construct_openAt_of_at hchildInside.at htoken hstart hstop, hquote,
        if_neg (by simp [Kind.isEdge]), if_neg (by simp [Kind.isEdge])]
      split <;> rfl
  · rw [hkind] at hnone
    cases hnone

/-- In a token around a hole the region is that of the hole or of the string that the hole is in. -/
theorem regionAround_of_hole (hkind : parent.kind = .interpolation)
    (hends : leaf.kind = .interpStart ∨ leaf.kind = .interpEnd) :
    regionAround offset leaf = leafRegion text offset leaf := by
  have htoken := (Locus.mem_leaves_iff.1 hleaf).2
  have hnode := Locus.isNode_of_mem_children hchild
  have hne := start_lt_stop hleaf
  obtain ⟨outer, hinside, -⟩ := exists_settled_parent h hleaf hstart hstop htype hparent hchild
  have hstring : inString outer = true := (hinside.inString_iff hnode).2 hkind
  obtain ⟨string, hunder, hmem, hstringKind⟩ := exists_string_of_hole hparent hkind hnode
  have hancestors : leaf.properAncestors = parent :: string.ancestors := by
    rw [Locus.properAncestors_of_mem_children hchild, Locus.ancestors_of_mem_children hmem]
  have hskip : ¬Locus.isStringAround offset parent = true := by
    simp [Locus.isStringAround, hkind]
  have haround : Locus.isStringAround offset string = true := by
    refine isStringAround_of_mem hleaf hstart hstop htype ?_ hstringKind (.inr (.inl ?_))
    · rw [hancestors]
      exact List.mem_cons_of_mem _ (Locus.mem_ancestors string)
    · rcases hends with heq | heq <;> rw [heq] <;> decide
  rw [regionAround, hancestors, List.find?_cons_of_neg hskip, Locus.ancestors_eq_cons,
    List.find?_cons_of_pos haround, Option.map_some,
    h.regionInString_of_hole hunder hmem hkind hinside hchild htoken hends hstart hstop, leafRegion]
  rcases hinside.cases_of_mem_children (h.recovers hparent) (h.kind_ne hparent hnode) hchild hne with
    ⟨construct, hconstruct, hcases⟩ | ⟨hnone, -⟩
  · obtain rfl : .hole = construct := by
      rw [hkind] at hconstruct
      exact Option.some.inj hconstruct
    rcases hcases with ⟨-, hopening, -, hat⟩ | ⟨-, hclosing, -, hat⟩ | hchildInside
    · have hopening : leaf.kind = .interpStart := hopening
      rw [construct_openAt_of_at hat htoken hstart hstop, hopening]
      by_cases hlt : offset < leaf.span.stop
      · rw [if_pos hlt, if_pos ⟨rfl, hlt⟩]
      · rw [if_neg hlt, if_pos rfl, if_neg (fun hin => hlt hin.2), if_neg hlt]
        rfl
    · have hclosing : leaf.kind = .interpEnd := hclosing
      have hsize := stop_eq_of_interpEnd hleaf hclosing
      have hlt : ¬offset < leaf.span.stop := by omega
      obtain ⟨rest, rfl⟩ : ∃ rest, outer = .string :: rest := by
        have hhead : outer.head? = some .string := of_decide_eq_true hstring
        exact List.head?_eq_some_iff.1 hhead
      rw [construct_openAt_of_at hat htoken hstart hstop, hclosing, if_neg hlt, if_neg (by decide),
        if_neg (by simp [Kind.isEdge]), if_neg hlt]
      rfl
    · have hapart := hchildInside.isApart rfl
      rcases hends with heq | heq <;> rw [heq] at hapart <;> cases hapart
  · rw [hkind] at hnone
    cases hnone

end

/-- The strings around a leaf tell the region of an offset in it as the lexer does. -/
theorem IsClean.regionAround_eq (h : IsClean text) (hleaf : leaf ∈ (locus text).leaves)
    (hstart : leaf.span.start < offset) (hstop : offset ≤ leaf.span.stop)
    (htype : ∀ ancestor ∈ leaf.properAncestors, ancestor.kind ≠ .resourceType) :
    regionAround offset leaf = leafRegion text offset leaf := by
  by_cases hapart : leaf.kind.isApart = true
  · exact regionAround_of_isApart h hleaf hstart hstop htype hapart
  · obtain ⟨parent, hparent, hchild⟩ := exists_parent hleaf
    have hnode := Locus.isNode_of_mem_children hchild
    obtain ⟨outer, hinside, -⟩ := exists_settled_parent h hleaf hstart hstop htype hparent hchild
    rcases hinside.cases_of_mem_children (h.recovers hparent) (h.kind_ne hparent hnode) hchild
      (start_lt_stop hleaf) with ⟨construct, hconstruct, hcases⟩ | ⟨hnone, hchildInside⟩
    · have hkind := Kind.construct_eq_some_iff.1 hconstruct
      cases construct with
      | string => exact regionAround_of_string h hleaf hstart hstop htype hparent hchild hkind
      | hole =>
          refine regionAround_of_hole h hleaf hstart hstop htype hparent hchild hkind ?_
          rcases hcases with ⟨-, hopening, -⟩ | ⟨-, hclosing, -⟩ | hchildInside
          · exact .inl hopening
          · exact .inr hclosing
          · exact absurd (hchildInside.isApart rfl) hapart
    · have hcode : inString outer = false := by
        rw [← Bool.not_eq_true, hinside.inString_iff hnode]
        intro hkind
        rw [hkind] at hnone
        cases hnone
      exact absurd (hchildInside.isApart hcode) hapart

/-- The tree has a comment at an offset exactly if the tokens have one. -/
theorem isCommentAt_iff : (locus text).isCommentAt offset = true ↔ InComment text offset := by
  constructor
  · intro h
    obtain ⟨leaf, hmem, htest⟩ := List.any_eq_true.1 h
    obtain ⟨hleaf, -, hstop⟩ := mem_tokensAt_iff.1 hmem
    obtain ⟨token, htoken, hbecomes, htext, hspan⟩ := exists_token hleaf
    rw [Bool.and_eq_true, decide_eq_true_eq, hspan] at htest
    rw [hspan] at hstop
    obtain ⟨hstart, hkind⟩ := htest
    refine ⟨token, by simp [tokenize_eq, htoken], ?_⟩
    split at hkind
    · rename_i hline
      have htag : token.kind = .lineComment := by
        rw [hline] at hbecomes
        exact (hbecomes.eq_of_leaf_not_isWord rfl).symm
      refine ⟨by rw [htag]; rfl, hstart, ?_⟩
      exact (Nat.lt_or_eq_of_le hstop).imp id fun heq => ⟨heq, .inl htag⟩
    · rename_i hblock
      have htag : token.kind = .blockComment := by
        rw [hblock] at hbecomes
        exact (hbecomes.eq_of_leaf_not_isWord rfl).symm
      refine ⟨by rw [htag]; rfl, hstart, ?_⟩
      refine (Nat.lt_or_eq_of_le hstop).imp id fun heq => ⟨heq, .inr ?_⟩
      rw [unterminated_iff_isCutOffComment htoken htag, ← htext]
      have hlt : ¬offset < token.span.stop := by
        rw [heq]
        exact Nat.lt_irrefl _
      simpa [hlt] using hkind
    · cases hkind
  · intro h
    have hregion := isInComment_of_inComment h
    by_contra hnot
    have hnone : (locus text).regionAt offset ≠ some .comment := by
      unfold Locus.regionAt
      rw [if_neg hnot]
      unfold Locus.regionInString
      intro heq
      obtain ⟨string, -, hstring⟩ := Option.map_eq_some_iff.1 heq
      split at hstring
      · cases hstring
      · split at hstring <;> cases hstring
    exact hnone (of_decide_eq_true hregion)

/-- An offset is inside of a token at the edge of a string or a hole exactly if the leaf there is
one. -/
theorem exists_edge_iff (hleaf : leaf ∈ (locus text).leaves) (hstart : leaf.span.start < offset)
    (hstop : offset ≤ leaf.span.stop) :
    (∃ token ∈ tokenize text, token.kind.isEdge = true ∧
      token.span.strictlyContains offset = true) ↔
        leaf.kind.isEdge = true ∧ offset < leaf.span.stop := by
  constructor
  · rintro ⟨token, hmem, hedge, hinside⟩
    rw [tokenize_eq, List.mem_append, List.mem_singleton] at hmem
    rcases hmem with hmem | rfl
    · obtain ⟨other, hother, hbecomes, -, hspan⟩ := exists_leaf hmem
      rw [← hspan] at hinside
      simp only [Span.strictlyContains, Bool.and_eq_true, decide_eq_true_eq] at hinside
      obtain rfl := eq_of_start_lt hother hleaf hinside.1 (by omega) hstart hstop
      rw [hbecomes.eq_of_not_isWord (Kind.isWord_of_isEdge hedge)]
      exact ⟨hedge, hinside.2⟩
    · cases hedge
  · rintro ⟨hedge, hlt⟩
    obtain ⟨token, hmem, hbecomes, -, hspan⟩ := exists_token hleaf
    refine ⟨token, by simp [tokenize_eq, hmem], ?_, ?_⟩
    · rwa [← hbecomes.eq_of_leaf_not_isWord (Kind.isWord_of_isEdge hedge)]
    · rw [← hspan, Span.strictlyContains, Bool.and_eq_true, decide_eq_true_eq, decide_eq_true_eq]
      exact ⟨hstart, hlt⟩

/-- At the first offset of a text nothing is open. -/
theorem openAt_zero (text : String) : openAt text 0 = [] := by
  have hnone : ∀ token ∈ cutTokens text, ¬token.stop ≤ 0 := by
    intro token hmem
    have hne := text_ne_empty_of_mem_cutTokens hmem
    have hsize : token.size ≠ 0 := by simpa [Token.size] using hne
    rw [Token.stop]
    omega
  by_cases hempty : text = ""
  · subst hempty
    decide +kernel
  · have hsize : text.utf8ByteSize ≠ 0 := by simpa using hempty
    have hcount : (tokenize text).countP (fun token => token.stop ≤ 0) = 0 := by
      rw [tokenize_eq, List.countP_append, List.countP_eq_zero.2 (by simpa using hnone)]
      simpa [Token.stop_endOfFile] using hsize
    rw [openAt, hcount]
    rfl

/-- In a tree without error nodes the region of each offset is the one that the tokens tell, where no
token that touches the offset is in the type of a resource. -/
theorem region_resolve_eq (hclean : IsClean text) (hle : offset ≤ text.utf8ByteSize)
    (htype : ∀ token ∈ (locus text).tokensAt offset, ∀ ancestor ∈ token.properAncestors,
      ancestor.kind ≠ .resourceType) :
    ((locus text).resolve offset).region = tokenRegion text offset := by
  change (locus text).regionAt offset = _
  rw [Locus.regionAt, tokenRegion]
  refine if_congr isCommentAt_iff rfl ?_
  rcases Nat.eq_zero_or_pos offset with rfl | hpos
  · have hedge : ¬∃ token ∈ tokenize text, token.kind.isEdge = true ∧
        token.span.strictlyContains 0 = true := by
      rintro ⟨token, -, -, hinside⟩
      simp [Span.strictlyContains] at hinside
    have hstring : (locus text).innermostString 0 = none := by
      rw [Locus.innermostString, Locus.search_eq, if_neg (by simp)]
      rfl
    rw [if_neg hedge, openAt_zero, hstring]
    rfl
  · obtain ⟨leaf, hleaf, hstart, hstop⟩ := exists_leaf_across hpos hle
    have htouched := htype leaf (mem_tokensAt_iff.2 ⟨hleaf, Nat.le_of_lt hstart, hstop⟩)
    have hregion := hclean.regionAround_eq hleaf hstart hstop htouched
    rw [regionAround, ← innermostString_eq_find? hleaf hstart hstop, leafRegion] at hregion
    rw [hregion]
    refine if_congr (exists_edge_iff hleaf hstart hstop).symm rfl ?_
    rw [List.head?_map, Option.map_map]
    refine congrArg (Option.map · _) (funext fun mode => ?_)
    cases mode <;> rfl

/-- A hole that is not closed reaches to the end of the text, and the end belongs to it. -/
theorem region_unclosed_hole :
    IsClean "var x = \x27a$\x7b1" ∧ 13 ≤ "var x = \x27a$\x7b1".utf8ByteSize ∧
      (∀ token ∈ (locus "var x = \x27a$\x7b1").tokensAt 13, ∀ ancestor ∈ token.properAncestors,
        ancestor.kind ≠ .resourceType) ∧
      ((locus "var x = \x27a$\x7b1").resolve 13).region = some .hole := by
  have hclean : IsClean "var x = \x27a$\x7b1" := by
    unfold IsClean
    decide +kernel
  have hle : 13 ≤ "var x = \x27a$\x7b1".utf8ByteSize := by decide +kernel
  have htype : ∀ token ∈ (locus "var x = \x27a$\x7b1").tokensAt 13,
      ∀ ancestor ∈ token.properAncestors, ancestor.kind ≠ .resourceType := by
    decide +kernel
  have hregion : tokenRegion "var x = \x27a$\x7b1" 13 = some .hole := by decide +kernel
  exact ⟨hclean, hle, htype, (region_resolve_eq hclean hle htype).trans hregion⟩

end Document

end Caret
