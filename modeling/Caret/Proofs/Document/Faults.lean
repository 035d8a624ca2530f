import Caret.Proofs.Document.Placeholders
import Caret.Proofs.Document.Shown
import Caret.Proofs.Rule.Faults
import Caret.Proofs.Tree.Nodes

/-!
# The faults of a document

A text has no errors exactly if its tree has no marks of faults. A placeholder takes no bytes and
stands right in front of the token that was found instead, a skipped part has tokens, and each token
that nothing is made of is in such a part. The errors come in the order of the tokens that they are
recorded at.
-/

namespace Caret

namespace Tree

/-- The nodes that faults leave behind: placeholders, skipped tokens, and strings without their
ends. -/
def IsMark (kind : Kind) (children : List Tree) : Prop :=
  kind = .missing ∨ kind = .error ∨ kind = .string ∧ hasEnd children = false

def Marked (trees : List Tree) : Prop := ∃ part ∈ nodesAll trees, IsMark part.1 part.2

/-- A node with operands that fit, and with tokens that nothing is made of only if it is a skipped
part, which has no other children. -/
structure Regular (kind : Kind) (children : List Tree) : Prop where
  binds : Binds kind children
  kept : kind ≠ .error → ∀ child ∈ children, child.kind ≠ .errorToken
  skipped : kind = .error → ∃ tokens, children = List.map ofToken tokens

/-- A tree that is no token that nothing is made of, with such nodes alone. -/
def Proper (tree : Tree) : Prop := tree.kind ≠ .errorToken ∧ tree.Made Regular

variable {left right trees children : List Tree} {kind : Kind}

theorem marked_append : Marked (left ++ right) ↔ Marked left ∨ Marked right := by
  simp only [Marked, nodesAll_append, List.mem_append, or_and_right, exists_or]

theorem marked_node : Marked [node kind children] ↔ IsMark kind children ∨ Marked children := by
  simp [Marked, nodesAll_node]

theorem not_marked_tokens (tokens : List Token) : ¬Marked (tokens.map ofToken) := by
  simp [Marked, nodesAll_map_ofToken]

theorem Stands.not_isMark (h : Stands kind children) : ¬IsMark kind children := by
  rintro (hmissing | herror | ⟨hstring, hopen⟩)
  · exact h.isPlain.1 hmissing
  · exact h.isPlain.2 herror
  · rw [h.closed hstring] at hopen
    cases hopen

theorem marked_of_mem_error (h : node .error children ∈ trees) : Marked trees := by
  obtain ⟨before, after, rfl⟩ := List.append_of_mem h
  rw [← List.singleton_append, marked_append, marked_append, marked_node]
  exact .inr (.inl (.inl (.inr (.inl rfl))))

theorem proper_missing : (node .missing []).Proper := ⟨by decide, .missing⟩

theorem proper_skipped (tokens : List Token) : (node .error (tokens.map ofToken)).Proper :=
  ⟨(by decide : Kind.error ≠ .errorToken),
    .node ⟨trivial, fun hne => absurd rfl hne, fun _ => ⟨tokens, rfl⟩⟩
      fun _ hmem => made_of_mem_tokens Regular hmem⟩

theorem proper_node (hkind : kind ≠ .errorToken) (hregular : Regular kind children)
    (h : ∀ child ∈ children, child.Proper) : (node kind children).Proper :=
  ⟨hkind, .node hregular fun child hmem => (h child hmem).2⟩

theorem proper_of_mem_lead {lead : List Token} (h : ∀ token ∈ lead, token.isTrivia = true) :
    ∀ tree ∈ lead.map ofToken, tree.Proper := by
  intro tree hmem
  refine ⟨fun herror => ?_, made_of_mem_tokens Regular hmem⟩
  obtain ⟨token, htoken, rfl⟩ := List.mem_map.1 hmem
  have htrivia : token.kind.isTrivia = true := h token htoken
  rw [show token.kind = .errorToken from herror] at htrivia
  cases htrivia

end Tree

namespace Rule

open Tree (Marked)

variable {left trees : List Tree} {errors : List SyntaxError} {input rest : List Lexeme} {eof : Token}

/-- Errors are recorded exactly where marks are left. -/
theorem Accounts.marked_iff (h : Accounts left input trees errors rest) :
    Marked trees ↔ Marked left ∨ errors ≠ [] := by
  induction h with
  | done trees input => simp
  | settle trees lead token rest => simp [Tree.marked_append, Tree.not_marked_tokens]
  | take trees lead rest heof hbecomes hkind =>
      have hleaf : ∀ kind text, ¬Marked [Tree.leaf kind text] := by
        simp [Marked, Tree.nodesAll, Tree.nodes]
      simp [Tree.marked_append, Tree.not_marked_tokens, hleaf]
  | absent trees cause input => simp [Tree.marked_append, Tree.marked_node, Tree.IsMark]
  | skip trees cause tokens hreads => simp [Tree.marked_append, Tree.marked_node, Tree.IsMark]
  | fill hskipped input => simp [Tree.marked_append, Tree.marked_of_mem_error hskipped]
  | cutOff trees hinner hopen ih => simp [Tree.marked_append, Tree.marked_node, Tree.IsMark, hopen]
  | wrap trees hinner hstands ih =>
      rw [Tree.marked_append, Tree.marked_append, Tree.marked_node, ih, or_assoc]
      simp [hstands.not_isMark]
  | trans _ _ ihfirst ihsecond =>
      rw [ihsecond, ihfirst, or_assoc, Ne, Ne, Ne, List.append_eq_nil_iff, not_and_or]

theorem Accounts.proper (h : Accounts left input trees errors rest) (hinput : Led input)
    (hleft : ∀ tree ∈ left, tree.Proper) : ∀ tree ∈ trees, tree.Proper := by
  induction h with
  | done trees input => exact hleft
  | settle trees lead token rest =>
      exact List.forall_mem_append.2
        ⟨hleft, Tree.proper_of_mem_lead (hinput _ List.mem_cons_self).1⟩
  | take trees lead rest heof hbecomes hkind =>
      refine List.forall_mem_append.2 ⟨hleft, List.forall_mem_append.2
        ⟨Tree.proper_of_mem_lead (hinput _ List.mem_cons_self).1, ?_⟩⟩
      exact List.forall_mem_singleton.2 ⟨hkind, .leaf _ _⟩
  | absent trees cause input =>
      exact List.forall_mem_append.2 ⟨hleft, List.forall_mem_singleton.2 Tree.proper_missing⟩
  | skip trees cause tokens hreads =>
      exact List.forall_mem_append.2
        ⟨hleft, List.forall_mem_singleton.2 (Tree.proper_skipped tokens)⟩
  | fill hskipped input =>
      exact List.forall_mem_append.2 ⟨hleft, List.forall_mem_singleton.2 Tree.proper_missing⟩
  | cutOff trees hinner hopen ih =>
      have hchildren := ih hinput nofun
      exact List.forall_mem_append.2 ⟨hleft, List.forall_mem_singleton.2 (Tree.proper_node (by decide)
        ⟨trivial, fun _ child hmem => (hchildren child hmem).1, nofun⟩ hchildren)⟩
  | wrap trees hinner hstands ih =>
      obtain ⟨htrees, hbefore⟩ := List.forall_mem_append.1 hleft
      have hchildren := ih hinput hbefore
      refine List.forall_mem_append.2 ⟨htrees, List.forall_mem_singleton.2 (Tree.proper_node ?_
        ⟨hstands.binds, fun _ child hmem => (hchildren child hmem).1,
          fun herror => absurd herror hstands.isPlain.2⟩ hchildren)⟩
      rintro rfl
      cases hstands.isNode
  | trans hfirst _ ihfirst ihsecond => exact ihsecond (hfirst.led hinput) (ihfirst hinput hleft)

/-! Where errors are recorded -/

/-- Tokens that start one after the other, the end of the file being the last one. -/
structure Ordered (eof : Token) (input : List Lexeme) : Prop where
  isEof : eof.kind = .eof
  ends : Ends eof input
  sorted : (input.map Lexeme.token).Pairwise fun first second => first.start ≤ second.start

theorem Ordered.mem_current (h : Ordered eof input) : current input ∈ input.map Lexeme.token := by
  cases input with
  | nil => exact absurd rfl h.ends.ne_nil
  | cons lexeme rest => exact List.mem_cons_self

theorem Ordered.current_le (h : Ordered eof input) {token : Token}
    (hmem : token ∈ input.map Lexeme.token) : (current input).start ≤ token.start := by
  cases input with
  | nil => cases hmem
  | cons lexeme rest =>
      rcases List.mem_cons.1 hmem with rfl | hmem
      · exact Nat.le_refl _
      · exact (List.pairwise_cons.1 h.sorted).1 token hmem

theorem Reads.ordered {leaves : List (Kind × String)} (h : Reads input leaves rest)
    (hinput : Ordered eof input) : Ordered eof rest :=
  ⟨hinput.isEof, h.ends hinput.ends hinput.isEof, hinput.sorted.sublist h.tokens_suffix.sublist⟩

theorem Reads.current_le {leaves : List (Kind × String)} (h : Reads input leaves rest)
    (hinput : Ordered eof input) : (current input).start ≤ (current rest).start :=
  hinput.current_le (h.tokens_suffix.subset (h.ordered hinput).mem_current)

/-- Errors in the order of the tokens that they are recorded at, up to the token that is left. -/
structure Noted (input : List Lexeme) (errors : List SyntaxError) (rest : List Lexeme) : Prop where
  place : ∀ error ∈ errors, ∃ token ∈ input.map Lexeme.token, error.span = token.span
  sorted : errors.Pairwise fun first second => first.span.start ≤ second.span.start
  before : ∀ error ∈ errors, error.span.start ≤ (current rest).start

theorem noted_nil (input rest : List Lexeme) : Noted input [] rest :=
  ⟨by simp, .nil, by simp⟩

theorem noted_current (hinput : Ordered eof input) (cause : SyntaxError.Cause)
    (hle : (current input).start ≤ (current rest).start) :
    Noted input [⟨cause, (current input).span⟩] rest :=
  ⟨List.forall_mem_singleton.2 ⟨_, hinput.mem_current, rfl⟩, List.pairwise_singleton _ _,
    List.forall_mem_singleton.2 hle⟩

/-- Errors that are recorded later are recorded at the token that is left or behind it. -/
theorem Noted.append {middle : List Lexeme} {more : List SyntaxError}
    {leaves others : List (Kind × String)} (hinput : Ordered eof input)
    (hreads : Reads input leaves middle) (hreads' : Reads middle others rest)
    (h : Noted input errors middle) (hmore : Noted middle more rest) :
    Noted input (errors ++ more) rest := by
  have hmiddle := hreads.ordered hinput
  refine ⟨fun error hmem => ?_, List.pairwise_append.2 ⟨h.sorted, hmore.sorted, ?_⟩,
    fun error hmem => ?_⟩
  · rcases List.mem_append.1 hmem with hmem | hmem
    · exact h.place error hmem
    · obtain ⟨token, htoken, hspan⟩ := hmore.place error hmem
      exact ⟨token, hreads.tokens_suffix.subset htoken, hspan⟩
  · intro first hfirst second hsecond
    obtain ⟨token, htoken, hspan⟩ := hmore.place second hsecond
    rw [hspan]
    exact Nat.le_trans (h.before first hfirst) (hmiddle.current_le htoken)
  · rcases List.mem_append.1 hmem with hmem | hmem
    · exact Nat.le_trans (h.before error hmem) (hreads'.current_le hmiddle)
    · exact hmore.before error hmem

theorem Accounts.noted (h : Accounts left input trees errors rest) (hinput : Ordered eof input) :
    Noted input errors rest := by
  induction h with
  | done trees input => exact noted_nil _ _
  | settle trees lead token rest => exact noted_nil _ _
  | take trees lead rest heof hbecomes hkind => exact noted_nil _ _
  | absent trees cause input => exact noted_current hinput cause (Nat.le_refl _)
  | skip trees cause tokens hreads => exact noted_current hinput cause (hreads.current_le hinput)
  | fill hskipped input => exact noted_nil _ _
  | cutOff trees hinner hopen ih =>
      obtain ⟨leaves, hreads⟩ := hinner.reads
      exact (ih hinput).append hinput hreads (.done _)
        (noted_current (hreads.ordered hinput) _ (Nat.le_refl _))
  | wrap trees hinner hstands ih => exact ih hinput
  | trans hfirst hsecond ihfirst ihsecond =>
      obtain ⟨leaves, hreads⟩ := hfirst.reads
      obtain ⟨others, hreads'⟩ := hsecond.reads
      exact (ihfirst hinput).append hinput hreads hreads' (ihsecond (hreads.ordered hinput))

end Rule

namespace Locus

variable {locus : Locus} {tree : Tree} {kind : Kind} {trees : List Tree}

theorem Holds.kind_eq (h : locus.Holds tree) : locus.kind = tree.kind := by
  obtain ⟨start, helement⟩ := h
  rw [Locus.kind, helement, Tree.kind_locate]

theorem Holds.isNode_eq (h : locus.Holds tree) : locus.isNode = tree.isNode := by
  obtain ⟨start, helement⟩ := h
  rw [Locus.isNode, helement]
  cases tree <;> rfl

/-- A node has the end of a string as one of its tokens if its trees have. -/
theorem Holds.hasEnd_iff (h : locus.Holds (.node kind trees)) :
    Tree.hasEnd trees = true ↔ ∃ token ∈ locus.tokens, token.kind = .stringEnd := by
  have hend : ∀ {child tree}, Holds child tree →
      (tree.isStringEnd = true ↔ child.isToken = true ∧ child.kind = .stringEnd) := by
    intro child tree hholds
    have hnode := hholds.isNode_eq
    rw [isNode_eq_not] at hnode
    rw [hholds.kind_eq]
    cases tree <;> simp_all [Tree.isStringEnd]
  simp only [Tree.hasEnd, List.any_eq_true, tokens, List.mem_filter, and_assoc]
  constructor
  · rintro ⟨tree, hmem, hstring⟩
    obtain ⟨child, hchild, hholds⟩ := exists_mem_of_forall₂ h.forall₂_children.flip hmem
    exact ⟨child, hchild, (hend hholds).1 hstring⟩
  · rintro ⟨child, hchild, hstring⟩
    obtain ⟨tree, hmem, hholds⟩ := exists_mem_of_forall₂ h.forall₂_children hchild
    exact ⟨tree, hmem, (hend hholds).2 hstring⟩

theorem Holds.not_isMark_iff (h : locus.Holds (.node kind trees)) :
    ¬Tree.IsMark kind trees ↔ locus.kind ≠ .missing ∧ locus.kind ≠ .error ∧
      (locus.kind = .string → ∃ token ∈ locus.tokens, token.kind = .stringEnd) := by
  rw [Tree.IsMark, not_or, not_or, not_and, Bool.not_eq_false, h.hasEnd_iff, h.kind_eq,
    Tree.kind_node]

end Locus

namespace Document

variable {text : String} {node leaf : Locus}

/-- What is recorded of a text accounts for its tree. -/
theorem accounts_parse (text : String) :
    Rule.Led (input text) ∧ ∃ rest,
      Rule.Accounts [] (input text) [(parse text).tree] (parse text).errors rest :=
  have hled := (sound_input text).led
  ⟨hled, _, Rule.accounts_document (input text) hled⟩

theorem ordered_input (text : String) :
    Rule.Ordered (Token.endOfFile text.utf8ByteSize) (input text) := by
  refine ⟨rfl, (ends_group_tokenize text).1, ?_⟩
  rw [map_token_input]
  refine ((contiguous_tokenize text).pairwise.1.imp fun {first second} hle => ?_).filter _
  exact Nat.le_trans (Nat.le_add_right _ _) hle

theorem forall₂_holds_descendants (text : String) :
    List.Forall₂ (fun node part => node.Holds (.node part.1 part.2)) (locus text).descendants
      (Tree.nodesAll [(parse text).tree]) := by
  rw [Tree.nodesAll, Tree.nodesAll, List.append_nil]
  exact Tree.forall₂_holds_descendants _ 0

theorem built_regular (h : Locus.Under (locus text) node) : node.Built Tree.Regular := by
  obtain ⟨hled, rest, haccounts⟩ := accounts_parse text
  have hproper := haccounts.proper hled nofun (parse text).tree List.mem_cons_self
  have hroot : (locus text).Built Tree.Regular := ⟨_, 0, rfl, hproper.2⟩
  exact hroot.of_under h

/-- The children of a node that is no placeholder. -/
theorem exists_regular (h : Locus.Under (locus text) node) (hnode : node.isNode = true)
    (hkind : node.kind ≠ .missing) :
    ∃ trees, node.Holds (.node node.kind trees) ∧ Tree.Regular node.kind trees ∧
      ∀ tree ∈ trees, tree.Made Tree.Regular := by
  rcases (built_regular h).missing_or_fits hnode with ⟨hmissing, -⟩ |
    ⟨trees, start, helement, hregular, hmade⟩
  · exact absurd hmissing hkind
  · exact ⟨trees, ⟨start, helement⟩, hregular, hmade⟩

/-- A text has no errors exactly if no node is a mark of one. -/
theorem errors_eq_nil_iff (text : String) :
    (parse text).errors = [] ↔ ∀ node ∈ (locus text).descendants,
      node.kind ≠ .missing ∧ node.kind ≠ .error ∧
        (node.kind = .string → ∃ token ∈ node.tokens, token.kind = .stringEnd) := by
  obtain ⟨-, rest, haccounts⟩ := accounts_parse text
  have hmarked := haccounts.marked_iff
  have hnone : ¬Tree.Marked [] := by simp [Tree.Marked, Tree.nodesAll]
  rw [or_iff_right hnone, ← not_iff_not, not_not] at hmarked
  rw [← hmarked]
  constructor
  · intro h node hnode
    obtain ⟨part, hpart, hholds⟩ := exists_mem_of_forall₂ (forall₂_holds_descendants text) hnode
    exact (Locus.Holds.not_isMark_iff hholds).1 fun hmark => h ⟨part, hpart, hmark⟩
  · rintro h ⟨part, hpart, hmarked⟩
    obtain ⟨node, hnode, hholds⟩ := exists_mem_of_forall₂ (forall₂_holds_descendants text).flip hpart
    exact (Locus.Holds.not_isMark_iff hholds).2 (h node hnode) hmarked

/-- A placeholder stands right in front of a token that is no trivia or of the end of the file. -/
theorem exists_token_of_missing (h : Locus.Under (locus text) node) (hkind : node.kind = .missing) :
    ∃ token ∈ tokenize text, token.isTrivia = false ∧ node.span.start = token.start := by
  have hwhole := Span.contains_iff.1 (h.contains (located_locus text))
  have hempty := stop_of_missing h hkind
  rw [span_locus] at hwhole
  rw [tokenize_eq]
  rcases Nat.eq_or_lt_of_le (hempty ▸ hwhole.2) with hend | hlt
  · exact ⟨_, List.mem_append_right _ List.mem_cons_self, rfl, hend⟩
  · have hinside : (locus text).span.start ≤ node.span.start ∧
        node.span.start < (locus text).span.stop := by
      rw [span_locus]
      exact ⟨Nat.zero_le _, hlt⟩
    obtain ⟨leaf, hunder, hleaf, hstart, hstop⟩ :=
      (located_locus text).exists_token_across hinside.1 hinside.2
    have hmem := Locus.mem_leaves_iff.2 ⟨hunder, hleaf⟩
    -- Tokens and placeholders do not overlap, so the leaf does not start before the placeholder.
    have happart := Locus.eq_or_apart_of_pairwise (pairwise_beads text)
      (Locus.mem_beads_iff.2 ⟨hunder, by simp [Locus.isBead, hleaf]⟩)
      (Locus.mem_beads_iff.2 ⟨h, by simp [Locus.isBead, hkind]⟩)
    have hsame : leaf.span.start = node.span.start := by
      rcases happart with rfl | hbefore | hbehind
      · rfl
      · omega
      · omega
    obtain ⟨token, htoken, hbecomes, -, hspan⟩ := exists_token hmem
    refine ⟨token, List.mem_append_left _ htoken, ?_, ?_⟩
    · have htrivia := not_isTrivia_of_missing h hkind hmem hsame
      rwa [hbecomes.isTrivia_eq] at htrivia
    · rw [← hsame, hspan]
      rfl

/-- A skipped part has a token. -/
theorem start_lt_stop_of_error (h : Locus.Under (locus text) node) (hnode : node.isNode = true)
    (hkind : node.kind = .error) : node.span.start < node.span.stop := by
  obtain ⟨fitting, start, helement, hfits⟩ := exists_fits h hnode (by rw [hkind]; decide)
  -- A node has a last child, and in a skipped part that is a token.
  obtain ⟨before, last, rfl, -⟩ := hfits.ends
  obtain ⟨child, hchild, -⟩ := Locus.exists_child_of_split before helement
  obtain ⟨trees, hholds, hregular, -⟩ := exists_regular h hnode (by rw [hkind]; decide)
  obtain ⟨tokens, rfl⟩ := hregular.skipped hkind
  obtain ⟨tree, htree, start', hinner⟩ := exists_mem_of_forall₂ hholds.forall₂_children hchild
  obtain ⟨token, -, rfl⟩ := List.mem_map.1 htree
  have htoken := (Locus.isToken_of_element hinner).1
  have hsize := start_lt_stop (Locus.mem_leaves_iff.2 ⟨h.child hchild, htoken⟩)
  have hcontains := Span.contains_iff.1
    ((h.located (located_locus text)).of_mem_children hchild).2.1
  omega

/-- A token that nothing is made of is a child of a skipped part. -/
theorem kind_parent_of_errorToken (hleaf : leaf ∈ (locus text).leaves)
    (hkind : leaf.kind = .errorToken) :
    ∃ parent, leaf.parent = some parent ∧ parent.isNode = true ∧ parent.kind = .error := by
  obtain ⟨parent, hunder, hchild⟩ := exists_parent hleaf
  have hnode := Locus.isNode_of_mem_children hchild
  have hmissing : parent.kind ≠ .missing := by
    intro hmissing
    rw [children_of_missing hunder hnode hmissing] at hchild
    cases hchild
  obtain ⟨trees, hholds, hregular, -⟩ := exists_regular hunder hnode hmissing
  obtain ⟨tree, htree, start, hinner⟩ := exists_mem_of_forall₂ hholds.forall₂_children hchild
  refine ⟨parent, Locus.parent_of_mem_children hchild, hnode, ?_⟩
  by_contra hne
  refine hregular.kept hne tree htree ?_
  rw [← hkind, Locus.kind, hinner, Tree.kind_locate]

/-- Errors are recorded exactly where a tree has marks of them, and in the order of the text: a
placeholder is empty and stands at the start of the next token that is no trivia, or at the end; a
skipped part is not empty, and holds each token that nothing is made of; and each error has the bytes
of a token that is no trivia, or of the end of the file. -/
theorem faults_parse (text : String) :
    ((parse text).errors = [] ↔ ∀ node ∈ (locus text).descendants,
      node.kind ≠ .missing ∧ node.kind ≠ .error ∧
        (node.kind = .string → ∃ token ∈ node.tokens, token.kind = .stringEnd)) ∧
    (∀ node ∈ (locus text).descendants, node.kind = .missing → node.span.isEmpty = true ∧
      ∃ token ∈ tokenize text, token.isTrivia = false ∧ node.span.start = token.start) ∧
    (∀ node ∈ (locus text).descendants, node.kind = .error → node.span.start < node.span.stop) ∧
    (∀ leaf ∈ (locus text).leaves, leaf.kind = .errorToken →
      ∃ parent, leaf.parent = some parent ∧ parent.isNode = true ∧ parent.kind = .error) ∧
    (parse text).errors.Pairwise (fun first second => first.span.start ≤ second.span.start) ∧
    ∀ error ∈ (parse text).errors, ∃ token ∈ tokenize text, token.isTrivia = false ∧
      error.span = token.span := by
  obtain ⟨-, rest, haccounts⟩ := accounts_parse text
  have hnoted := haccounts.noted (ordered_input text)
  refine ⟨errors_eq_nil_iff text, fun node hmem hkind => ?_, fun node hmem hkind => ?_,
    fun leaf => kind_parent_of_errorToken, hnoted.sorted, fun error hmem => ?_⟩
  · obtain ⟨hunder, -⟩ := Locus.mem_descendants_iff.1 hmem
    exact ⟨decide_eq_true (stop_of_missing hunder hkind).symm, exists_token_of_missing hunder hkind⟩
  · obtain ⟨hunder, hnode⟩ := Locus.mem_descendants_iff.1 hmem
    exact start_lt_stop_of_error hunder hnode hkind
  · obtain ⟨token, htoken, hspan⟩ := hnoted.place error hmem
    rw [map_token_input, significant, List.mem_filter, Bool.not_eq_true'] at htoken
    exact ⟨token, htoken.1, htoken.2, hspan⟩

end Document

end Caret
