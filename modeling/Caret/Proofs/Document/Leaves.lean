import Caret.Analysis
import Caret.Proofs.Document.Lossless
import Caret.Proofs.Text.Bytes
import Caret.Proofs.Tree.Leaf

/-!
# The leaves of a document

Each token of a text is a leaf of its tree at the same bytes. No two leaves overlap, so the leaf in
front of an offset is unique, and going back over leaves that are to be skipped passes over all of
them.
-/

namespace Caret

/-- The root of the tree of a text. -/
def Document.locus (text : String) : Locus := Locus.root ((Document.parse text).tree.locate 0)

/-- A leaf that is the token, up to its tag. -/
def Token.Sits (token : Token) (locus : Locus) : Prop :=
  token.kind.Becomes locus.kind ∧ locus.text = token.text ∧ locus.span = token.span

theorem Leaf.forall₂_place {start : Nat} {tokens more : List Token} {leaves : List Leaf}
    (hcontiguous : Token.Contiguous start (tokens ++ more))
    (hstands : List.Forall₂ Token.Stands tokens (leaves.map fun leaf => (leaf.kind, leaf.text))) :
    List.Forall₂ (fun token (part : Option Kind × Kind × String × Span) =>
      token.kind.Becomes part.2.1 ∧ part.2.2.1 = token.text ∧ part.2.2.2 = token.span)
      tokens (place start leaves) := by
  induction leaves generalizing start tokens with
  | nil =>
      cases hstands
      exact .nil
  | cons leaf leaves ih =>
      cases hstands with
      | cons hfirst hrest =>
          obtain ⟨hstart, hnext⟩ := hcontiguous
          obtain ⟨hbecomes, htext⟩ := hfirst
          dsimp only at hbecomes htext
          refine .cons ⟨hbecomes, htext, ?_⟩ ?_
          · simp [Token.span, Token.stop, Token.size, htext, hstart]
          · refine ih ?_ hrest
            rw [htext, ← hstart]
            exact hnext

namespace Document

theorem exists_tree_parse (text : String) :
    ∃ children, (parse text).tree = .node .root children := ⟨_, rfl⟩

/-- The tokens of a text are the leaves of its tree, at the same bytes. -/
theorem forall₂_sits_leaves (text : String) :
    List.Forall₂ Token.Sits (cutTokens text) (locus text).leaves := by
  obtain ⟨children, htree⟩ := exists_tree_parse text
  have hplaced : (locus text).leaves.map Locus.placed =
      Leaf.place 0 (Tree.homedAll .root children) := by
    rw [locus, htree]
    exact Tree.map_placed_leaves .root children 0
  have hstands := forall₂_stands_leaves_parse text
  rw [htree, Tree.leaves, ← Tree.map_homedAll .root] at hstands
  have hplace := Leaf.forall₂_place (contiguous_tokenize text) hstands
  rw [← hplaced, List.forall₂_map_right_iff] at hplace
  exact hplace

theorem exists_leaf {text : String} {token : Token} (h : token ∈ cutTokens text) :
    ∃ leaf ∈ (locus text).leaves, token.Sits leaf := by
  obtain ⟨i, hi, rfl⟩ := List.mem_iff_getElem.1 h
  have hsits := forall₂_sits_leaves text
  exact ⟨_, List.getElem_mem (hsits.length_eq ▸ hi), hsits.get hi (hsits.length_eq ▸ hi)⟩

theorem exists_token {text : String} {leaf : Locus} (h : leaf ∈ (locus text).leaves) :
    ∃ token ∈ cutTokens text, token.Sits leaf := by
  obtain ⟨i, hi, rfl⟩ := List.mem_iff_getElem.1 h
  have hsits := forall₂_sits_leaves text
  exact ⟨_, List.getElem_mem (hsits.length_eq ▸ hi), hsits.get (hsits.length_eq ▸ hi) hi⟩

end Document

/-- Tokens that stand side by side and are not empty do not overlap. -/
theorem Token.Contiguous.pairwise {start : Nat} {tokens : List Token}
    (h : Contiguous start tokens) :
    tokens.Pairwise (fun left right => left.stop ≤ right.start) ∧
      ∀ token ∈ tokens, start ≤ token.start := by
  induction tokens generalizing start with
  | nil => exact ⟨.nil, by simp⟩
  | cons token tokens ih =>
      obtain ⟨hstart, hnext⟩ := h
      obtain ⟨hpairwise, hle⟩ := ih hnext
      refine ⟨.cons hle hpairwise, ?_⟩
      have hstop : token.start ≤ token.stop := Nat.le_add_right _ _
      intro other hmem
      rcases List.mem_cons.1 hmem with rfl | hmem
      · omega
      · have := hle other hmem
        omega

namespace Document

variable {text : String} {leaf other : Locus} {offset : Nat}

theorem pairwise_leaves (text : String) :
    (locus text).leaves.Pairwise fun left right => left.span.stop ≤ right.span.start := by
  have htokens := (contiguous_tokenize text).pairwise.1
  rw [tokenize_eq] at htokens
  have hcut := (List.pairwise_append.1 htokens).1
  have hsits := forall₂_sits_leaves text
  rw [List.pairwise_iff_getElem] at hcut ⊢
  intro i j hi hj hij
  have hi' := hsits.length_eq ▸ hi
  have hj' := hsits.length_eq ▸ hj
  have hleft := (hsits.get hi' hi).2.2
  have hright := (hsits.get hj' hj).2.2
  simp only [List.get_eq_getElem] at hleft hright
  rw [hleft, hright]
  exact hcut i j hi' hj' hij

theorem start_lt_stop (h : leaf ∈ (locus text).leaves) : leaf.span.start < leaf.span.stop := by
  obtain ⟨token, htoken, -, -, hspan⟩ := exists_token h
  have hne := text_ne_empty_of_mem_cutTokens htoken
  have hsize : token.text.utf8ByteSize ≠ 0 := by simpa using hne
  rw [hspan]
  simp only [Token.span, Token.stop, Token.size]
  omega

/-- Two leaves are the same or one is in front of the other. -/
theorem eq_or_apart (hleaf : leaf ∈ (locus text).leaves) (hother : other ∈ (locus text).leaves) :
    leaf = other ∨ leaf.span.stop ≤ other.span.start ∨ other.span.stop ≤ leaf.span.start :=
  Locus.eq_or_apart_of_pairwise (pairwise_leaves text) hleaf hother

/-- An offset has at most one leaf that ends there or goes across it. -/
theorem eq_of_start_lt (hleaf : leaf ∈ (locus text).leaves) (hother : other ∈ (locus text).leaves)
    (hstart : leaf.span.start < offset) (hstop : offset ≤ leaf.span.stop)
    (hstart' : other.span.start < offset) (hstop' : offset ≤ other.span.stop) : leaf = other := by
  rcases eq_or_apart hleaf hother with heq | hlt | hlt
  · exact heq
  · omega
  · omega

theorem located_locus (text : String) : (locus text).Located := Locus.located_root _ _

theorem isRoot_locus (text : String) : (locus text).IsRoot := Locus.isRoot_root _

theorem exists_parent (hleaf : leaf ∈ (locus text).leaves) :
    ∃ parent, Locus.Under (locus text) parent ∧ leaf ∈ parent.children := by
  obtain ⟨hunder, htoken⟩ := Locus.mem_leaves_iff.1 hleaf
  cases hunder with
  | root => cases htoken
  | child hparent hchild => exact ⟨_, hparent, hchild⟩

theorem mem_tokensAt_iff :
    leaf ∈ (locus text).tokensAt offset ↔
      leaf ∈ (locus text).leaves ∧ leaf.span.start ≤ offset ∧ offset ≤ leaf.span.stop := by
  rw [Locus.tokensAt_eq_filter_leaves (located_locus text), List.mem_filter]
  constructor
  · rintro ⟨hleaf, htouches⟩
    simp only [Span.touches, Bool.and_eq_true, decide_eq_true_eq] at htouches
    exact ⟨hleaf, htouches.2⟩
  · rintro ⟨hleaf, hstart, hstop⟩
    have hne := start_lt_stop hleaf
    refine ⟨hleaf, ?_⟩
    simp only [Span.touches, Span.isEmpty, Bool.and_eq_true, Bool.not_eq_true', decide_eq_true_eq,
      decide_eq_false_iff_not]
    omega

theorem previousToken_eq_some (hleaf : leaf ∈ (locus text).leaves)
    (h : leaf.previousToken = some other) :
    other ∈ (locus text).leaves ∧ other.span.stop = leaf.span.start := by
  obtain ⟨hunder, htoken, hstop⟩ := (Locus.mem_leaves_iff.1 hleaf).1.previousToken_eq_some
    (isRoot_locus text) (located_locus text) h
  exact ⟨Locus.mem_leaves_iff.2 ⟨hunder, htoken⟩, hstop⟩

/-- The token in front of an offset is the leaf that ends there or goes across it. -/
theorem tokenBefore_eq_some_iff :
    (locus text).tokenBefore offset = some leaf ↔
      leaf ∈ (locus text).leaves ∧ leaf.span.start < offset ∧ offset ≤ leaf.span.stop := by
  have hpairwise : ((locus text).tokensAt offset).Pairwise fun left right =>
      left.span.stop ≤ right.span.start := by
    rw [Locus.tokensAt_eq_filter_leaves (located_locus text)]
    exact (pairwise_leaves text).filter _
  have hmem : ∀ token ∈ (locus text).tokensAt offset, token ∈ (locus text).leaves ∧
      token.span.start ≤ offset ∧ offset ≤ token.span.stop := fun _ => mem_tokensAt_iff.1
  constructor
  · intro h
    unfold Locus.tokenBefore at h
    split at h
    · cases h
    · rename_i token htokens
      obtain ⟨htoken, hstart, hstop⟩ := hmem token (by rw [htokens]; exact List.mem_cons_self)
      split at h
      · cases h
        exact ⟨htoken, ‹_›, hstop⟩
      · obtain ⟨hleaf, hend⟩ := previousToken_eq_some htoken h
        have hne := start_lt_stop hleaf
        exact ⟨hleaf, by omega, by omega⟩
    · rename_i left right rest htokens
      obtain rfl : left = leaf := by simpa using h
      obtain ⟨hleft, -, hstop⟩ := hmem left (by rw [htokens]; exact List.mem_cons_self)
      obtain ⟨-, hright, -⟩ := hmem right (by rw [htokens]; simp)
      rw [htokens] at hpairwise
      have hapart := (List.pairwise_cons.1 hpairwise).1 right List.mem_cons_self
      have hne := start_lt_stop hleft
      exact ⟨hleft, by omega, hstop⟩
  · rintro ⟨hleaf, hstart, hstop⟩
    have htouched : leaf ∈ (locus text).tokensAt offset := mem_tokensAt_iff.2 ⟨hleaf, by omega, hstop⟩
    unfold Locus.tokenBefore
    split
    · rename_i htokens
      simp [htokens] at htouched
    · rename_i token htokens
      obtain rfl : leaf = token := by simpa [htokens] using htouched
      rw [if_pos hstart]
    · rename_i left right rest htokens
      obtain ⟨hleft, -, hend⟩ := hmem left (by rw [htokens]; exact List.mem_cons_self)
      rw [htokens] at htouched hpairwise
      rcases List.mem_cons.1 htouched with rfl | hlater
      · rfl
      · have hapart := (List.pairwise_cons.1 hpairwise).1 leaf hlater
        omega

theorem skipBack_of_not {skip : Kind → Bool} (h : skip leaf.kind = false) :
    leaf.skipBack skip = some leaf := by
  simp [Locus.skipBack, Locus.skipBackFor, h]

/-- Going back from a leaf stops at a leaf that is not to be skipped, with nothing but leaves that
are between the two. -/
theorem skipBack_eq_some {skip : Kind → Bool} (hleaf : leaf ∈ (locus text).leaves)
    (h : leaf.skipBack skip = some other) :
    other ∈ (locus text).leaves ∧ skip other.kind = false ∧
      other.span.start ≤ leaf.span.start ∧
      ∀ between ∈ (locus text).leaves, other.span.stop ≤ between.span.start →
        between.span.start ≤ leaf.span.start → skip between.kind = true := by
  have hfor : ∀ fuel leaf, leaf ∈ (locus text).leaves →
      Locus.skipBackFor skip fuel leaf = some other →
      other ∈ (locus text).leaves ∧ skip other.kind = false ∧
        other.span.start ≤ leaf.span.start ∧
        ∀ between ∈ (locus text).leaves, other.span.stop ≤ between.span.start →
          between.span.start ≤ leaf.span.start → skip between.kind = true := by
    intro fuel
    induction fuel with
    | zero => intro leaf _ h; cases h
    | succ fuel ih =>
        intro leaf hleaf h
        rw [Locus.skipBackFor] at h
        split at h
        · rename_i hskip
          obtain ⟨previous, hprevious, hrest⟩ := Option.bind_eq_some_iff.1 h
          obtain ⟨hmem, hstop⟩ := previousToken_eq_some hleaf hprevious
          obtain ⟨hother, hkind, hstart, hbetween⟩ := ih previous hmem hrest
          have hne := start_lt_stop hmem
          refine ⟨hother, hkind, by omega, fun between hin hafter hbefore => ?_⟩
          rcases eq_or_apart hin hleaf with rfl | hlt | hlt
          · exact hskip
          · have := start_lt_stop hin
            rcases eq_or_apart hin hmem with rfl | hlt' | hlt'
            · exact hbetween _ hin hafter (Nat.le_refl _)
            · exact hbetween _ hin hafter (by omega)
            · omega
          · have := start_lt_stop hleaf
            omega
        · rename_i hskip
          obtain rfl : leaf = other := by simpa using h
          refine ⟨hleaf, by simpa using hskip, Nat.le_refl _, fun between hin hafter hbefore => ?_⟩
          have := start_lt_stop hleaf
          omega
  exact hfor _ leaf hleaf h

/-- At a boundary between characters, what is made of the context is the answer, if there is one. -/
theorem completionsIn_eq (types : Provider) (settings : Settings)
    (hboundary : Bytes.isBoundary offset text = true) :
    completionsIn text offset types settings =
      .ok ((Context.at? (locus text) text offset).elim [] fun context => Completion.suggestions
        ⟨context, ⟨locus text, .ofRoot (locus text), types⟩, settings⟩ text.utf8ByteSize) := by
  have hcheck : (Analysis.ofText text).check offset = .ok () := by
    have hle := Bytes.le_of_isBoundary hboundary
    simp [Analysis.check, Analysis.ofText, Analysis.size, hboundary, Nat.not_lt.2 hle]
  have hcontext : (Analysis.ofText text).context? offset =
      Context.at? (locus text) text offset := rfl
  simp only [completionsIn, Analysis.completions, hcheck, hcontext, bind, Except.bind, pure,
    Except.pure]
  cases Context.at? (locus text) text offset <;> rfl

end Document

end Caret
