import Caret.Proofs.Document.Placeholders
import Caret.Proofs.Scope.Visible
import Mathlib.Data.List.Find

/-!
# Where a context is anchored

Scopes are looked up from a node: the one around the word at the cursor, else the placeholder there,
else the one around the token there. Where an expression is offered, this node is in the declaration
that the token in front of the cursor is in, and it is in the body of a loop if the cursor is, unless
the node is the loop itself.
-/

namespace Caret

namespace Locus

variable {root locus other missing : Locus} {offset : Nat}

theorem missingAt_eq_find? (h : root.Located) :
    root.missingAt offset = (root.search fun _ => true).find? fun locus =>
      locus.kind = .missing && locus.span.start = offset := by
  rw [missingAt, search_eq_filter, List.find?_filter]
  · refine List.find?_congr fun locus hmem => ?_
    have hsize := ((mem_search_true_iff.1 hmem).located h).start_le_stop
    rw [Bool.eq_iff_iff]
    simp only [Span.touches, Bool.and_eq_true, decide_eq_true_eq]
    simp only [Locus.span] at hsize ⊢
    constructor
    · exact fun htest => htest.2
    · exact fun htest => ⟨by omega, htest⟩
  · intro locus child hunder hchild henter
    have hcontains := ((hunder.located h).of_mem_children hchild).2.1
    rw [Span.contains_iff] at hcontains
    simp only [Span.touches, Bool.and_eq_true, decide_eq_true_eq] at henter ⊢
    simp only [Locus.span] at hcontains
    omega

theorem start_ne_of_missingAt_eq_none (h : root.Located) (hnone : root.missingAt offset = none)
    (hunder : Under root locus) (hkind : locus.kind = .missing) : locus.span.start ≠ offset := by
  rw [missingAt_eq_find? h, List.find?_eq_none] at hnone
  simpa [hkind] using hnone locus (mem_search_true_iff.2 hunder)

theorem missingAt_eq_some (h : root.Located) (hmissing : root.missingAt offset = some missing) :
    Under root missing ∧ missing.kind = .missing ∧ missing.span.start = offset := by
  rw [missingAt_eq_find? h] at hmissing
  have htest := List.find?_some hmissing
  rw [Bool.and_eq_true, decide_eq_true_eq, decide_eq_true_eq] at htest
  exact ⟨mem_search_true_iff.1 (List.mem_of_find?_eq_some hmissing), htest⟩

/-- Where there is a placeholder below a place, the first one is below it or comes before it. -/
theorem under_or_before_of_missingAt (h : root.Located)
    (hmissing : root.missingAt offset = some missing) (hunder : Under root locus)
    (hother : Under locus other) (hkind : other.kind = .missing)
    (hstart : other.span.start = offset) :
    Under locus missing ∨ Around missing locus ∨ missing.span.stop ≤ locus.span.start := by
  rw [missingAt_eq_find? h] at hmissing
  obtain ⟨before, after, hsplit⟩ := hunder.exists_search_eq_append
  have hpairwise := h.pairwise_search
  rw [hsplit, List.pairwise_append] at hpairwise
  rw [hsplit, List.find?_append] at hmissing
  rcases Option.or_eq_some_iff.1 hmissing with hbefore | ⟨-, hrest⟩
  · refine .inr (hpairwise.2.2 missing (List.mem_of_find?_eq_some hbefore) locus ?_)
    exact List.mem_append_left _ (mem_search_true_iff.2 .root)
  · left
    rw [List.find?_append] at hrest
    rcases Option.or_eq_some_iff.1 hrest with hin | ⟨hnone, -⟩
    · exact mem_search_true_iff.1 (List.mem_of_find?_eq_some hin)
    · rw [List.find?_eq_none] at hnone
      exact absurd (by simp [hkind, hstart]) (hnone other (mem_search_true_iff.2 hother))

theorem exists_pickToken {tokens : List Locus} (h : tokens ≠ []) :
    ∃ token ∈ tokens, pickToken tokens = some token := by
  unfold pickToken
  split
  · exact absurd rfl h
  · exact ⟨_, List.mem_cons_self, rfl⟩
  · split
    · exact ⟨_, List.mem_cons_self, rfl⟩
    · exact ⟨_, List.mem_cons_of_mem _ List.mem_cons_self, rfl⟩

/-- The colon that ends the header of a loop ends at or before an offset, and the loop does not end
before it. -/
def bodyHolds (loop : Locus) (offset : Nat) : Bool :=
  match loop.tokenOf .colon with
  | none => false
  | some colon => colon.span.stop ≤ offset && offset ≤ loop.span.stop

theorem bodyHolds_eq_true_iff {loop : Locus} :
    loop.bodyHolds offset = true ↔ ∃ colon ∈ loop.children, loop.tokenOf .colon = some colon ∧
      colon.isToken = true ∧ colon.span.stop ≤ offset ∧ offset ≤ loop.span.stop := by
  unfold bodyHolds
  constructor
  · intro h
    split at h
    · cases h
    · rename_i colon hcolon
      obtain ⟨hmem, htoken⟩ := List.mem_filter.1 (List.mem_of_find?_eq_some hcolon)
      rw [Bool.and_eq_true, decide_eq_true_eq, decide_eq_true_eq] at h
      exact ⟨colon, hmem, hcolon, htoken, h⟩
  · rintro ⟨colon, -, hcolon, -, hstop, hend⟩
    simp [hcolon, hstop, hend]

end Locus

namespace Document

variable {text : String} {offset : Nat} {replacement : Span} {context : Context}
  {anchor last leaf loop declaration word : Locus}

/-- The last token that is no trivia and starts before an offset. -/
def significantBefore (text : String) (offset : Nat) : Option Locus :=
  ((locus text).leaves.filter fun leaf =>
    !leaf.kind.isTrivia && leaf.span.start < offset).getLast?

theorem significantBefore_eq_some (hleaf : leaf ∈ (locus text).leaves)
    (htrivia : leaf.kind.isTrivia = false) (hstart : leaf.span.start < offset)
    (hlast : ∀ other ∈ (locus text).leaves, leaf.span.stop ≤ other.span.start →
      other.span.start < offset → other.kind.isTrivia = true) :
    significantBefore text offset = some leaf := by
  have hmem : leaf ∈ (locus text).leaves.filter fun leaf =>
      !leaf.kind.isTrivia && leaf.span.start < offset :=
    List.mem_filter.2 ⟨hleaf, by simp [htrivia, hstart]⟩
  have hpairwise := (pairwise_leaves text).filter fun leaf =>
    !leaf.kind.isTrivia && leaf.span.start < offset
  unfold significantBefore
  rcases List.eq_nil_or_concat' ((locus text).leaves.filter fun leaf =>
      !leaf.kind.isTrivia && leaf.span.start < offset) with hnil | ⟨before, final, hsplit⟩
  · rw [hnil] at hmem
    cases hmem
  · have hfinal : final ∈ (locus text).leaves.filter fun leaf =>
        !leaf.kind.isTrivia && leaf.span.start < offset := by simp [hsplit]
    obtain ⟨hfinal', htest⟩ := List.mem_filter.1 hfinal
    rw [Bool.and_eq_true, Bool.not_eq_true', decide_eq_true_eq] at htest
    rw [hsplit] at hmem hpairwise ⊢
    rw [List.getLast?_concat]
    rcases List.mem_append.1 hmem with hbefore | hsame
    · have hapart := (List.pairwise_append.1 hpairwise).2.2 leaf hbefore final List.mem_cons_self
      have := hlast final hfinal' hapart htest.2
      rw [htest.1] at this
      cases this
    · rw [List.mem_singleton.1 hsame]

/-- How the node is found from which scopes are looked up. -/
inductive Anchored (text : String) (offset : Nat) (replacement : Span) (anchor : Locus) : Prop where
  | word {word : Locus} (hleaf : word ∈ (locus text).leaves) (hword : word.kind.isWord = true)
      (hspan : word.span = replacement) (hstart : word.span.start < offset)
      (hstop : offset ≤ word.span.stop) (hchild : word ∈ anchor.children)
  | missing (hempty : replacement = .empty offset)
      (hmissing : (locus text).missingAt offset = some anchor)
  | token {token : Locus} (hempty : replacement = .empty offset)
      (hnone : (locus text).missingAt offset = none) (hleaf : token ∈ (locus text).leaves)
      (hstart : token.span.start ≤ offset) (hstop : offset ≤ token.span.stop)
      (hchild : token ∈ anchor.children)

theorem anchor_of_context (h : Context.at? (locus text) text offset = some context) :
    context.anchor = (((locus text).vicinity offset).word.bind Locus.parent).getD
      ((locus text).resolve offset).node := by
  unfold Context.at? Context.classify at h
  split at h
  · cases h
  · obtain ⟨finding, -, hmade⟩ := Option.bind_eq_some_iff.1 h
    cases hmade
    rfl

/-- The node is one of the tree, and it is found in one of three ways. -/
theorem anchored (hcontext : Context.at? (locus text) text offset = some context)
    (hawaits : Awaits text offset context.replacement last) :
    Locus.Under (locus text) context.anchor ∧ context.anchor.isNode = true ∧
      Anchored text offset context.replacement context.anchor := by
  rw [anchor_of_context hcontext]
  cases hword : ((locus text).vicinity offset).word with
  | some word =>
      have hfind : ((locus text).tokensAt offset).find? (fun token =>
          token.kind.isWord && token.span.start < offset) = some word := hword
      obtain ⟨hleaf, -, hstop⟩ := mem_tokensAt_iff.1 (List.mem_of_find?_eq_some hfind)
      have htest := List.find?_some hfind
      rw [Bool.and_eq_true, decide_eq_true_eq] at htest
      obtain ⟨parent, hunder, hchild⟩ := exists_parent hleaf
      rw [Option.bind_some, Locus.parent_of_mem_children hchild, Option.getD_some]
      refine ⟨hunder, Locus.isNode_of_mem_children hchild, ?_⟩
      have hspan : word.span = context.replacement := by
        rcases hawaits.word with ⟨-, hno⟩ | ⟨other, hother, -, hspan, hstart', hstop'⟩
        · exact absurd hstop fun hle => hno word hleaf htest.1 htest.2 hle
        · rw [← hspan, eq_of_start_lt hleaf hother htest.2 hstop hstart' hstop']
      exact .word hleaf htest.1 hspan htest.2 hstop hchild
  | none =>
      have hfind : ((locus text).tokensAt offset).find? (fun token =>
          token.kind.isWord && token.span.start < offset) = none := hword
      have hempty : context.replacement = .empty offset := by
        rcases hawaits.word with ⟨hempty, -⟩ | ⟨other, hother, hkind, -, hstart, hstop⟩
        · exact hempty
        · rw [List.find?_eq_none] at hfind
          refine absurd ?_ (hfind other (mem_tokensAt_iff.2 ⟨hother, Nat.le_of_lt hstart, hstop⟩))
          simp [hkind, hstart]
      rw [Option.bind_none, Option.getD_none, Locus.resolve]
      dsimp only
      cases hmissing : (locus text).missingAt offset with
      | some missing =>
          rw [Option.some_or, Option.getD_some]
          obtain ⟨hunder, hkind, -⟩ := Locus.missingAt_eq_some (located_locus text) hmissing
          exact ⟨hunder, isNode_of_missing hunder hkind, .missing hempty hmissing⟩
      | none =>
          obtain ⟨front, hfront, hstart, hstop⟩ := hawaits.front
          rw [hempty] at hstart hstop
          have htouched : front ∈ (locus text).tokensAt offset :=
            mem_tokensAt_iff.2 ⟨hfront, Nat.le_of_lt hstart, hstop⟩
          obtain ⟨token, hmem, hpick⟩ :=
            Locus.exists_pickToken (List.ne_nil_of_mem htouched)
          obtain ⟨hleaf, hstart', hstop'⟩ := mem_tokensAt_iff.1 hmem
          obtain ⟨parent, hunder, hchild⟩ := exists_parent hleaf
          rw [Option.none_or, hpick, Option.bind_some, Locus.parent_of_mem_children hchild,
            Option.getD_some]
          exact ⟨hunder, Locus.isNode_of_mem_children hchild,
            .token hempty hmissing hleaf hstart' hstop' hchild⟩

theorem exists_anchored
    (hcontext : Context.at? (locus text) text offset = some context)
    (hkind : context.kind.isExpr = true) :
    ∃ last, Awaits text offset context.replacement last ∧
      Locus.Under (locus text) context.anchor ∧ context.anchor.isNode = true ∧
        Anchored text offset context.replacement context.anchor := by
  have hname : Identifier.isValid "z" = true := by decide +kernel
  obtain ⟨last, hawaits⟩ := exists_awaits hname (by decide) hcontext hkind
  exact ⟨last, hawaits, anchored hcontext hawaits⟩

/-! The loops around the anchor -/

theorem Anchored.touches (h : Anchored text offset replacement anchor)
    (hunder : Locus.Under (locus text) anchor) :
    anchor.span.start ≤ offset ∧ offset ≤ anchor.span.stop := by
  have hlocated := hunder.located (located_locus text)
  cases h with
  | word _ _ _ hstart hstop hchild =>
      have hcontains := Span.contains_iff.1 (hlocated.of_mem_children hchild).2.1
      omega
  | missing _ hmissing =>
      obtain ⟨-, hkind, hstart⟩ := Locus.missingAt_eq_some (located_locus text) hmissing
      have hstop := stop_of_missing hunder hkind
      omega
  | token _ _ _ hstart hstop hchild =>
      have hcontains := Span.contains_iff.1 (hlocated.of_mem_children hchild).2.1
      omega

/-- A loop that ends at a cursor where an expression is awaited ends with a placeholder. -/
theorem Awaits.exists_missing_of_loop (h : Awaits text offset (.empty offset) last)
    (hunder : Locus.Under (locus text) loop) (hnode : loop.isNode = true)
    (hkind : loop.kind = .forExpr) (hstop : loop.span.stop = offset) :
    ∃ closing, Locus.Under loop closing ∧ closing.kind = .missing ∧
      closing.span.start = offset := by
  obtain ⟨-, closing, hchild, hright, hsort⟩ := exists_brackets_of_forExpr hunder hnode hkind
  have hend := ((hunder.located (located_locus text)).of_mem_children hchild).2.2.2.2 hright
  rcases hsort with ⟨htoken, hrBrack⟩ | ⟨-, hmissing⟩
  · exfalso
    have hleaf := Locus.mem_leaves_iff.2 ⟨hunder.child hchild, htoken⟩
    have hsize := start_lt_stop hleaf
    have hbefore := h.before
    change last.span.start < offset at hbefore
    rcases eq_or_apart h.mem hleaf with rfl | hlt | hlt
    · have hinvites := h.invites
      rw [show last.leaf = ⟨loop.kind, last.kind, last.text⟩ by
        rw [← home_of_parent (Locus.parent_of_mem_children hchild)]; rfl, hkind, hrBrack] at hinvites
      cases hinvites
    · have htrivia := h.between closing hleaf hlt (by change closing.span.start < offset; omega)
      rw [hrBrack] at htrivia
      cases htrivia
    · omega
  · have hempty := stop_of_missing (hunder.child hchild) hmissing
    exact ⟨closing, .child .root hchild, hmissing, by omega⟩

/-- A node with bytes in front of a cursor and not ending before it is around the parent of the
token at the cursor, unless it ends right there. -/
theorem around_or_stop_eq {token : Locus} (hunder : Locus.Under (locus text) loop)
    (hnode : loop.isNode = true) (hstart : loop.span.start < offset)
    (hstop : offset ≤ loop.span.stop) (hanchor : Locus.Under (locus text) anchor)
    (hchild : token ∈ anchor.children) (htoken : token.isToken = true)
    (hstart' : token.span.start ≤ offset) (hstop' : offset ≤ token.span.stop)
    (hne : loop ≠ anchor) :
    loop.Around anchor ∨ loop.span.stop = offset ∧ token.span.start = offset := by
  have hlocated := hanchor.located (located_locus text)
  have hcontains := Span.contains_iff.1 (hlocated.of_mem_children hchild).2.1
  rcases (located_locus text).under_or_apart hunder hanchor with heq | haround | haround | hlt | hlt
  · exact absurd heq hne
  · exact .inl haround
  · right
    obtain ⟨child, hchild', hbelow⟩ := haround
    have hinner := Span.contains_iff.1 (hbelow.contains (hlocated.of_mem_children hchild').1)
    rcases Locus.eq_or_apart_of_pairwise hlocated.pairwise_children hchild' hchild with
      rfl | hlt | hlt
    · rw [← hbelow.eq_of_isToken htoken, Locus.isNode_eq_not, htoken] at hnode
      cases hnode
    · omega
    · omega
  · omega
  · omega

/-- The anchor is below each loop whose bytes reach over the cursor, other than itself. -/
theorem Anchored.around (h : Anchored text offset replacement anchor)
    (hawaits : Awaits text offset replacement last) (hanchor : Locus.Under (locus text) anchor)
    (hunder : Locus.Under (locus text) loop) (hnode : loop.isNode = true)
    (hkind : loop.kind = .forExpr) (hstart : loop.span.start < offset)
    (hstop : offset ≤ loop.span.stop) (hne : loop ≠ anchor) : loop.Around anchor := by
  cases h with
  | word hleaf _ _ hstart' hstop' hchild =>
      rcases around_or_stop_eq hunder hnode hstart hstop hanchor hchild
        (Locus.mem_leaves_iff.1 hleaf).2 (Nat.le_of_lt hstart') hstop' hne with haround | ⟨-, hsame⟩
      · exact haround
      · omega
  | token hempty hnone hleaf hstart' hstop' hchild =>
      rcases around_or_stop_eq hunder hnode hstart hstop hanchor hchild
        (Locus.mem_leaves_iff.1 hleaf).2 hstart' hstop' hne with haround | ⟨hsame, -⟩
      · exact haround
      · subst hempty
        obtain ⟨closing, hbelow, hmissing, hat⟩ :=
          hawaits.exists_missing_of_loop hunder hnode hkind hsame
        exact absurd hat (Locus.start_ne_of_missingAt_eq_none (located_locus text) hnone
          (hunder.trans hbelow) hmissing)
  | missing hempty hmissing =>
      subst hempty
      obtain ⟨-, hkind', hat⟩ := Locus.missingAt_eq_some (located_locus text) hmissing
      have hsize := stop_of_missing hanchor hkind'
      have hnone := not_around_of_isBead hanchor (by simp [Locus.isBead, hkind'])
      rcases (located_locus text).under_or_apart hunder hanchor with
        heq | haround | haround | hlt | hlt
      · exact absurd heq hne
      · exact haround
      · exact absurd haround (hnone loop)
      · obtain ⟨closing, hbelow, hclosing, hat'⟩ :=
          hawaits.exists_missing_of_loop hunder hnode hkind (by omega)
        rcases Locus.under_or_before_of_missingAt (located_locus text) hmissing hunder hbelow
          hclosing hat' with hin | haround | hlt'
        · exact hin.eq_or_around.resolve_left hne
        · exact absurd haround (hnone loop)
        · omega
      · omega

theorem isInBodyOf_iff {node : Locus} :
    node.isInBodyOf loop = true ↔ loop.kind = .forExpr ∧ ∃ colon ∈ loop.children,
      loop.tokenOf .colon = some colon ∧ colon.isToken = true ∧
        colon.span.stop ≤ node.span.start := by
  unfold Locus.isInBodyOf
  rw [Bool.and_eq_true, decide_eq_true_eq]
  refine and_congr_right fun _ => ?_
  constructor
  · intro h
    split at h
    · cases h
    · rename_i colon hcolon
      obtain ⟨hmem, htoken⟩ := List.mem_filter.1 (List.mem_of_find?_eq_some hcolon)
      exact ⟨colon, hmem, hcolon, htoken, by simpa using h⟩
  · rintro ⟨colon, -, hcolon, -, hstop⟩
    simp [hcolon, hstop]

/-- The loops that are known at the anchor are those whose bodies hold the cursor, other than the
anchor itself. -/
theorem Anchored.mem_knownLoops_iff (h : Anchored text offset replacement anchor)
    (hawaits : Awaits text offset replacement last) (hanchor : Locus.Under (locus text) anchor)
    (hnode : anchor.isNode = true) :
    loop ∈ anchor.knownLoops ↔
      loop ∈ loops text ∧ loop.bodyHolds offset = true ∧ loop ≠ anchor := by
  obtain ⟨hstart, hstop⟩ := h.touches hanchor
  rw [Locus.knownLoops, List.mem_filter, mem_properAncestors_iff hanchor, mem_loops_iff,
    isInBodyOf_iff, Locus.bodyHolds_eq_true_iff]
  constructor
  · rintro ⟨⟨hunder, haround⟩, hkind, colon, hmem, hcolon, htoken, hle⟩
    have hcontains := Span.contains_iff.1
      (haround.under.contains (hunder.located (located_locus text)))
    exact ⟨⟨hunder, haround.isNode, hkind⟩, ⟨colon, hmem, hcolon, htoken, by omega, by omega⟩,
      haround.ne⟩
  · rintro ⟨⟨hunder, hnode', hkind⟩, ⟨colon, hmem, hcolon, htoken, hle, hle'⟩, hne⟩
    have hlocated := hunder.located (located_locus text)
    have hbounds := Span.contains_iff.1 (hlocated.of_mem_children hmem).2.1
    have hsize := start_lt_stop_of_isToken (hunder.child hmem) htoken
    have haround := h.around hawaits hanchor hunder hnode' hkind (by omega) hle' hne
    refine ⟨⟨hunder, haround⟩, hkind, colon, hmem, hcolon, htoken, ?_⟩
    obtain ⟨child, hchild, hbelow⟩ := haround
    have hcontains := Span.contains_iff.1 (hbelow.contains (hlocated.of_mem_children hchild).1)
    rcases Locus.eq_or_apart_of_pairwise hlocated.pairwise_children hmem hchild with
      rfl | hlt | hlt
    · rw [← hbelow.eq_of_isToken htoken, Locus.isNode_eq_not, htoken] at hnode
      cases hnode
    · omega
    · omega

/-! The declaration around the anchor -/

/-- A token in front of which an expression is awaited stands in a node below the root. -/
theorem Awaits.exists_top (h : Awaits text offset replacement last) :
    ∃ top ∈ (locus text).children, ∃ node, Locus.Under top node ∧ last ∈ node.children := by
  obtain ⟨node, hunder, hchild⟩ := exists_parent h.mem
  rcases hunder.eq_or_around with rfl | ⟨top, htop, hbelow⟩
  · have hinvites := h.invites
    have hhome : last.leaf.home = .root :=
      (home_of_parent (Locus.parent_of_mem_children hchild)).trans (kind_locus text)
    rw [show last.leaf = ⟨last.leaf.home, last.kind, last.text⟩ from rfl, hhome] at hinvites
    cases hkind : last.kind <;> rw [hkind] at hinvites <;> cases hinvites
  · exact ⟨top, htop, node, hbelow, hchild⟩

/-- If a child of the root ends at the cursor in spite of a token that awaits more, then with a
placeholder. -/
theorem exists_missing_of_stop_le (hawaits : Awaits text offset (.empty offset) last)
    {top node : Locus} (htop : top ∈ (locus text).children) (hnode : Locus.Under top node)
    (hlast : last ∈ node.children) (hend : top.span.stop ≤ offset) :
    ∃ bead, Locus.Under (locus text) bead ∧ Locus.Under top bead ∧ bead.kind = .missing ∧
      bead.span.start = offset := by
  have hlocated := located_locus text
  obtain ⟨bead, hbead, hunder, htrivia, hbehind⟩ := exists_bead_behind ⟨top, htop, hnode⟩ hlast
    (Locus.mem_leaves_iff.1 hawaits.mem).2 hawaits.invites
  have hafter : offset ≤ bead.span.start := hawaits.le_start hbead htrivia hbehind
  have hcontains := Span.contains_iff.1
    ((hnode.trans hunder).contains (hlocated.of_mem_children htop).1)
  obtain ⟨hbead', hsort⟩ := Locus.mem_beads_iff.1 hbead
  have horder := (hbead'.located hlocated).start_le_stop
  rw [Locus.isBead, Bool.or_eq_true, decide_eq_true_eq] at hsort
  refine ⟨bead, hbead', hnode.trans hunder, hsort.resolve_left fun htoken => ?_, by omega⟩
  have := start_lt_stop (Locus.mem_leaves_iff.2 ⟨hbead', htoken⟩)
  omega

theorem start_lt_of_awaits (hawaits : Awaits text offset (.empty offset) last) {top node : Locus}
    (htop : top ∈ (locus text).children) (hnode : Locus.Under top node)
    (hlast : last ∈ node.children) : top.span.start < offset := by
  have hbefore : last.span.start < offset := hawaits.before
  have hcontains := Span.contains_iff.1
    ((hnode.child hlast).contains ((located_locus text).of_mem_children htop).1)
  omega

/-- What touches the cursor is in the child of the root that holds the token in front of it, or that
child ends there. -/
theorem eq_or_stop_le (hawaits : Awaits text offset (.empty offset) last)
    {top node other below : Locus} (htop : top ∈ (locus text).children) (hnode : Locus.Under top node)
    (hlast : last ∈ node.children) (hother : other ∈ (locus text).children)
    (hbelow : Locus.Under other below) (hstart : below.span.start ≤ offset)
    (hstop : offset ≤ below.span.stop) : top = other ∨ top.span.stop ≤ offset := by
  have hlocated := located_locus text
  have hfirst := start_lt_of_awaits hawaits htop hnode hlast
  have hcontains := Span.contains_iff.1 (hbelow.contains (hlocated.of_mem_children hother).1)
  rcases Locus.eq_or_apart_of_pairwise hlocated.pairwise_children htop hother with heq | hlt | hlt
  · exact .inl heq
  · exact .inr (by omega)
  · omega

/-- The child of the root that holds the token in front of a cursor holds the anchor, too. -/
theorem Anchored.under_top (h : Anchored text offset (.empty offset) anchor)
    (hawaits : Awaits text offset (.empty offset) last)
    (hanchor : Locus.Under (locus text) anchor) {top node : Locus}
    (htop : top ∈ (locus text).children) (hnode : Locus.Under top node)
    (hlast : last ∈ node.children) : Locus.Under top anchor := by
  have hlocated := located_locus text
  cases h with
  | word hleaf hword hspan hstart hstop hchild =>
      rw [hspan] at hstart
      exact absurd hstart (Nat.lt_irrefl _)
  | token _ hnone hleaf hstart hstop hchild =>
      have htoken := (Locus.mem_leaves_iff.1 hleaf).2
      rcases (hanchor.child hchild).eq_or_around with rfl | ⟨other, hother, hbelow⟩
      · cases htoken
      · rcases eq_or_stop_le hawaits htop hnode hlast hother hbelow hstart hstop with rfl | hend
        · refine hbelow.of_mem_children_of_ne hchild fun heq => ?_
          have hmember : top.isNode = true := by
            rcases hnode.eq_or_around with rfl | haround
            · exact Locus.isNode_of_mem_children hlast
            · exact haround.isNode
          rw [heq, Locus.isNode_eq_not, htoken] at hmember
          cases hmember
        · obtain ⟨bead, hbead, -, hkind, hat⟩ :=
            exists_missing_of_stop_le hawaits htop hnode hlast hend
          exact absurd hat (Locus.start_ne_of_missingAt_eq_none hlocated hnone hbead hkind)
  | missing _ hat =>
      obtain ⟨-, hkind, hstart⟩ := Locus.missingAt_eq_some hlocated hat
      have hsize := stop_of_missing hanchor hkind
      rcases hanchor.eq_or_around with rfl | ⟨other, hother, hbelow⟩
      · rw [kind_locus] at hkind
        cases hkind
      · rcases eq_or_stop_le hawaits htop hnode hlast hother hbelow (by omega) (by omega) with
          rfl | hend
        · exact hbelow
        · obtain ⟨bead, -, hunder, hkind', hat'⟩ :=
            exists_missing_of_stop_le hawaits htop hnode hlast hend
          rcases Locus.under_or_before_of_missingAt hlocated hat (.child .root htop) hunder hkind'
            hat' with hin | haround | hlt
          · exact hin
          · exact absurd haround (not_around_of_isBead hanchor (by simp [Locus.isBead, hkind]) top)
          · have := start_lt_of_awaits hawaits htop hnode hlast
            omega

/-- The token in front of the cursor is the word there, or the one after which an expression is
awaited. -/
theorem Anchored.exists_significantBefore (h : Anchored text offset replacement anchor)
    (hawaits : Awaits text offset replacement last) :
    ∃ token, significantBefore text offset = some token ∧
      (token ∈ anchor.children ∧ token.isToken = true ∨ token = last ∧ replacement = .empty offset) := by
  have hlast : replacement = .empty offset → significantBefore text offset = some last := by
    rintro rfl
    exact significantBefore_eq_some hawaits.mem hawaits.trivia hawaits.before hawaits.between
  cases h with
  | word hleaf hword hspan hstart hstop hchild =>
      refine ⟨_, significantBefore_eq_some hleaf ?_ hstart fun other _ hafter hbefore => ?_,
        .inl ⟨hchild, (Locus.mem_leaves_iff.1 hleaf).2⟩⟩
      · cases hkind : Locus.kind _ <;> rw [hkind] at hword <;> first | rfl | cases hword
      · omega
  | missing hempty _ => exact ⟨last, hlast hempty, .inr ⟨rfl, hempty⟩⟩
  | token hempty _ _ _ _ _ => exact ⟨last, hlast hempty, .inr ⟨rfl, hempty⟩⟩

/-- The anchor stands in the declaration that holds the token in front of the cursor, and in no
other one. -/
theorem Anchored.under_iff (h : Anchored text offset replacement anchor)
    (hawaits : Awaits text offset replacement last) (hanchor : Locus.Under (locus text) anchor)
    (hdeclaration : declaration ∈ (locus text).declarations) :
    Locus.Under declaration anchor ↔
      ∃ token ∈ significantBefore text offset, Locus.Under declaration token := by
  obtain ⟨hmem, hnode, -⟩ := mem_declarations_iff.1 hdeclaration
  have hsame : ∀ {token : Locus}, token.isToken = true → declaration ≠ token := by
    rintro token htoken rfl
    rw [Locus.isNode_eq_not, htoken] at hnode
    cases hnode
  obtain ⟨token, hbefore, ⟨hchild, htoken⟩ | ⟨rfl, rfl⟩⟩ := h.exists_significantBefore hawaits
  · rw [hbefore]
    constructor
    · exact fun hunder => ⟨token, rfl, hunder.child hchild⟩
    · rintro ⟨other, hother, hunder⟩
      obtain rfl := Option.some.inj hother
      exact hunder.of_mem_children_of_ne hchild (hsame htoken)
  · obtain ⟨top, htop, node, hbelow, hlast⟩ := hawaits.exists_top
    have hanchor' := h.under_top hawaits hanchor htop hbelow hlast
    have hlength : declaration.above.length = top.above.length := by
      rw [(Locus.mem_children_iff.1 hmem).2, (Locus.mem_children_iff.1 htop).2]
    rw [hbefore]
    constructor
    · intro hunder
      obtain rfl := hunder.eq_of_length hanchor' hlength
      exact ⟨token, rfl, hbelow.child hlast⟩
    · rintro ⟨other, hother, hunder⟩
      obtain rfl := Option.some.inj hother
      obtain rfl := hunder.eq_of_length (hbelow.child hlast) hlength
      exact hanchor'

/-- The declarations that the anchor stands in. -/
theorem mem_otherDeclarations_iff (hanchor : Locus.Under (locus text) anchor)
    (hnode : anchor.isNode = true) (hdeclaration : declaration ∈ (locus text).declarations) :
    declaration ∈ Locus.otherDeclarations (locus text) anchor ↔
      ¬Locus.Under declaration anchor := by
  obtain ⟨hmem, -, hkind⟩ := mem_declarations_iff.1 hdeclaration
  rw [Locus.otherDeclarations, List.mem_filter, and_iff_right hdeclaration, decide_eq_true_eq,
    not_iff_not]
  have hown : ∀ own, anchor.ownDeclaration = some own →
      own ∈ (locus text).children ∧ Locus.Under own anchor := by
    intro own hown
    have hin := mem_declarations_of_ownDeclaration hanchor hnode hown
    exact ⟨(mem_declarations_iff.1 hin).1,
      ((hanchor.mem_ancestors_iff (isRoot_locus text)).1 (List.mem_of_find?_eq_some hown)).2⟩
  constructor
  · intro h
    obtain ⟨own, howned, haddress⟩ := Option.map_eq_some_iff.1 h
    obtain ⟨hmem', hunder⟩ := hown own howned
    rwa [← Locus.eq_of_length_left hmem' hmem (List.cons_eq_cons.1 haddress).1]
  · intro hunder
    have hin : declaration ∈ anchor.ancestors :=
      (hanchor.mem_ancestors_iff (isRoot_locus text)).2 ⟨.child .root hmem, hunder⟩
    have hsome : anchor.ownDeclaration.isSome = true :=
      List.find?_isSome.2 ⟨declaration, hin, hkind⟩
    obtain ⟨own, howned⟩ := Option.isSome_iff_exists.1 hsome
    obtain ⟨hmem', hunder'⟩ := hown own howned
    have heq : own = declaration := hunder'.eq_of_length hunder (by
      rw [(Locus.mem_children_iff.1 hmem).2, (Locus.mem_children_iff.1 hmem').2])
    rw [howned, heq]
    rfl

end Document

end Caret
