import Caret.Proofs.Context.Symbols
import Caret.Proofs.Document.Built
import Caret.Proofs.Document.Lines
import Caret.Proofs.Tree.Last

/-!
# What a suggestion changes

A suggestion that is picked changes bytes on the line of the cursor. There are two exceptions: the
string of the type of a resource is replaced as a whole, and between the dot that an index takes the
place of and the cursor there can be a comment over several lines.
-/

namespace Caret

/-- The bytes that a suggestion takes the place of when it is picked at an offset. -/
def Suggestion.target (suggestion : Suggestion) (offset : Nat) : Span :=
  suggestion.replacement.getD (.empty offset)

namespace Vicinity

variable {place : Vicinity} {finding : Context.Finding}

/-- What is found replaces the word at the cursor, or it is the type of a resource. -/
theorem exists_found (h : place.finding = some finding) :
    place.insideTypeString = some finding ∨ ∃ kind node, place.found kind node = finding ∧
      (kind = .memberAccess → place.memberAccess = some finding) := by
  by_cases hrules : place.resourceType = some finding ∨
      place.decoratorName = some finding ∨ place.resourceHeader = some finding ∨
      place.typeName = some finding ∨ place.propertyKey = some finding ∨
      place.memberAccess = some finding ∨ place.resourceBody = some finding ∨
      place.declarations = some finding
  · rcases exists_found_of_rules hrules with hstring | ⟨kind, node, hfound, -, hmember⟩
    · exact .inl hstring
    · exact .inr ⟨kind, node, hfound, hmember⟩
  · obtain ⟨rule, hrule, hfinds⟩ := List.exists_of_findSome?_eq_some h
    simp only [rules, List.mem_cons, List.not_mem_nil, or_false] at hrule
    have hexpr : place.propertyValue = some finding ∨ place.expression = some finding := by
      rcases hrule with rfl | rfl | rfl | rfl | rfl | rfl | rfl | rfl | rfl | rfl <;> tauto
    rcases hexpr with hvalue | hexpr
    · simp only [propertyValue, bind, Option.bind_eq_some_iff, Option.some.injEq] at hvalue
      obtain ⟨_, -, hfound⟩ := hvalue
      exact .inr ⟨_, _, hfound, by simp⟩
    · unfold expression at hexpr
      split at hexpr
      · simp only [bind, Option.bind_eq_some_iff, Option.some.injEq] at hexpr
        obtain ⟨_, -, _, -, hfound⟩ := hexpr
        exact .inr ⟨_, _, hfound, by simp⟩
      · simp only [bind, Option.bind_eq_some_iff, Option.some.injEq] at hexpr
        obtain ⟨_, -, _, -, _, -, hfound⟩ := hexpr
        exact .inr ⟨_, _, hfound, by simp⟩

end Vicinity

namespace Document

variable {text : String} {offset : Nat} {access dot last other : Locus}

/-- The last token of a member access is a name. -/
theorem kind_lastToken (h : Locus.Under (locus text) access) (hkind : access.kind = .propertyAccess)
    (hdot : dot ∈ access.children) (hsign : dot.kind = .dot)
    (hlast : access.lastToken = some last) : last.kind = .ident := by
  obtain ⟨receiver, gap, child, hchildren, -, -, -, hchild⟩ :=
    exists_children_of_dot h hkind hdot hsign
  have hmem : child ∈ access.children := by simp [hchildren]
  rw [← List.cons_append, ← List.append_assoc] at hchildren
  rw [Locus.lastToken_of_right_eq_nil hmem (Locus.right_of_children_eq hchildren)] at hlast
  rcases hchild with ⟨htoken, hident⟩ | ⟨hnode, hmissing⟩
  · rw [Locus.lastToken_of_isToken htoken] at hlast
    rwa [← Option.some.inj hlast]
  · rw [Locus.lastToken_of_children_eq_nil hnode (children_of_missing (h.child hmem) hnode hmissing)]
      at hlast
    cases hlast

/-- A newline behind the dot of a member access is no part of the access. -/
theorem not_under_of_newline (h : Locus.Under (locus text) access)
    (hkind : access.kind = .propertyAccess) (hdot : dot ∈ access.children) (hsign : dot.kind = .dot)
    (hlast : last ∈ (locus text).leaves) (hline : last.kind = .newline)
    (hafter : dot.span.stop ≤ last.span.start) : ¬Locus.Under access last := by
  intro hunder
  obtain ⟨receiver, gap, final, hchildren, htoken, -, hgap, hfinal⟩ :=
    exists_children_of_dot h hkind hdot hsign
  have hof : ∀ {child : Locus}, child.isToken = true → child.kind ≠ .newline →
      ¬Locus.Under child last := by
    intro child hchild hne hbelow
    rw [← hbelow.eq_of_isToken hchild] at hline
    exact hne hline
  rcases hunder.eq_or_around with rfl | ⟨child, hchild, hbelow⟩
  · rw [hkind] at hline
    cases hline
  · have hlocated := h.located (located_locus text)
    have hcontains := Span.contains_iff.1 (hbelow.contains (hlocated.of_mem_children hchild).1)
    have hpairwise := hlocated.pairwise_children
    have hne := start_lt_stop hlast
    rw [hchildren] at hchild hpairwise
    rw [List.mem_append, List.mem_cons, List.mem_append, List.mem_singleton] at hchild
    rcases hchild with hmem | rfl | hmem | rfl
    · have hbefore := (List.pairwise_append.1 hpairwise).2.2 child hmem dot List.mem_cons_self
      have hdotSpan := (hlocated.of_mem_children hdot).1.start_le_stop
      omega
    · exact hof htoken (by rw [hsign]; decide) hbelow
    · obtain ⟨hchildToken, htrivia⟩ := hgap child hmem
      refine hof hchildToken (fun heq => ?_) hbelow
      rw [heq] at htrivia
      cases htrivia
    · rcases hfinal with ⟨hchildToken, hident⟩ | ⟨hnode, hmissing⟩
      · exact hof hchildToken (by rw [hident]; decide) hbelow
      · have hnil := children_of_missing (h.child (by simp [hchildren])) hnode hmissing
        rcases hbelow.eq_or_around with rfl | ⟨inner, hinner, -⟩
        · rw [hmissing] at hline
          cases hline
        · rw [hnil] at hinner
          cases hinner

/-- A member access is left to its right through its last token alone, and that is no dot: so the dot
is not reached from behind a newline. -/
theorem not_newline_of_memberAccess
    (honLine : ((locus text).vicinity offset).beforeOnLine = some last)
    (hbefore : ((locus text).vicinity offset).before = some dot) (hsign : dot.kind = .dot)
    (haccess : Locus.Under (locus text) access) (hkind : access.kind = .propertyAccess)
    (hdot : dot ∈ access.children) : last.kind ≠ .newline := by
  intro hline
  have hlast := (of_beforeOnLine honLine).1
  have hskip : last.skipBack (fun kind => kind.isTrivia || kind = .newline) = some dot := by
    rwa [before_vicinity, honLine] at hbefore
  obtain ⟨hleaf, -, hle, -⟩ := skipBack_eq_some hlast hskip
  have hafter : dot.span.stop ≤ last.span.start := by
    rcases eq_or_apart hleaf hlast with rfl | hlt | hlt
    · rw [hsign] at hline
      cases hline
    · exact hlt
    · have := start_lt_stop hlast
      omega
  -- going back from outside of the access, its last token comes before the dot does
  have hgo : ∀ fuel leaf, leaf ∈ (locus text).leaves → ¬Locus.Under access leaf →
      Locus.skipBackFor (fun kind => kind.isTrivia || kind = .newline) fuel leaf ≠ some dot := by
    intro fuel
    induction fuel with
    | zero => nofun
    | succ fuel ih =>
        intro leaf hmem hapart hfor
        rw [Locus.skipBackFor] at hfor
        split at hfor
        · obtain ⟨previous, hprevious, hrest⟩ := Option.bind_eq_some_iff.1 hfor
          by_cases hunder : Locus.Under access previous
          · have hlastToken := Locus.lastToken_of_previousToken (isRoot_locus text)
              (located_locus text) (Locus.mem_leaves_iff.1 hmem).1 hprevious hunder hapart
            have hident := kind_lastToken haccess hkind hdot hsign hlastToken
            cases fuel with
            | zero => cases hrest
            | succ fuel =>
                rw [Locus.skipBackFor, if_neg (by simp [hident, Kind.isTrivia])] at hrest
                rw [Option.some.inj hrest, hsign] at hident
                cases hident
          · exact ih previous (previousToken_eq_some hmem hprevious).1 hunder hrest
        · rw [Option.some.inj hfor] at hapart
          exact hapart (.child .root hdot)
  exact hgo _ last hlast (not_under_of_newline haccess hkind hdot hsign hlast hline hafter) hskip

/-- The bytes of the string of a resource type, with an offset behind the quote that opens it. -/
def IsTypeString (text : String) (offset : Nat) (span : Span) : Prop :=
  ∃ typeNode string opening, Locus.Under (locus text) typeNode ∧ typeNode.kind = .resourceType ∧
    typeNode.nodeOf .string = some string ∧ string.firstToken = some opening ∧
    opening.kind = .stringStart ∧ opening.span.stop ≤ offset ∧ offset ≤ string.span.stop ∧
    string.span = span

/-- What is found inside the type of a resource is its string, and what is typed of it starts behind
the quote that opens it. -/
theorem exists_of_insideTypeString {finding : Context.Finding}
    (h : ((locus text).vicinity offset).insideTypeString = some finding) :
    ∃ typeNode string opening, Locus.Under (locus text) typeNode ∧ typeNode.kind = .resourceType ∧
      typeNode.nodeOf .string = some string ∧ string.firstToken = some opening ∧
      opening.kind = .stringStart ∧ opening.span.stop ≤ offset ∧ offset ≤ string.span.stop ∧
      string.span = finding.replacement ∧ opening.span.stop = finding.typedFrom := by
  simp only [Vicinity.insideTypeString, bind, Option.bind_eq_some_iff, Option.some.injEq] at h
  obtain ⟨typeNode, htype, string, hstring, opening, hopening, _, hquote, _, hafter, _, -, rfl⟩ := h
  obtain ⟨token, htoken, hfound⟩ := List.exists_of_findSome?_eq_some htype
  have hkind : typeNode.kind = .resourceType := by simpa using List.find?_some hfound
  obtain ⟨hleaf, hstart, hstop⟩ := mem_tokensAt_iff.1 htoken
  obtain ⟨hunder, child, hchild, hbelow⟩ := ((Locus.mem_leaves_iff.1 hleaf).1.mem_properAncestors_iff
    (isRoot_locus text)).1 (List.mem_of_find?_eq_some hfound)
  obtain ⟨hnode, -⟩ := (hunder.tidy (tidy_locus text)).children_of_resourceType hkind hchild
  obtain rfl : string = child := Option.some.inj (hstring.symm.trans hnode)
  have hcontains := Span.contains_iff.1
    (hbelow.contains ((hunder.child hchild).located (located_locus text)))
  rw [Option.guard_eq_some'] at hquote hafter
  rw [Bool.and_eq_true, decide_eq_true_eq] at hafter
  have hoffset : token.span.stop ≤ string.span.stop := hcontains.2
  exact ⟨typeNode, string, opening, hunder, hkind, hstring, hopening, hquote, hafter.1,
    Nat.le_trans hstop hoffset, rfl, rfl⟩

theorem isTypeString_of_insideTypeString {finding : Context.Finding}
    (h : ((locus text).vicinity offset).insideTypeString = some finding) :
    IsTypeString text offset finding.replacement := by
  obtain ⟨typeNode, string, opening, hunder, hkind, hstring, hopening, hquote, hstop, hoffset, hspan,
    -⟩ := exists_of_insideTypeString h
  exact ⟨typeNode, string, opening, hunder, hkind, hstring, hopening, hquote, hstop, hoffset, hspan⟩

/-- A dot with nothing but trivia between it and a place. -/
structure IsDotBefore (text : String) (start : Nat) (dot : Locus) : Prop where
  mem : dot ∈ (locus text).leaves
  sign : dot.kind = .dot
  access : ∃ access, dot.parent = some access ∧ access.kind = .propertyAccess
  stop_le : dot.span.stop ≤ start
  between : ∀ other ∈ (locus text).leaves, dot.span.stop ≤ other.span.start →
    other.span.start < start → other.kind.isTrivia = true

/-- Where members are offered, the dot in front of them is the one of the access. -/
theorem exists_dot {finding : Context.Finding}
    (h : ((locus text).vicinity offset).memberAccess = some finding) :
    ∃ dot, finding.node.tokenOf .dot = some dot ∧
      IsDotBefore text (replaced text offset).start dot := by
  simp only [Vicinity.memberAccess, bind, Option.bind_eq_some_iff, Option.some.injEq] at h
  obtain ⟨access, hin, hfound⟩ := h
  obtain ⟨dot, hbefore, hsign, hparent, haccess⟩ := Vicinity.beforeIn_eq_some hin
  rw [List.mem_singleton] at haccess
  have hnode : finding.node = access := by
    rw [← hfound, Vicinity.found]
    split <;> rfl
  obtain ⟨last, honLine⟩ := exists_beforeOnLine hbefore
  have hbefore' := hbefore
  rw [before_vicinity, honLine] at hbefore'
  have hleaf := (skipBack_eq_some (of_beforeOnLine honLine).1 hbefore').1
  obtain ⟨parent, hunder, hchild⟩ := exists_parent hleaf
  obtain rfl : access = parent :=
    Option.some.inj (hparent.symm.trans (Locus.parent_of_mem_children hchild))
  have hline := not_newline_of_memberAccess honLine hbefore hsign hunder haccess hchild
  obtain rfl := eq_of_beforeOnLine honLine hbefore hline
  obtain ⟨-, -, hstart, -, hbetween⟩ := of_beforeOnLine honLine
  refine ⟨dot, hnode ▸ tokenOf_dot hunder haccess hchild hsign, hleaf, hsign,
    ⟨access, hparent, haccess⟩, ?_, hbetween⟩
  obtain ⟨left, right, hsplit⟩ := List.append_of_mem hleaf
  obtain ⟨before, part, after, hparts, hleft, htakes, -⟩ := exists_parts_of_leaves hsplit
  have hword : dot.kind.isWord = false := by rw [hsign]; rfl
  have hkind : part.1 = .dot := (htakes.kind_eq hword).trans hsign
  have hmem : part ∈ Lexer.cutLeaves [] text.toList := by simp [hparts]
  have hdot : part.1.sign = some '.' := by rw [hkind]; rfl
  obtain ⟨hdotStart, hdotStop⟩ := size_of_leaves hsplit hleft htakes
  have hsize : part.2.utf8ByteSize = 1 := by rw [Lexer.text_of_sign hmem hdot]; rfl
  omega

theorem replaced_bounds (h : Bytes.isBoundary offset text = true) :
    (replaced text offset).start ≤ offset ∧ offset ≤ (replaced text offset).stop ∧
      (replaced text offset).stop ≤ text.utf8ByteSize ∧
      ((replaced text offset).isEmpty = true → replaced text offset = .empty offset) := by
  rcases replaced_cases text offset with ⟨hempty, -⟩ | ⟨word, hword, -, hspan, hstart, hstop⟩
  · rw [hempty]
    exact ⟨Nat.le_refl _, Nat.le_refl _, Bytes.le_of_isBoundary h, fun _ => rfl⟩
  · have hcontains := Span.contains_iff.1
      ((Locus.mem_leaves_iff.1 hword).1.contains (located_locus text))
    rw [span_locus] at hcontains
    rw [← hspan]
    refine ⟨Nat.le_of_lt hstart, hstop, hcontains.2, fun hnone => ?_⟩
    have hne := start_lt_stop hword
    simp only [Span.isEmpty, decide_eq_true_eq] at hnone
    omega

/-- The word at the cursor is on one line. -/
theorem onLine_replaced (text : String) (offset : Nat) : OnLine text offset (replaced text offset) := by
  rcases replaced_cases text offset with ⟨hempty, -⟩ | ⟨word, hword, hisWord, hspan, hstart, hstop⟩
  · rw [hempty]
    intro before c after htext hbreak
    simp only [Span.empty]
    omega
  · rw [← hspan]
    refine onLine_of_leaves fun leaf hleaf hbefore hafter hkind => ?_
    obtain rfl : leaf = word := by
      rcases eq_or_apart hleaf hword with heq | hlt | hlt
      · exact heq
      · omega
      · omega
    rw [Kind.not_isWord_of_spansLines hkind] at hisWord
    cases hisWord

/-- A comment between two places that goes over the end of a line. -/
def BreaksBetween (text : String) (start stop : Nat) : Prop :=
  ∃ comment ∈ (locus text).leaves, comment.kind = .blockComment ∧ start ≤ comment.span.start ∧
    comment.span.stop ≤ stop ∧ ∃ c ∈ comment.text.toList, Lexer.isLineBreak c = true

/-- Between the dot and the cursor, nothing but a comment goes over the end of a line. -/
theorem onLine_or_breaksBetween (hcomment : (locus text).isCommentAt offset = false)
    (hboundary : Bytes.isBoundary offset text = true)
    (hdot : IsDotBefore text (replaced text offset).start dot) :
    OnLine text offset dot.span ∨
      BreaksBetween text dot.span.stop (replaced text offset).start := by
  by_cases hbreaks : BreaksBetween text dot.span.stop (replaced text offset).start
  · exact .inr hbreaks
  · refine .inl (onLine_of_leaves fun leaf hleaf hafter hbefore hlines c hc => ?_)
    obtain ⟨hstart, hstop, -, -⟩ := replaced_bounds hboundary
    have hle := hdot.stop_le
    have hne := start_lt_stop hdot.mem
    have hdotStop : dot.span.stop ≤ leaf.span.start := by
      rcases eq_or_apart hleaf hdot.mem with rfl | hlt | hlt
      · rw [hdot.sign] at hlines
        cases hlines
      · omega
      · exact hlt
    have hfront : leaf.span.start < (replaced text offset).start := by
      rcases replaced_cases text offset with ⟨hempty, -⟩ | ⟨word, hword, hisWord, hspan, hin⟩
      · rw [hempty] at hle ⊢
        simp only [Span.empty] at hle ⊢
        omega
      · rcases eq_or_apart hleaf hword with rfl | hlt | hlt
        · rw [Kind.not_isWord_of_spansLines hlines] at hisWord
          cases hisWord
        · have := start_lt_stop hleaf
          rw [← hspan]
          omega
        · omega
    have hkind := Kind.eq_blockComment_of_isTrivia (hdot.between leaf hleaf hdotStop hfront) hlines
    have hleafStop : leaf.span.stop ≤ (replaced text offset).start := by
      rcases replaced_cases text offset with ⟨hempty, -⟩ | ⟨word, hword, hisWord, hspan, hin⟩
      · rw [hempty] at hfront ⊢
        by_contra hinside
        rw [Nat.not_le] at hinside
        have hend := ((closed_of_isCommentAt hcomment hleaf hfront (Nat.le_of_lt hinside)).2 hkind).1
        exact absurd hend (Nat.ne_of_lt hinside)
      · rw [← hspan] at hfront ⊢
        rcases eq_or_apart hleaf hword with rfl | hlt | hlt
        · omega
        · exact hlt
        · have := start_lt_stop hword
          omega
    by_contra hbreak
    rw [Bool.not_eq_false] at hbreak
    exact hbreaks ⟨leaf, hleaf, hkind, hdotStop, hleafStop, c, hc, hbreak⟩

end Document

namespace Completion

variable {completion : Completion} {suggestion : Suggestion} {offset : Nat}

/-- A suggestion that names no bytes to replace and edits nothing else. -/
def IsBare (suggestion : Suggestion) : Prop :=
  suggestion.replacement = none ∧ suggestion.additionalEdits = []

theorem isBare_function (settings : Settings) (builtin : Builtin) :
    IsBare (function settings builtin) := by
  unfold function
  dsimp only
  split
  · exact ⟨rfl, rfl⟩
  · split <;> exact ⟨rfl, rfl⟩

theorem isBare_snippetOr {settings : Settings} (h : IsBare suggestion) (snippet plain : String) :
    IsBare (snippetOr settings suggestion snippet plain) := by
  unfold snippetOr
  split <;> exact h

theorem isBare_propertyKey (settings : Settings) (member : Member) :
    IsBare (propertyKey settings member) := by
  unfold propertyKey
  dsimp only
  split
  · exact ⟨rfl, rfl⟩
  · split <;> exact ⟨rfl, rfl⟩

theorem isBare_of_mem_valueHints {settings : Settings} {shape : Shape}
    (h : suggestion ∈ valueHints settings shape) : IsBare suggestion := by
  unfold valueHints at h
  split at h
  · rw [List.mem_singleton.1 h]
    exact isBare_snippetOr ⟨rfl, rfl⟩ _ _
  · rw [List.mem_singleton.1 h]
    exact isBare_snippetOr ⟨rfl, rfl⟩ _ _
  · obtain ⟨value, -, rfl⟩ := List.mem_map.1 h
    exact ⟨rfl, rfl⟩
  · obtain ⟨value, -, rfl⟩ := List.mem_map.1 h
    exact ⟨rfl, rfl⟩
  · cases h

theorem isBare_of_mem_expressions {arrayStart : Bool}
    (h : suggestion ∈ completion.expressions arrayStart) : IsBare suggestion := by
  unfold expressions at h
  rw [List.mem_append, List.mem_append] at h
  rcases h with (h | h) | h
  · obtain ⟨symbol, -, rfl⟩ := List.mem_map.1 h
    exact ⟨rfl, rfl⟩
  · obtain ⟨builtin, -, rfl⟩ := List.mem_map.1 h
    exact isBare_function _ _
  · split at h
    · obtain ⟨keyword, -, rfl⟩ := List.mem_map.1 h
      exact ⟨rfl, rfl⟩
    · cases h

theorem isBare_of_mem_resourceBodies (h : suggestion ∈ completion.resourceBodies) :
    IsBare suggestion := by
  have hblank : ∀ settings snippet plain, IsBare (snippetOr settings
      ((Suggestion.ofLabel "\x7b\x7d" .snippet).withDetail "Empty body") snippet plain) :=
    fun settings snippet plain => isBare_snippetOr ⟨rfl, rfl⟩ snippet plain
  unfold resourceBodies at h
  dsimp only at h
  split at h
  · rw [List.mem_singleton.1 h]
    exact hblank _ _ _
  · split at h
    · rw [List.mem_singleton.1 h]
      exact hblank _ _ _
    · rcases List.mem_cons.1 h with rfl | h
      · exact hblank _ _ _
      · rw [List.mem_singleton.1 h]
        exact ⟨rfl, rfl⟩

/-- Away from the types of resources and from members, nothing but what is written is told. -/
theorem isBare_of_mem_raw (htype : completion.context.kind ≠ .resourceType)
    (hmember : completion.context.kind ≠ .memberAccess) (h : suggestion ∈ completion.raw) :
    IsBare suggestion := by
  unfold raw at h
  split at h
  · contradiction
  · unfold decorators at h
    split at h
    · obtain ⟨builtin, -, rfl⟩ := List.mem_map.1 h
      exact isBare_function _ _
    · cases h
  · obtain ⟨keyword, -, rfl⟩ := List.mem_map.1 h
    exact ⟨rfl, rfl⟩
  · obtain ⟨name, -, rfl⟩ := List.mem_map.1 h
    exact ⟨rfl, rfl⟩
  · unfold propertyKeys at h
    split at h
    · cases h
    · obtain ⟨member, -, rfl⟩ := List.mem_map.1 h
      exact isBare_propertyKey _ _
  · unfold propertyValues at h
    rcases List.mem_append.1 h with h | h
    · split at h
      · cases h
      · exact isBare_of_mem_valueHints h
    · exact isBare_of_mem_expressions h
  · contradiction
  · exact isBare_of_mem_resourceBodies h
  · obtain ⟨keyword, -, rfl⟩ := List.mem_map.1 h
    exact ⟨rfl, rfl⟩
  · exact isBare_of_mem_expressions h

/-- What a suggestion replaces is up to its context, unless it is the type of a resource; nothing
else is edited but the dot in front of a member. -/
theorem of_mem_raw (h : suggestion ∈ completion.raw) :
    IsBare suggestion ∨
      suggestion.replacement = some completion.context.replacement ∧
        suggestion.additionalEdits = [] ∨
      completion.context.kind = .memberAccess ∧ suggestion.replacement = none ∧
        ∃ dot, completion.context.node.tokenOf .dot = some dot ∧
          suggestion.additionalEdits = [⟨dot.span, ""⟩] := by
  by_cases htype : completion.context.kind = .resourceType
  · rw [raw, htype] at h
    obtain ⟨id, -, rfl⟩ := List.mem_map.1 h
    exact .inr (.inl ⟨rfl, rfl⟩)
  by_cases hmember : completion.context.kind = .memberAccess
  · rw [raw, hmember] at h
    dsimp only [members] at h
    split at h
    · cases h
    · obtain ⟨member, -, rfl⟩ := List.mem_map.1 h
      unfold Completion.member
      dsimp only
      split
      · exact .inl ⟨rfl, rfl⟩
      · split
        · exact .inl ⟨rfl, rfl⟩
        · exact .inr (.inr ⟨hmember, rfl, _, ‹_›, rfl⟩)
  · exact .inl (isBare_of_mem_raw htype hmember h)

theorem target_normalize {replacement : Span} {size : Nat}
    (hempty : replacement.isEmpty = true → replacement = .empty offset)
    (hsize : replacement.start ≤ replacement.stop ∧ replacement.stop ≤ size)
    (h : suggestion.replacement = none ∨ suggestion.replacement = some replacement) :
    ((placed replacement suggestion).normalize size).target offset = replacement := by
  have hclamp := Span.clamp_eq hsize.1 hsize.2
  unfold placed
  split
  · exact hclamp
  · rename_i hkept
    rcases h with hnone | hsome
    · have hnothing : replacement.isEmpty = true := by simpa [hnone] using hkept
      simp only [Suggestion.target, Suggestion.normalize, hnone, Option.map_none,
        Option.getD_none, ← hempty hnothing]
    · simp only [Suggestion.target, Suggestion.normalize, hsome, Option.map_some,
        Option.getD_some, hclamp]

theorem exists_mem_raw_of_resourceType (completion : Completion)
    (hkind : completion.context.kind = .resourceType) (id : String)
    (hid : id ∈ completion.typing.types.available completion.context.typed)
    (hmatches : completion.matchesTyped id = true) :
    ∃ suggestion ∈ completion.raw, suggestion.isSnippet = false := by
  unfold raw
  rw [hkind]
  exact ⟨_, List.mem_map_of_mem (List.mem_filter.2 ⟨hid, hmatches⟩), rfl⟩

theorem exists_mem_suggestions (h : suggestion ∈ completion.raw)
    (hwanted : suggestion.isSnippet = false) (size : Nat) :
    ∃ suggestion, suggestion ∈ completion.suggestions size := by
  have hkept : suggestion ∈ completion.raw.filter fun suggestion =>
      completion.settings.snippets || !suggestion.isSnippet :=
    List.mem_filter.2 ⟨h, by simp [hwanted]⟩
  have hexists : ∃ raw ∈ distinctBy Suggestion.label _, raw.label = suggestion.label :=
    exists_mem_distinctBy hkept
  obtain ⟨raw, hraw, -⟩ := hexists
  exact ⟨_, mem_suggestions_iff.2 ⟨raw, hraw, rfl⟩⟩

theorem additionalEdits_normalize (replacement : Span) (suggestion : Suggestion) (size : Nat) :
    ((placed replacement suggestion).normalize size).additionalEdits =
      suggestion.additionalEdits.map fun edit =>
        ⟨edit.span.clamp size, Suggestion.unifyLines edit.newText⟩ := by
  unfold placed
  split <;> rfl

end Completion

namespace Document

variable {text : String} {offset : Nat}

/-- What is replaced lies around the cursor. -/
theorem replacement_cases {context : Context} (hboundary : Bytes.isBoundary offset text = true)
    (hcontext : Context.at? (locus text) text offset = some context) :
    (OnLine text offset context.replacement ∨ IsTypeString text offset context.replacement) ∧
      context.replacement.start ≤ context.replacement.stop ∧
      context.replacement.stop ≤ text.utf8ByteSize ∧
      (context.replacement.isEmpty = true → context.replacement = .empty offset) ∧
      (context.kind = .memberAccess → ∃ dot, context.node.tokenOf .dot = some dot ∧
        IsDotBefore text context.replacement.start dot ∧ (OnLine text offset dot.span ∨
          BreaksBetween text dot.span.stop context.replacement.start)) := by
  obtain ⟨finding, hfinding, hkind, hnode, hreplacement⟩ := exists_finding hcontext
  rw [← hkind, ← hnode, ← hreplacement]
  rcases Vicinity.exists_found hfinding with hstring | ⟨kind, node, hfound, hmember⟩
  · have htype := isTypeString_of_insideTypeString hstring
    obtain ⟨typeNode, string, opening, hunder, hresource, hnode, hfirst, -, -, -, hspan⟩ := htype
    have hchild := (List.mem_filter.1 (List.mem_of_find?_eq_some hnode)).1
    obtain ⟨-, quote, hquote, -, htoken, -⟩ :=
      (hunder.tidy (tidy_locus text)).children_of_resourceType hresource hchild
    have hbelow := hunder.child hchild
    have hleaf : quote ∈ (locus text).leaves := Locus.mem_leaves_iff.2 ⟨hbelow.child hquote, htoken⟩
    have hne := start_lt_stop hleaf
    have hinside := Span.contains_iff.1
      ((hbelow.located (located_locus text)).of_mem_children hquote).2.1
    have hcontains := Span.contains_iff.1 (hbelow.contains (located_locus text))
    rw [span_locus] at hcontains
    have hstop : string.span.stop ≤ text.utf8ByteSize := hcontains.2
    refine ⟨.inr (isTypeString_of_insideTypeString hstring), ?_, ?_, fun hempty => ?_, fun hmembers => ?_⟩
    · rw [← hspan]
      omega
    · rw [← hspan]
      exact hstop
    · rw [← hspan, Span.isEmpty, decide_eq_true_eq] at hempty
      omega
    · rw [Vicinity.kind_insideTypeString hstring] at hmembers
      cases hmembers
  · have hspan : finding.replacement = replaced text offset := by
      rw [← hfound, Vicinity.replacement_found]
      rfl
    obtain ⟨hstart, hstop, hsize, hempty⟩ := replaced_bounds hboundary
    rw [hspan]
    refine ⟨.inl (onLine_replaced text offset), by omega, hsize, hempty, fun hmembers => ?_⟩
    rw [← hfound, Vicinity.kind_found] at hmembers
    obtain ⟨dot, hdot, hbefore⟩ := exists_dot (hmember hmembers)
    exact ⟨dot, hdot, hbefore,
      onLine_or_breaksBetween (isCommentAt_of_context hcontext) hboundary hbefore⟩

/-- All suggestions replace the bytes that their context tells. -/
theorem target_of_mem_suggestions {completion : Completion} {suggestion : Suggestion}
    (hboundary : Bytes.isBoundary offset text = true)
    (hcontext : Context.at? (locus text) text offset = some completion.context)
    (hmem : suggestion ∈ completion.suggestions text.utf8ByteSize) :
    suggestion.target offset = completion.context.replacement := by
  obtain ⟨raw, hraw, rfl⟩ := Completion.mem_suggestions_iff.1 hmem
  obtain ⟨-, hle, hsize, hempty, -⟩ := replacement_cases hboundary hcontext
  refine Completion.target_normalize hempty ⟨hle, hsize⟩ ?_
  rcases Completion.of_mem_raw (List.mem_filter.1 ((distinctBy_sublist _ _).subset hraw)).1 with
    ⟨hnone, -⟩ | ⟨hsome, -⟩ | ⟨-, hnone, -⟩
  · exact .inl hnone
  · exact .inr hsome
  · exact .inl hnone

/-- Where there are suggestions, they are made from a context. -/
theorem exists_context {types : Provider} {settings : Settings} {suggestions : List Suggestion}
    {suggestion : Suggestion} (h : completionsIn text offset types settings = .ok suggestions)
    (hmem : suggestion ∈ suggestions) :
    Bytes.isBoundary offset text = true ∧ ∃ context,
      Context.at? (locus text) text offset = some context ∧
        suggestion ∈ Completion.suggestions
          ⟨context, ⟨locus text, .ofRoot (locus text), types⟩, settings⟩ text.utf8ByteSize := by
  unfold completionsIn Analysis.completions at h
  cases hcheck : (Analysis.ofText text).check offset with
  | error cause =>
      rw [hcheck] at h
      cases h
  | ok =>
      have hboundary : Bytes.isBoundary offset text = true := by
        unfold Analysis.check at hcheck
        split at hcheck
        · cases hcheck
        · split at hcheck
          · assumption
          · cases hcheck
      refine ⟨hboundary, ?_⟩
      cases hcontext : Context.at? (locus text) text offset with
      | none =>
          have hnone : (Analysis.ofText text).context? offset = none := hcontext
          rw [hcheck, hnone] at h
          cases h
          cases hmem
      | some context =>
          have hok := completionsIn_eq_ok types settings hboundary hcontext
          unfold completionsIn Analysis.completions at hok
          rw [hok] at h
          cases h
          exact ⟨context, rfl, hmem⟩

end Document

end Caret
