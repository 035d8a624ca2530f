import Caret.Proofs.Context.Edits
import Caret.Proofs.Document.Places

/-!
# Suggestions that can be picked

What a suggestion replaces is around the cursor, and nothing else that it edits touches that. All of
it is made of whole characters of the text. What is typed of a name is the text between the start of
what is replaced and the cursor.
-/

namespace Caret

/-- A span of whole characters of a text. -/
structure Span.IsIn (text : String) (span : Span) : Prop where
  start_le_stop : span.start ≤ span.stop
  stop_le : span.stop ≤ text.utf8ByteSize
  isBoundary_start : Bytes.isBoundary span.start text = true
  isBoundary_stop : Bytes.isBoundary span.stop text = true

/-- Two spans with no byte in common, one in front of the other. -/
def Span.Apart (span other : Span) : Prop := span.stop ≤ other.start ∨ other.stop ≤ span.start

/-- A suggestion that can be picked at an offset of a text. -/
structure Suggestion.Applies (text : String) (offset : Nat) (suggestion : Suggestion) : Prop where
  start_le : (suggestion.target offset).start ≤ offset
  le_stop : offset ≤ (suggestion.target offset).stop
  isIn : (suggestion.target offset).IsIn text
  edits_isIn : ∀ edit ∈ suggestion.additionalEdits, edit.span.IsIn text
  edits_apart : suggestion.additionalEdits.Pairwise fun edit other => edit.span.Apart other.span
  target_apart : ∀ edit ∈ suggestion.additionalEdits, edit.span.Apart (suggestion.target offset)

namespace Document

variable {text : String} {offset : Nat} {node : Locus} {context : Context}

/-- A place in the tree of a text is made of whole characters. -/
theorem isIn_of_under (h : Locus.Under (locus text) node) : node.span.IsIn text := by
  obtain ⟨hstart, hstop⟩ := isBoundary_of_under h
  exact ⟨(h.located (located_locus text)).start_le_stop, Bytes.le_of_isBoundary hstop, hstart, hstop⟩

theorem isIn_of_mem_leaves (h : node ∈ (locus text).leaves) : node.span.IsIn text :=
  isIn_of_under (Locus.mem_leaves_iff.1 h).1

theorem isIn_empty (h : Bytes.isBoundary offset text = true) : (Span.empty offset).IsIn text :=
  ⟨Nat.le_refl offset, Bytes.le_of_isBoundary h, h, h⟩

/-- A quote that opens a string at the start of a span, in front of an offset. -/
structure IsQuoteOf (text : String) (offset : Nat) (span : Span) (quote : Locus) : Prop where
  mem : quote ∈ (locus text).leaves
  kind_eq : quote.kind = .stringStart
  start_eq : quote.span.start = span.start
  stop_le : quote.span.stop ≤ offset

theorem isQuoteOf_firstToken {typeNode string opening : Locus}
    (hunder : Locus.Under (locus text) typeNode) (hkind : typeNode.kind = .resourceType)
    (hstring : typeNode.nodeOf .string = some string) (hfirst : string.firstToken = some opening)
    (hquote : opening.kind = .stringStart) (hstop : opening.span.stop ≤ offset) :
    string.span.IsIn text ∧ IsQuoteOf text offset string.span opening := by
  have hchild := (List.mem_filter.1 (List.mem_of_find?_eq_some hstring)).1
  obtain ⟨-, quote, hmem, hquoteFirst, htoken, hleft, -⟩ :=
    (hunder.tidy (tidy_locus text)).children_of_resourceType hkind hchild
  obtain rfl : opening = quote := Option.some.inj (hfirst.symm.trans hquoteFirst)
  have hbelow := hunder.child hchild
  have hstart : opening.span.start = string.span.start :=
    ((hbelow.located (located_locus text)).of_mem_children hmem).2.2.1 hleft
  exact ⟨isIn_of_under hbelow, Locus.mem_leaves_iff.2 ⟨hbelow.child hmem, htoken⟩, hquote, hstart,
    hstop⟩

theorem isIn_replaced (h : Bytes.isBoundary offset text = true) :
    (replaced text offset).IsIn text := by
  rcases replaced_cases text offset with ⟨hempty, -⟩ | ⟨word, hword, -, hspan, -⟩
  · rw [hempty]
    exact isIn_empty h
  · rw [← hspan]
    exact isIn_of_mem_leaves hword

/-- The word at the cursor is not the string of a type. -/
theorem not_isTypeString_replaced : ¬IsTypeString text offset (replaced text offset) := by
  rintro ⟨typeNode, string, opening, hunder, hkind, hstring, hfirst, hquote, hstop, -, hspan⟩
  obtain ⟨-, hquote⟩ := isQuoteOf_firstToken hunder hkind hstring hfirst hquote hstop
  have hstart := hquote.start_eq
  have hne := start_lt_stop hquote.mem
  rw [hspan] at hstart
  rcases replaced_cases text offset with ⟨hempty, -⟩ | ⟨word, hword, hisWord, hspan, -, -⟩
  · rw [hempty] at hstart
    simp only [Span.empty] at hstart
    omega
  · rw [← hspan] at hstart
    have hword' := start_lt_stop hword
    rcases eq_or_apart hquote.mem hword with rfl | hlt | hlt
    · rw [hquote.kind_eq] at hisWord
      cases hisWord
    · omega
    · omega

/-- What is found replaces the string of a type from its quote on, or the word at the cursor, and
what is typed of it starts behind the quote or with the word. -/
theorem of_finding {finding : Context.Finding}
    (h : ((locus text).vicinity offset).finding = some finding) :
    (IsTypeString text offset finding.replacement ∧ finding.replacement.IsIn text ∧
      ∃ quote, IsQuoteOf text offset finding.replacement quote ∧
        finding.typedFrom = quote.span.stop) ∨
    finding.replacement = replaced text offset ∧ finding.typedFrom = (replaced text offset).start := by
  rcases Vicinity.exists_found h with hstring | ⟨kind, node, rfl, -⟩
  · obtain ⟨typeNode, string, opening, hunder, hkind, hnode, hfirst, hquote, hstop, -, hspan, hfrom⟩ :=
      exists_of_insideTypeString hstring
    obtain ⟨hin, hopens⟩ := isQuoteOf_firstToken hunder hkind hnode hfirst hquote hstop
    rw [hspan] at hin hopens
    exact .inl ⟨isTypeString_of_insideTypeString hstring, hin, opening, hopens, hfrom.symm⟩
  · right
    unfold replaced Vicinity.found
    cases ((locus text).vicinity offset).word <;> exact ⟨rfl, rfl⟩

/-- What a context tells of the text comes from what is found around the offset. -/
theorem exists_finding_typed (h : Context.at? (locus text) text offset = some context) :
    ∃ finding, ((locus text).vicinity offset).finding = some finding ∧
      finding.replacement = context.replacement ∧
        context.typed = (Bytes.slice text (min finding.typedFrom offset) offset).getD "" := by
  unfold Context.at? Context.classify at h
  split at h
  · cases h
  · obtain ⟨finding, hfinding, hmade⟩ := Option.bind_eq_some_iff.1 h
    cases hmade
    exact ⟨finding, hfinding, rfl, rfl⟩

/-- The text from where a context starts to read to the offset is what is typed: from the start of
what is replaced, or from behind the quote of the string of a type. -/
structure IsTyped (text : String) (offset : Nat) (context : Context) : Prop where
  of_word : ¬IsTypeString text offset context.replacement →
    Bytes.slice text context.replacement.start offset = some context.typed
  of_string : IsTypeString text offset context.replacement →
    ∃ quote, IsQuoteOf text offset context.replacement quote ∧
      Bytes.slice text quote.span.stop offset = some context.typed

theorem isTyped_of_context (hboundary : Bytes.isBoundary offset text = true)
    (h : Context.at? (locus text) text offset = some context) : IsTyped text offset context := by
  have hslice : ∀ start, start ≤ offset → Bytes.isBoundary start text = true →
      Bytes.slice text start offset =
        some ((Bytes.slice text (min start offset) offset).getD "") := by
    intro start hle hstart
    obtain ⟨between, hbetween⟩ := Bytes.exists_slice hstart hboundary hle
    rw [Nat.min_eq_left hle, hbetween, Option.getD_some]
  obtain ⟨finding, hfinding, hreplacement, htyped⟩ := exists_finding_typed h
  have hcases := of_finding hfinding
  rw [hreplacement] at hcases
  rcases hcases with ⟨hstring, -, quote, hquote, hfrom⟩ | ⟨hspan, hfrom⟩
  · refine ⟨fun hnot => absurd hstring hnot, fun _ => ⟨quote, hquote, ?_⟩⟩
    rw [htyped, hfrom]
    exact hslice _ hquote.stop_le (isIn_of_mem_leaves hquote.mem).isBoundary_stop
  · refine ⟨fun _ => ?_, fun hstring => ?_⟩
    · rw [htyped, hfrom, hspan]
      exact hslice _ (replaced_bounds hboundary).1 (isIn_replaced hboundary).isBoundary_start
    · rw [hspan] at hstring
      exact absurd hstring not_isTypeString_replaced

/-- What a context takes the place of is around the offset. -/
theorem isIn_replacement (hboundary : Bytes.isBoundary offset text = true)
    (h : Context.at? (locus text) text offset = some context) :
    context.replacement.IsIn text ∧ context.replacement.start ≤ offset ∧
      offset ≤ context.replacement.stop := by
  obtain ⟨finding, hfinding, hreplacement, -⟩ := exists_finding_typed h
  rw [← hreplacement]
  rcases of_finding hfinding with ⟨hstring, hin, quote, hquote, -⟩ | ⟨hspan, -⟩
  · obtain ⟨typeNode, string, opening, -, -, -, -, -, -, hoffset, hspan⟩ := hstring
    have hne := start_lt_stop hquote.mem
    have hstart := hquote.start_eq
    have hstop := hquote.stop_le
    rw [hspan] at hoffset
    exact ⟨hin, by omega, hoffset⟩
  · obtain ⟨hstart, hstop, -⟩ := replaced_bounds hboundary
    rw [hspan]
    exact ⟨isIn_replaced hboundary, hstart, hstop⟩

/-- What is made of a context can be picked. -/
theorem applies_of_mem_suggestions {completion : Completion} {suggestion : Suggestion}
    (hboundary : Bytes.isBoundary offset text = true)
    (hcontext : Context.at? (locus text) text offset = some completion.context)
    (hmem : suggestion ∈ completion.suggestions text.utf8ByteSize) :
    suggestion.Applies text offset := by
  have htarget := target_of_mem_suggestions hboundary hcontext hmem
  obtain ⟨hin, hstart, hstop⟩ := isIn_replacement hboundary hcontext
  have hedits : suggestion.additionalEdits = [] ∨
      ∃ dot, IsDotBefore text completion.context.replacement.start dot ∧
        suggestion.additionalEdits = [⟨dot.span, ""⟩] := by
    obtain ⟨raw, hraw, rfl⟩ := Completion.mem_suggestions_iff.1 hmem
    rw [Completion.additionalEdits_normalize]
    rcases Completion.of_mem_raw (List.mem_filter.1 ((distinctBy_sublist _ _).subset hraw)).1 with
      ⟨-, hnone⟩ | ⟨-, hnone⟩ | ⟨hkind, -, dot, hdot, hone⟩
    · exact .inl (by rw [hnone]; rfl)
    · exact .inl (by rw [hnone]; rfl)
    · obtain ⟨-, -, -, -, hmember⟩ := replacement_cases hboundary hcontext
      obtain ⟨found, hfound, hbefore, -⟩ := hmember hkind
      obtain rfl : dot = found := Option.some.inj (hdot.symm.trans hfound)
      have hdotIn := isIn_of_mem_leaves hbefore.mem
      refine .inr ⟨dot, hbefore, ?_⟩
      rw [hone, List.map_singleton, Span.clamp_eq hdotIn.start_le_stop hdotIn.stop_le]
      rfl
  rw [← htarget] at hin hstart hstop hedits
  refine ⟨hstart, hstop, hin, ?_, ?_, ?_⟩
  all_goals
    rcases hedits with hnone | ⟨dot, hbefore, hone⟩
    · simp [hnone]
  · simpa [hone] using isIn_of_mem_leaves hbefore.mem
  · simp [hone]
  · rw [hone, List.forall_mem_singleton]
    exact .inl hbefore.stop_le

end Document

open Document in
/-- Every suggestion can be picked, and what the context takes for typed is the text that stands
between the start of what is replaced and the cursor. -/
theorem applies_of_mem_completionsIn (text : String) (offset : Nat) (types : Provider)
    (settings : Settings) (hboundary : Bytes.isBoundary offset text = true) :
    ∃ suggestions, completionsIn text offset types settings = .ok suggestions ∧
      (∀ suggestion ∈ suggestions, suggestion.Applies text offset) ∧
      ∀ context, Context.at? (locus text) text offset = some context →
        IsTyped text offset context ∧
          ∀ suggestion ∈ suggestions, suggestion.target offset = context.replacement := by
  rw [completionsIn_eq types settings hboundary]
  refine ⟨_, rfl, fun suggestion hmem => ?_, fun context hcontext =>
    ⟨isTyped_of_context hboundary hcontext, fun suggestion hmem => ?_⟩⟩
  · cases hcontext : Context.at? (locus text) text offset with
    | none =>
        rw [hcontext] at hmem
        cases hmem
    | some context =>
        rw [hcontext] at hmem
        exact applies_of_mem_suggestions hboundary hcontext hmem
  · rw [hcontext] at hmem
    exact target_of_mem_suggestions hboundary hcontext hmem

open Document in
/-- A member that is no identifier is put in behind the cursor, and the dot in front is taken away. -/
theorem applies_indexed_member :
    Bytes.isBoundary 29 "var o = \x7b'a-b': 1\x7d\nvar y = o." = true ∧
      ∃ suggestions, completionsIn "var o = \x7b'a-b': 1\x7d\nvar y = o." 29
          Catalog.empty.provider {} = .ok suggestions ∧
        suggestions.map (fun suggestion =>
          (suggestion.target 29, suggestion.insertText, suggestion.additionalEdits)) =
            [(⟨29, 29⟩, "['a-b']", [⟨⟨28, 29⟩, ""⟩])] ∧
        (∀ suggestion ∈ suggestions,
          suggestion.Applies "var o = \x7b'a-b': 1\x7d\nvar y = o." 29) ∧
        ∀ context, Context.at? (locus "var o = \x7b'a-b': 1\x7d\nvar y = o.")
            "var o = \x7b'a-b': 1\x7d\nvar y = o." 29 = some context →
          IsTyped "var o = \x7b'a-b': 1\x7d\nvar y = o." 29 context ∧
            ∀ suggestion ∈ suggestions, suggestion.target 29 = context.replacement := by
  have hboundary : Bytes.isBoundary 29 "var o = \x7b'a-b': 1\x7d\nvar y = o." = true := by
    decide +kernel
  have hvalues : (completionsIn "var o = \x7b'a-b': 1\x7d\nvar y = o." 29
      Catalog.empty.provider {}).toOption.map (List.map fun suggestion =>
        (suggestion.target 29, suggestion.insertText, suggestion.additionalEdits)) =
          some [(⟨29, 29⟩, "['a-b']", [⟨⟨28, 29⟩, ""⟩])] := by decide +kernel
  obtain ⟨suggestions, hok, happlies, hcontext⟩ :=
    applies_of_mem_completionsIn _ 29 Catalog.empty.provider {} hboundary
  rw [hok] at hvalues
  exact ⟨hboundary, suggestions, hok, Option.some.inj hvalues, happlies, hcontext⟩

end Caret
