import Caret.Proofs.Context.Anchor
import Caret.Proofs.Context.Finish

/-!
# The names that are offered

Where an expression is offered, the suggestions for symbols are labelled with the names of the loops
whose bodies the cursor is in and of the declarations other than the one that is being written. A
loop is left out while the cursor resolves to the loop itself: in the white space right behind its
colon, say.
-/

namespace Caret

namespace Completion

variable {completion : Completion} {suggestion : Suggestion} {size : Nat}

/-- No hint for the value of a property is about a symbol or labelled with an identifier. -/
theorem of_mem_valueHints {settings : Settings} {shape : Shape}
    (h : suggestion ∈ valueHints settings shape) :
    suggestion.kind ≠ .symbol ∧ Identifier.isValid suggestion.label = false := by
  have hquote : ∀ text, Identifier.isValid (quote text) = false := by
    intro text
    simp [Identifier.isValid, quote, Quoted.quoteChars, Identifier.startsWith]
  have hsnippet : ∀ (label snippet plain : String) (detail : String),
      suggestion = snippetOr settings ((Suggestion.ofLabel label .snippet).withDetail detail)
        snippet plain → suggestion.kind = .snippet ∧ suggestion.label = label := by
    rintro label snippet plain detail rfl
    unfold snippetOr
    split <;> exact ⟨rfl, rfl⟩
  unfold valueHints at h
  split at h
  · obtain ⟨hkind, hlabel⟩ := hsnippet _ _ _ _ (List.mem_singleton.1 h)
    rw [hkind, hlabel]
    exact ⟨by decide, by decide +kernel⟩
  · obtain ⟨hkind, hlabel⟩ := hsnippet _ _ _ _ (List.mem_singleton.1 h)
    rw [hkind, hlabel]
    exact ⟨by decide, by decide +kernel⟩
  · obtain ⟨value, hvalue, rfl⟩ := List.mem_map.1 h
    refine ⟨by simp [Suggestion.ofLabel], ?_⟩
    simp only [List.mem_cons, List.not_mem_nil, or_false] at hvalue
    rcases hvalue with rfl | rfl <;> decide +kernel
  · obtain ⟨value, -, rfl⟩ := List.mem_map.1 h
    exact ⟨by simp [Suggestion.ofLabel, Suggestion.withDetail], hquote value⟩
  · cases h

theorem kind_function (settings : Settings) (builtin : Builtin) :
    (function settings builtin).kind = .function := by
  unfold function
  dsimp only
  split
  · rfl
  · split <;> rfl

theorem label_suggestion (symbol : Symbol) : symbol.suggestion.label = symbol.name := rfl

/-- Where an expression is written, the symbols come behind hints that are told apart from them by
their labels. -/
theorem exists_raw_eq (h : completion.context.kind.isExpr = true) :
    ∃ hints others, completion.raw = hints ++
        (completion.typing.scopes.visibleFrom completion.context.anchor).map Symbol.suggestion ++
          others ∧
      (∀ hint ∈ hints, hint.kind ≠ .symbol ∧ Identifier.isValid hint.label = false) ∧
      ∀ other ∈ others, other.kind ≠ .symbol := by
  have hexpressions : ∀ arrayStart, ∃ others, completion.expressions arrayStart =
      (completion.typing.scopes.visibleFrom completion.context.anchor).map Symbol.suggestion ++
        others ∧ ∀ other ∈ others, other.kind ≠ .symbol := by
    intro arrayStart
    refine ⟨_, List.append_assoc .., fun other hmem => ?_⟩
    rcases List.mem_append.1 hmem with hmem | hmem
    · obtain ⟨builtin, -, rfl⟩ := List.mem_map.1 hmem
      rw [kind_function]
      decide
    · have hkeyword : ∃ keyword : Keyword, keyword.suggestion = other := by
        cases arrayStart with
        | false => cases hmem
        | true =>
            obtain ⟨keyword, -, heq⟩ := List.mem_map.1 hmem
            exact ⟨keyword, heq⟩
      obtain ⟨keyword, rfl⟩ := hkeyword
      simp [Keyword.suggestion, Suggestion.ofLabel, Suggestion.withDetail]
  unfold raw
  split
  case h_6 =>
    obtain ⟨others, heq, hkinds⟩ := hexpressions false
    unfold propertyValues
    refine ⟨_, others, by rw [heq, List.append_assoc], fun hint hmem => ?_, hkinds⟩
    split at hmem
    · cases hmem
    · exact of_mem_valueHints hmem
  case h_10 arrayStart _ =>
    obtain ⟨others, heq, hkinds⟩ := hexpressions arrayStart
    exact ⟨[], others, by rw [heq, List.nil_append], by simp, hkinds⟩
  all_goals
    rename_i hkind
    rw [hkind] at h
    cases h

theorem mem_suggestions_iff :
    suggestion ∈ completion.suggestions size ↔
      ∃ raw ∈ distinctBy Suggestion.label (completion.raw.filter fun suggestion =>
        completion.settings.snippets || !suggestion.isSnippet),
        (placed completion.context.replacement raw).normalize size = suggestion :=
  mem_finish_iff

theorem kind_normalize_placed (replacement : Span) (suggestion : Suggestion) (size : Nat) :
    ((placed replacement suggestion).normalize size).kind = suggestion.kind ∧
      ((placed replacement suggestion).normalize size).label = suggestion.label :=
  have hgiven := givenOf_normalize_placed replacement suggestion size
  ⟨hgiven.kind, hgiven.label⟩

/-- The labels of the suggestions for symbols are the names of the symbols that are visible. -/
theorem exists_symbol_iff (h : completion.context.kind.isExpr = true)
    (hnames : ∀ symbol ∈ completion.typing.scopes.visibleFrom completion.context.anchor,
      Identifier.isValid symbol.name = true) (name : String) :
    (∃ suggestion ∈ completion.suggestions size,
      suggestion.kind = .symbol ∧ suggestion.label = name) ↔
      ∃ symbol ∈ completion.typing.scopes.visibleFrom completion.context.anchor,
        symbol.name = name := by
  obtain ⟨hints, others, hraw, hhints, hothers⟩ := exists_raw_eq h
  constructor
  · rintro ⟨suggestion, hmem, hkind, rfl⟩
    obtain ⟨raw, hraw', rfl⟩ := mem_suggestions_iff.1 hmem
    rw [(kind_normalize_placed _ _ _).1] at hkind
    rw [(kind_normalize_placed _ _ _).2]
    have hin := (List.mem_filter.1 ((distinctBy_sublist _ _).subset hraw')).1
    rw [hraw] at hin
    rcases List.mem_append.1 hin with hin | hin
    · rcases List.mem_append.1 hin with hin | hin
      · exact absurd hkind (hhints raw hin).1
      · obtain ⟨symbol, hsymbol, rfl⟩ := List.mem_map.1 hin
        exact ⟨symbol, hsymbol, (label_suggestion symbol).symm⟩
    · exact absurd hkind (hothers raw hin)
  · rintro ⟨symbol, hmem, rfl⟩
    have hkept : symbol.suggestion ∈ (hints ++ (completion.typing.scopes.visibleFrom
        completion.context.anchor).map Symbol.suggestion).filter fun suggestion =>
          completion.settings.snippets || !suggestion.isSnippet := by
      refine List.mem_filter.2 ⟨List.mem_append_right _ (List.mem_map_of_mem hmem), ?_⟩
      simp [Symbol.suggestion, Suggestion.isSnippet, Suggestion.ofLabel, Suggestion.withDetail]
    have hexists : ∃ raw ∈ distinctBy Suggestion.label _, raw.label = symbol.suggestion.label :=
      exists_mem_distinctBy hkept
    obtain ⟨raw, hfirst, hlabel⟩ := hexists
    have hin := (List.mem_filter.1 ((distinctBy_sublist _ _).subset hfirst)).1
    have hkind : raw.kind = .symbol := by
      rcases List.mem_append.1 hin with hin | hin
      · have hvalid := (hhints raw hin).2
        rw [hlabel, label_suggestion, hnames symbol hmem] at hvalid
        cases hvalid
      · obtain ⟨other, -, rfl⟩ := List.mem_map.1 hin
        rfl
    have hall : raw ∈ distinctBy Suggestion.label (completion.raw.filter fun suggestion =>
        completion.settings.snippets || !suggestion.isSnippet) := by
      obtain ⟨rest, hrest⟩ := distinctAfter_append Suggestion.label [] _ _
      rw [hraw, List.filter_append, distinctBy, hrest]
      exact List.mem_append_left _ hfirst
    refine ⟨_, mem_suggestions_iff.2 ⟨raw, hall, rfl⟩, ?_⟩
    rw [(kind_normalize_placed _ _ _).1, (kind_normalize_placed _ _ _).2]
    exact ⟨hkind, hlabel⟩

end Completion

namespace Document

variable {text : String} {offset : Nat} {node loop declaration : Locus}

theorem isValid_of_nameNode (h : Locus.Under (locus text) node) {name ident : Locus}
    (hname : node.nameNode = some name) (hident : name.ident = some ident) :
    Identifier.isValid ident.text = true := by
  have hmem := List.mem_of_find?_eq_some hname
  have hkind : name.kind = .name := by simpa using List.find?_some hname
  obtain ⟨hchild, hnode⟩ := List.mem_filter.1 hmem
  obtain ⟨other, hother, hvalid⟩ := ident_of_name (h.child hchild) hnode hkind
  rw [hident] at hother
  rwa [Option.some.inj hother]

theorem isValid_of_loopSymbol (h : loop ∈ loops text) {symbol : Symbol}
    (hsymbol : loop.loopSymbol = some symbol) : Identifier.isValid symbol.name = true := by
  unfold Locus.loopSymbol at hsymbol
  simp only [Option.bind_eq_bind, Option.bind_eq_some_iff, Option.some.injEq] at hsymbol
  obtain ⟨name, hname, ident, hident, rfl⟩ := hsymbol
  exact isValid_of_nameNode (mem_loops_iff.1 h).1 hname hident

theorem isValid_of_declaredSymbol (h : declaration ∈ (locus text).declarations) {symbol : Symbol}
    (hsymbol : declaration.declaredSymbol = some symbol) :
    Identifier.isValid symbol.name = true := by
  unfold Locus.declaredSymbol at hsymbol
  simp only [Option.bind_eq_bind, Option.bind_eq_some_iff, Option.some.injEq] at hsymbol
  obtain ⟨_, -, name, hname, ident, hident, rfl⟩ := hsymbol
  exact isValid_of_nameNode (.child .root (mem_declarations_iff.1 h).1) hname hident

/-- The names that are known at a node. -/
theorem exists_knownSymbol_iff {root : Locus} (node : Locus) (name : String) :
    (∃ symbol ∈ Locus.knownSymbols root node, symbol.name = name) ↔
      (∃ loop ∈ node.knownLoops, name ∈ loop.loopSymbol.map Symbol.name) ∨
        ∃ declaration ∈ Locus.otherDeclarations root node,
          name ∈ declaration.declaredSymbol.map Symbol.name := by
  have hfilter : ∀ (loci : List Locus) (symbol? : Locus → Option Symbol),
      (∃ symbol ∈ loci.filterMap symbol?, symbol.name = name) ↔
        ∃ locus ∈ loci, name ∈ (symbol? locus).map Symbol.name := by
    intro loci symbol?
    simp only [List.mem_filterMap, Option.mem_def, Option.map_eq_some_iff]
    grind
  rw [← hfilter, ← hfilter]
  constructor
  · rintro ⟨symbol, hmem, rfl⟩
    rcases List.mem_append.1 ((distinctBy_sublist _ _).subset hmem) with hmem | hmem
    · exact .inl ⟨symbol, hmem, rfl⟩
    · exact .inr ⟨symbol, hmem, rfl⟩
  · rintro (⟨symbol, hmem, rfl⟩ | ⟨symbol, hmem, rfl⟩)
    · exact exists_mem_distinctBy (List.mem_append_left _ hmem)
    · exact exists_mem_distinctBy (List.mem_append_right _ hmem)

end Document

open Document in
/-- Where an expression is offered, the suggestions for symbols are labelled with the names of the
loops in whose bodies the cursor is, other than the loop that is itself the place from which scopes
are looked up, and with the names of the declarations that do not hold the token in front. -/
theorem exists_symbol_completionsIn_iff (text : String) (offset : Nat) (types : Provider)
    (settings : Settings) (context : Context) (hboundary : Bytes.isBoundary offset text = true)
    (hcontext : Context.at? (locus text) text offset = some context)
    (hkind : context.kind.isExpr = true) :
    ∃ suggestions, completionsIn text offset types settings = .ok suggestions ∧ ∀ name,
      (∃ suggestion ∈ suggestions, suggestion.kind = .symbol ∧ suggestion.label = name) ↔
        (∃ loop ∈ loops text, loop.bodyHolds offset = true ∧ loop ≠ context.anchor ∧
          name ∈ loop.loopSymbol.map Symbol.name) ∨
        ∃ declaration ∈ (locus text).declarations,
          (∀ token ∈ significantBefore text offset, ¬Locus.Under declaration token) ∧
            name ∈ declaration.declaredSymbol.map Symbol.name := by
  obtain ⟨last, hawaits, hunder, hnode, hanchored⟩ := exists_anchored hcontext hkind
  have hvisible : (ScopeTable.ofRoot (locus text)).visibleFrom context.anchor =
      Locus.knownSymbols (locus text) context.anchor :=
    ScopeTable.visibleFrom_ofRoot (mem_descendants_iff.2 ⟨hunder, hnode⟩)
  refine ⟨_, completionsIn_eq_ok types settings hboundary hcontext, fun name => ?_⟩
  rw [Completion.exists_symbol_iff hkind ?_, hvisible, exists_knownSymbol_iff]
  · refine or_congr ?_ ?_
    · simp only [hanchored.mem_knownLoops_iff hawaits hunder hnode, and_assoc]
    · constructor
      · rintro ⟨declaration, hother, hname⟩
        have hmem := (List.mem_filter.1 hother).1
        rw [mem_otherDeclarations_iff hunder hnode hmem, hanchored.under_iff hawaits hunder hmem]
          at hother
        exact ⟨declaration, hmem, fun token htoken hbelow => hother ⟨token, htoken, hbelow⟩, hname⟩
      · rintro ⟨declaration, hmem, hapart, hname⟩
        refine ⟨declaration, ?_, hname⟩
        rw [mem_otherDeclarations_iff hunder hnode hmem, hanchored.under_iff hawaits hunder hmem]
        rintro ⟨token, htoken, hbelow⟩
        exact hapart token htoken hbelow
  · intro symbol hmem
    have hknown : symbol ∈ Locus.knownSymbols (locus text) context.anchor := hvisible ▸ hmem
    rcases List.mem_append.1 ((distinctBy_sublist _ _).subset hknown) with hin | hin
    · obtain ⟨loop, hloop, hsymbol⟩ := List.mem_filterMap.1 hin
      exact isValid_of_loopSymbol
        ((hanchored.mem_knownLoops_iff hawaits hunder hnode).1 hloop).1 hsymbol
    · obtain ⟨declaration, hdeclaration, hsymbol⟩ := List.mem_filterMap.1 hin
      exact isValid_of_declaredSymbol (List.mem_filter.1 hdeclaration).1 hsymbol

open Document in
/-- Right behind the colon of its header, a loop variable is not offered. -/
theorem not_offered_behind_colon :
    Bytes.isBoundary 21 "var xs = [for x in y: a]" = true ∧
      ∃ context, Context.at? (locus "var xs = [for x in y: a]") "var xs = [for x in y: a]" 21 =
        some context ∧ context.kind.isExpr = true ∧
        ∃ suggestions, completionsIn "var xs = [for x in y: a]" 21 Catalog.empty.provider {} =
            .ok suggestions ∧
          (∃ loop ∈ loops "var xs = [for x in y: a]", loop.bodyHolds 21 = true ∧
            "x" ∈ loop.loopSymbol.map Symbol.name) ∧
          ¬∃ suggestion ∈ suggestions, suggestion.kind = .symbol ∧ suggestion.label = "x" := by
  have hboundary : Bytes.isBoundary 21 "var xs = [for x in y: a]" = true := by decide +kernel
  have hcontext : ((Context.at? (locus "var xs = [for x in y: a]") "var xs = [for x in y: a]"
      21).map fun context => (context.kind.isExpr, context.anchor.ref)) =
        some (true, ⟨.forExpr, 9, 24⟩) := by decide +kernel
  have hloops : (loops "var xs = [for x in y: a]").map (fun loop =>
      (loop.ref, loop.bodyHolds 21, loop.loopSymbol.map Symbol.name)) =
        [(⟨.forExpr, 9, 24⟩, true, some "x")] := by decide +kernel
  have hvalue : ∀ loop ∈ loops "var xs = [for x in y: a]",
      (loop.ref, loop.bodyHolds 21, loop.loopSymbol.map Symbol.name) =
        (⟨.forExpr, 9, 24⟩, true, some "x") := fun loop hmem => by
    have hin := List.mem_map_of_mem (f := fun loop : Locus =>
      (loop.ref, loop.bodyHolds 21, loop.loopSymbol.map Symbol.name)) hmem
    rwa [hloops, List.mem_singleton] at hin
  have hdeclarations : (locus "var xs = [for x in y: a]").declarations.map (fun declaration =>
      declaration.declaredSymbol.map Symbol.name) = [some "xs"] := by decide +kernel
  obtain ⟨context, hat, hvalues⟩ := Option.map_eq_some_iff.1 hcontext
  simp only [Prod.mk.injEq] at hvalues
  obtain ⟨hkind, href⟩ := hvalues
  obtain ⟨suggestions, hok, hlabels⟩ := exists_symbol_completionsIn_iff "var xs = [for x in y: a]" 21
    Catalog.empty.provider {} context hboundary hat hkind
  refine ⟨hboundary, context, hat, hkind, suggestions, hok, ?_, ?_⟩
  · have hmem : (⟨.forExpr, 9, 24⟩, true, some "x") ∈ (loops "var xs = [for x in y: a]").map (fun loop =>
      (loop.ref, loop.bodyHolds 21, loop.loopSymbol.map Symbol.name)) := by
      rw [hloops]
      exact List.mem_cons_self
    obtain ⟨loop, hloop, hvalues⟩ := List.mem_map.1 hmem
    simp only [Prod.mk.injEq] at hvalues
    exact ⟨loop, hloop, hvalues.2⟩
  · rw [hlabels]
    rintro (⟨loop, hloop, -, hne, -⟩ | ⟨declaration, hmem, -, hname⟩)
    · have href' : loop.ref = ⟨.forExpr, 9, 24⟩ := (Prod.mk.inj (hvalue loop hloop)).1
      obtain ⟨hunder, hisNode, hisLoop⟩ := mem_loops_iff.1 hloop
      obtain ⟨last, -, hanchor, hnode, -⟩ := exists_anchored hat hkind
      exact hne (eq_of_ref_eq hunder hisNode hanchor hnode (.inl hisLoop) (href'.trans href.symm))
    · have hin : declaration.declaredSymbol.map Symbol.name ∈
          (locus "var xs = [for x in y: a]").declarations.map fun declaration =>
            declaration.declaredSymbol.map Symbol.name := List.mem_map_of_mem hmem
      rw [hdeclarations, List.mem_singleton] at hin
      rw [hin] at hname
      exact absurd hname (by decide)

end Caret
