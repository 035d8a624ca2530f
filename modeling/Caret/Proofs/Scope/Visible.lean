import Caret.Proofs.Document.Built

/-!
# What a node can refer to

The table of scopes is filled loop by loop and asked for a chain of scopes afterwards. What comes
out is told by the tree alone: the variables of the loops whose bodies a node stands in, and then
the declarations other than the one around it. A node is behind the colon of a loop when the child
of the loop that it stands in is, so the loops around a loop are known at a node in its body where
they are known at the loop.
-/

namespace Caret

namespace Locus

variable {root locus child node loop : Locus}

/-! What is known at a node, told by the tree -/

/-- The loops in whose bodies a node stands, innermost first. -/
def knownLoops (node : Locus) : List Locus :=
  node.properAncestors.filter fun loop => node.isInBodyOf loop

/-- The declaration that a node is or stands in. -/
def ownDeclaration (node : Locus) : Option Locus :=
  node.ancestors.find? fun ancestor => ancestor.kind.isDeclaration

/-- The declarations of a document other than the one that a node stands in. -/
def otherDeclarations (root node : Locus) : List Locus :=
  root.declarations.filter fun declaration =>
    node.ownDeclaration.map address ≠ some declaration.address

/-- The symbols that are known at a node: those of the loops around it, innermost first, and those
of the declarations in their order. Of each name the first one counts. -/
def knownSymbols (root node : Locus) : List Symbol :=
  distinctBy Symbol.name
    (node.knownLoops.filterMap loopSymbol ++ (otherDeclarations root node).filterMap declaredSymbol)

/-! Bodies of loops -/

/-- What stands in a child of a loop is in the body of the loop as the child is. -/
theorem isInBodyOf_of_under (hlocated : loop.Located) (hchild : child ∈ loop.children)
    (hnode : child.isNode = true) (hunder : Under child node)
    (htokens : ∀ token ∈ loop.children, token.isToken = true →
      token.span.start < token.span.stop) :
    node.isInBodyOf loop = child.isInBodyOf loop := by
  unfold isInBodyOf
  congr 1
  cases hcolon : loop.tokenOf .colon with
  | none => rfl
  | some colon =>
      obtain ⟨hmem, htoken⟩ := List.mem_filter.1 (List.mem_of_find?_eq_some hcolon)
      have hcontains := Span.contains_iff.1
        (hunder.contains (hlocated.of_mem_children hchild).1)
      have hstart := (hlocated.of_mem_children hchild).1.start_le_stop
      have hstart' := (hunder.located (hlocated.of_mem_children hchild).1).start_le_stop
      have hsize := htokens colon hmem htoken
      dsimp only
      rw [decide_eq_decide]
      rcases eq_or_apart_of_pairwise hlocated.pairwise_children hmem hchild with rfl | hlt | hlt
      · rw [isNode_eq_not, htoken] at hnode
        cases hnode
      · omega
      · omega

/-- What is above a place is above what is below the place. -/
theorem properAncestors_of_eq_append {before after : List Locus}
    (h : node.properAncestors = before ++ loop :: after) : loop.properAncestors = after := by
  have hfrom : ∀ (above : List Crumb) (here : Crumb) (before : List Locus),
      ancestorsFrom here above = before ++ loop :: after → loop.properAncestors = after := by
    intro above
    induction above with
    | nil =>
        intro here before h
        cases before with
        | nil =>
            obtain ⟨rfl, rfl⟩ := List.cons_eq_cons.1 h
            rfl
        | cons first before => simp [ancestorsFrom] at h
    | cons crumb above ih =>
        intro here before h
        cases before with
        | nil =>
            obtain ⟨rfl, rfl⟩ := List.cons_eq_cons.1 h
            rfl
        | cons first before => exact ih crumb before (List.cons_eq_cons.1 h).2
  refine hfrom node.above node.here (node :: before) ?_
  rw [List.cons_append, ← h]
  exact ancestors_eq_cons node

end Locus

namespace Document

variable {text : String} {node inner other loop declaration : Locus}

theorem mem_descendants_iff :
    node ∈ (locus text).descendants ↔ Locus.Under (locus text) node ∧ node.isNode = true :=
  Locus.mem_descendants_iff

theorem start_lt_stop_of_isToken (h : Locus.Under (locus text) node) (htoken : node.isToken = true) :
    node.span.start < node.span.stop :=
  start_lt_stop (Locus.mem_leaves_iff.2 ⟨h, htoken⟩)

/-- What is known of a loop at a node in an inner one is what is known of it at the inner loop. -/
theorem isInBodyOf_eq (h : Locus.Under (locus text) loop) (hinner : loop.Around inner)
    (hkind : inner.isNode = true) (hunder : inner.Under node) :
    node.isInBodyOf loop = inner.isInBodyOf loop := by
  obtain ⟨child, hchild, hbelow⟩ := hinner
  have hnode : child.isNode = true := by
    cases htoken : child.isToken with
    | false => rw [Locus.isNode_eq_not, htoken, Bool.not_false]
    | true =>
        obtain rfl := hbelow.eq_of_isToken htoken
        exact hkind
  have htokens : ∀ token ∈ loop.children, token.isToken = true →
      token.span.start < token.span.stop :=
    fun token hmem htoken => start_lt_stop_of_isToken (h.child hmem) htoken
  have hlocated := h.located (located_locus text)
  rw [Locus.isInBodyOf_of_under hlocated hchild hnode (hbelow.trans hunder) htokens,
    Locus.isInBodyOf_of_under hlocated hchild hnode hbelow htokens]

theorem mem_properAncestors_iff (h : Locus.Under (locus text) node) :
    other ∈ node.properAncestors ↔ Locus.Under (locus text) other ∧ other.Around node :=
  h.mem_properAncestors_iff (isRoot_locus text)

theorem enclosingLoop_eq_some (h : Locus.Under (locus text) node)
    (hloop : node.enclosingLoop = some loop) :
    Locus.Under (locus text) loop ∧ loop.Around node ∧ loop.kind = .forExpr := by
  obtain ⟨hunder, haround⟩ := (mem_properAncestors_iff h).1 (List.mem_of_find?_eq_some hloop)
  have hbody := List.find?_some hloop
  simp only [Locus.isInBodyOf, Bool.and_eq_true, decide_eq_true_eq] at hbody
  exact ⟨hunder, haround, hbody.1⟩

theorem knownLoops_of_enclosingLoop_eq_none (h : node.enclosingLoop = none) :
    node.knownLoops = [] :=
  List.filter_eq_nil_iff.2 (List.find?_eq_none.1 h)

/-- The loops that are known at a node are the innermost one and those that are known there. -/
theorem knownLoops_of_enclosingLoop_eq_some (h : Locus.Under (locus text) node)
    (hloop : node.enclosingLoop = some loop) : node.knownLoops = loop :: loop.knownLoops := by
  obtain ⟨hunder, haround, -⟩ := enclosingLoop_eq_some h hloop
  obtain ⟨hbody, before, after, hsplit, hbefore⟩ := List.find?_eq_some_iff_append.1 hloop
  have hafter := Locus.properAncestors_of_eq_append hsplit
  have hnone : before.filter (fun loop => node.isInBodyOf loop) = [] :=
    List.filter_eq_nil_iff.2 fun other hmem => by simpa using hbefore other hmem
  rw [Locus.knownLoops, hsplit, List.filter_append, hnone, List.nil_append, List.filter_cons,
    if_pos hbody, Locus.knownLoops, hafter]
  congr 1
  refine List.filter_congr fun other hmem => ?_
  rw [← hafter] at hmem
  obtain ⟨hother, hloops⟩ := (mem_properAncestors_iff hunder).1 hmem
  exact isInBodyOf_eq hother hloops haround.isNode haround.under

/-! References to nodes -/

/-- A loop or a declaration holds a token of its own. -/
theorem start_lt_stop_of_kind (h : Locus.Under (locus text) node) (hnode : node.isNode = true)
    (hkind : node.kind = .forExpr ∨ node.kind.isDeclaration = true) :
    node.span.start < node.span.stop := by
  have htoken : ∃ token ∈ node.children, token.isToken = true := by
    rcases hkind with hloop | hdeclaration
    · obtain ⟨⟨opening, hmem, htoken, -⟩, -⟩ := exists_brackets_of_forExpr h hnode hloop
      exact ⟨opening, hmem, htoken⟩
    · exact exists_keyword_of_isDeclaration h hnode hdeclaration
  obtain ⟨token, hmem, htoken⟩ := htoken
  have hcontains := Span.contains_iff.1
    ((h.located (located_locus text)).of_mem_children hmem).2.1
  have hsize := start_lt_stop_of_isToken (h.child hmem) htoken
  omega

/-- A loop in another one starts behind the bracket of the other one. -/
theorem start_lt_start_of_around (h : Locus.Under (locus text) loop) (hkind : loop.kind = .forExpr)
    (haround : loop.Around node) (hnode : node.isNode = true) :
    loop.span.start < node.span.start := by
  obtain ⟨child, hchild, hunder⟩ := haround
  obtain ⟨⟨opening, hopening, htoken, hleft⟩, -⟩ :=
    exists_brackets_of_forExpr h (Locus.isNode_of_mem_children hchild) hkind
  have hlocated := h.located (located_locus text)
  have hstart := (hlocated.of_mem_children hopening).2.2.1 hleft
  have hsize := start_lt_stop_of_isToken (h.child hopening) htoken
  have hcontains := Span.contains_iff.1 (hunder.contains (hlocated.of_mem_children hchild).1)
  have hbounds := Span.contains_iff.1 (hlocated.of_mem_children hchild).2.1
  rcases hlocated.eq_or_stop_le_of_first hopening hleft hchild with rfl | hlt
  · obtain rfl := hunder.eq_of_isToken htoken
    rw [Locus.isNode_eq_not, htoken] at hnode
    cases hnode
  · omega

/-- A loop or a declaration is the only node of its kind with its bytes. -/
theorem eq_of_ref_eq (h : Locus.Under (locus text) node) (hnode : node.isNode = true)
    (hother : Locus.Under (locus text) other) (hnode' : other.isNode = true)
    (hkind : node.kind = .forExpr ∨ node.kind.isDeclaration = true) (href : node.ref = other.ref) :
    node = other := by
  have hkinds : node.kind = other.kind := congrArg NodeRef.kind href
  have hspans : node.span = other.span := congrArg NodeRef.span href
  have hsize := start_lt_stop_of_kind h hnode hkind
  rw [hspans] at hsize
  rcases hkind with hloop | hdeclaration
  · rcases (located_locus text).under_or_apart h hother with heq | hin | hin | hlt | hlt
    · exact heq
    · have := start_lt_start_of_around h hloop hin hnode'
      rw [hspans] at this
      omega
    · have := start_lt_start_of_around hother (hkinds ▸ hloop) hin hnode
      rw [hspans] at this
      omega
    · rw [hspans] at hlt
      omega
    · rw [hspans] at hlt
      omega
  · have hmem := mem_children_of_isDeclaration h hnode hdeclaration
    have hmem' := mem_children_of_isDeclaration hother hnode' (hkinds ▸ hdeclaration)
    rcases Locus.eq_or_apart_of_pairwise (located_locus text).pairwise_children hmem hmem' with
      heq | hlt | hlt
    · exact heq
    · rw [hspans] at hlt
      omega
    · rw [hspans] at hlt
      omega

/-! The loops in the order of the text -/

/-- The loops of a document, outer ones first. -/
def loops (text : String) : List Locus :=
  (locus text).descendants.filter fun node => node.kind = .forExpr

theorem mem_loops_iff :
    loop ∈ loops text ↔ Locus.Under (locus text) loop ∧ loop.isNode = true ∧ loop.kind = .forExpr := by
  rw [loops, List.mem_filter, mem_descendants_iff, decide_eq_true_eq, and_assoc]

/-- A loop has another reference than those before it, and it is in the bodies of those alone. -/
theorem of_loops_eq_append {before after : List Locus} (h : loops text = before ++ loop :: after) :
    loop.ref ∉ before.map Locus.ref ∧ ∀ outer ∈ loop.enclosingLoop, outer ∈ before := by
  have hmem : ∀ other ∈ before ++ loop :: after, other ∈ loops text := fun other hmem => h ▸ hmem
  have hsize : ∀ other ∈ loops text, other.span.start < other.span.stop := by
    intro other hother
    obtain ⟨hunder, hnode, hkind⟩ := mem_loops_iff.1 hother
    exact start_lt_stop_of_kind hunder hnode (.inl hkind)
  have hpairwise : (loops text).Pairwise fun first second =>
      first.Around second ∨ first.span.stop ≤ second.span.start :=
    (List.Pairwise.filter _ ((located_locus text).pairwise_search.filter _))
  rw [h, List.pairwise_append] at hpairwise
  obtain ⟨-, hright, hleft⟩ := hpairwise
  have hloop := hmem loop (by simp)
  obtain ⟨hunder, hnode, hkind⟩ := mem_loops_iff.1 hloop
  have hlt := hsize loop hloop
  constructor
  · intro hin
    obtain ⟨other, hother, href⟩ := List.mem_map.1 hin
    have hother' := hmem other (List.mem_append_left _ hother)
    obtain ⟨hunder', hnode', hkind'⟩ := mem_loops_iff.1 hother'
    obtain rfl := eq_of_ref_eq hunder' hnode' hunder hnode (.inl hkind') href
    rcases hleft other hother other List.mem_cons_self with haround | hapart
    · exact haround.ne rfl
    · omega
  · intro outer houter
    obtain ⟨hunder', haround, hkind'⟩ := enclosingLoop_eq_some hunder houter
    have hin : outer ∈ before ++ loop :: after :=
      h ▸ mem_loops_iff.2 ⟨hunder', haround.isNode, hkind'⟩
    rcases List.mem_append.1 hin with hin | hin
    · exact hin
    · exfalso
      rcases List.mem_cons.1 hin with rfl | hin
      · exact haround.ne rfl
      · rcases (List.pairwise_cons.1 hright).1 outer hin with hback | hapart
        · have := hback.length_lt
          have := haround.length_lt
          omega
        · have hcontains := Span.contains_iff.1
            (haround.under.contains (hunder'.located (located_locus text)))
          omega

end Document

/-! The table of scopes -/

namespace ScopeTable

/-- A table that holds the scopes of some loops: each has the scope around it as its parent, and
that comes before it. -/
structure Holds (table : ScopeTable) (declared : List Symbol) (loops : List Locus) : Prop where
  length : table.scopes.length = loops.length + 1
  first : table.scopes[0]? = some ⟨none, declared⟩
  keys : table.loops.map Prod.fst = (loops.map Locus.ref).reverse
  closed : ∀ loop ∈ loops, ∀ outer ∈ loop.enclosingLoop, outer ∈ loops
  scope : ∀ loop ∈ loops, ∃ number, table.loops.lookup loop.ref = some number ∧
    table.scopes[number]? = some ⟨some (table.scopeOf loop), loop.loopSymbol.toList⟩ ∧
    table.scopeOf loop < number
  parent : ∀ number scope, table.scopes[number]? = some scope →
    number = 0 ∨ ∃ loop ∈ loops,
      scope = ⟨some (table.scopeOf loop), loop.loopSymbol.toList⟩ ∧ table.scopeOf loop < number

variable {table : ScopeTable} {declared : List Symbol} {loops : List Locus} {node loop : Locus}

theorem scopeOf_of_none (table : ScopeTable) (h : node.enclosingLoop = none) :
    table.scopeOf node = 0 := by
  rw [scopeOf, h]

theorem scopeOf_of_some (table : ScopeTable) {number : Nat} (h : node.enclosingLoop = some loop)
    (hlookup : table.loops.lookup loop.ref = some number) : table.scopeOf node = number := by
  rw [scopeOf, h]
  dsimp only
  rw [hlookup, Option.getD_some]

theorem Holds.scopeOf_lt (h : table.Holds declared loops)
    (hclosed : ∀ outer ∈ node.enclosingLoop, outer ∈ loops) :
    table.scopeOf node < table.scopes.length := by
  cases henclosing : node.enclosingLoop with
  | none =>
      rw [table.scopeOf_of_none henclosing, h.length]
      exact Nat.succ_pos _
  | some outer =>
      obtain ⟨number, hlookup, hscope, -⟩ := h.scope outer (hclosed outer henclosing)
      rw [table.scopeOf_of_some henclosing hlookup]
      exact (List.getElem?_eq_some_iff.1 hscope).1

/-- A new loop does not change what is found for the loops that are there. -/
theorem lookup_addLoop (table : ScopeTable) {ref : NodeRef} (h : ref ≠ loop.ref) :
    (table.addLoop loop).loops.lookup ref = table.loops.lookup ref := by
  rw [addLoop, List.lookup_cons, beq_false_of_ne h]

theorem scopeOf_addLoop (table : ScopeTable) (hfresh : loop.ref ∉ loops.map Locus.ref)
    (hclosed : ∀ outer ∈ node.enclosingLoop, outer ∈ loops) :
    (table.addLoop loop).scopeOf node = table.scopeOf node := by
  cases henclosing : node.enclosingLoop with
  | none => rw [scopeOf_of_none _ henclosing, scopeOf_of_none _ henclosing]
  | some outer =>
      have hne : outer.ref ≠ loop.ref := fun heq =>
        hfresh (heq ▸ List.mem_map_of_mem (hclosed outer henclosing))
      rw [scopeOf, scopeOf, henclosing]
      dsimp only
      rw [lookup_addLoop table hne]

theorem Holds.addLoop (h : table.Holds declared loops) (hfresh : loop.ref ∉ loops.map Locus.ref)
    (hclosed : ∀ outer ∈ loop.enclosingLoop, outer ∈ loops) :
    (table.addLoop loop).Holds declared (loops ++ [loop]) := by
  have hstable : ∀ node : Locus, (∀ outer ∈ node.enclosingLoop, outer ∈ loops) →
      (table.addLoop loop).scopeOf node = table.scopeOf node :=
    fun node hnode => scopeOf_addLoop table hfresh hnode
  have hlast : (table.addLoop loop).scopes[table.scopes.length]? =
      some ⟨some (table.scopeOf loop), loop.loopSymbol.toList⟩ := by
    simp [ScopeTable.addLoop]
  have hold : ∀ {number : Nat}, number < table.scopes.length →
      (table.addLoop loop).scopes[number]? = table.scopes[number]? :=
    fun hnumber => List.getElem?_append_left hnumber
  have hless := h.scopeOf_lt hclosed
  refine ⟨?_, ?_, ?_, ?_, ?_, ?_⟩
  · simp [ScopeTable.addLoop, h.length]
  · rw [hold (by rw [h.length]; exact Nat.succ_pos _), h.first]
  · simp [ScopeTable.addLoop, h.keys]
  · intro other hother outer houter
    rcases List.mem_append.1 hother with hother | hother
    · exact List.mem_append_left _ (h.closed other hother outer houter)
    · obtain rfl := List.mem_singleton.1 hother
      exact List.mem_append_left _ (hclosed outer houter)
  · intro other hother
    rcases List.mem_append.1 hother with hother | hother
    · obtain ⟨number, hlookup, hscope, hparent⟩ := h.scope other hother
      have hne : other.ref ≠ loop.ref := fun heq => hfresh (heq ▸ List.mem_map_of_mem hother)
      rw [hstable other (h.closed other hother)]
      refine ⟨number, ?_, ?_, hparent⟩
      · rw [lookup_addLoop table hne, hlookup]
      · rw [hold (List.getElem?_eq_some_iff.1 hscope).1, hscope]
    · obtain rfl := List.mem_singleton.1 hother
      rw [hstable other hclosed]
      refine ⟨table.scopes.length, ?_, hlast, hless⟩
      rw [ScopeTable.addLoop, List.lookup_cons, beq_self_eq_true]
  · intro number scope hscope
    rcases Nat.lt_or_ge number table.scopes.length with hlt | hge
    · rw [hold hlt] at hscope
      rcases h.parent number scope hscope with hzero | ⟨other, hother, hvalue, hparent⟩
      · exact .inl hzero
      · refine .inr ⟨other, List.mem_append_left _ hother, ?_⟩
        rw [hstable other (h.closed other hother)]
        exact ⟨hvalue, hparent⟩
    · have hbound := (List.getElem?_eq_some_iff.1 hscope).1
      have hnumber : number = table.scopes.length := by
        simp only [ScopeTable.addLoop, List.length_append, List.length_singleton] at hbound
        omega
      subst hnumber
      rw [hlast] at hscope
      refine .inr ⟨loop, List.mem_append_right _ List.mem_cons_self, ?_⟩
      rw [hstable loop hclosed]
      exact ⟨(Option.some.inj hscope).symm, hless⟩

/-- The table of a document holds the scopes of its loops. -/
theorem holds_ofRoot (text : String) :
    (ofRoot (Document.locus text)).Holds
      ((Document.locus text).declarations.filterMap Locus.declaredSymbol) (Document.loops text) := by
  have hfold : ∀ (after before : List Locus) (table : ScopeTable),
      table.Holds ((Document.locus text).declarations.filterMap Locus.declaredSymbol) before →
      before ++ after = Document.loops text →
      (after.foldl ScopeTable.addLoop table).Holds
        ((Document.locus text).declarations.filterMap Locus.declaredSymbol) (before ++ after) := by
    intro after
    induction after with
    | nil =>
        intro before table h _
        rwa [List.append_nil]
    | cons loop after ih =>
        intro before table h hloops
        obtain ⟨hfresh, hclosed⟩ := Document.of_loops_eq_append hloops.symm
        have hcons : before ++ loop :: after = before ++ [loop] ++ after := by simp
        rw [hcons] at hloops ⊢
        exact ih _ _ (h.addLoop hfresh hclosed) hloops
  refine hfold (Document.loops text) [] _ ⟨rfl, rfl, rfl, by simp, by simp, ?_⟩ rfl
  intro number scope hscope
  have hbound := (List.getElem?_eq_some_iff.1 hscope).1
  left
  simpa using hbound

/-- The chain of scopes that is visible from a node holds the symbols of the loops known there and
then the declared ones. -/
theorem Holds.flatMap_symbols_chainFor {text : String} (h : table.Holds declared loops)
    (hunder : Locus.Under (Document.locus text) node)
    (hclosed : ∀ outer ∈ node.enclosingLoop, outer ∈ loops) {fuel : Nat}
    (hfuel : table.scopeOf node < fuel) :
    (table.chainFor fuel (table.scopeOf node)).flatMap Scope.symbols =
      node.knownLoops.filterMap Locus.loopSymbol ++ declared := by
  induction hnumber : table.scopeOf node using Nat.strongRecOn generalizing node fuel with
  | ind number ih =>
      subst hnumber
      obtain ⟨fuel, rfl⟩ : ∃ less, fuel = less + 1 := ⟨fuel - 1, by omega⟩
      cases henclosing : node.enclosingLoop with
      | none =>
          rw [table.scopeOf_of_none henclosing, chainFor, h.first,
            Document.knownLoops_of_enclosingLoop_eq_none henclosing]
          simp
      | some loop =>
          have hloop := hclosed loop henclosing
          obtain ⟨number, hlookup, hscope, hparent⟩ := h.scope loop hloop
          have hself := table.scopeOf_of_some henclosing hlookup
          rw [hself] at hfuel ih
          have hchain := ih _ hparent (Document.enclosingLoop_eq_some hunder henclosing).1
            (h.closed loop hloop) (by omega : table.scopeOf loop < fuel) rfl
          rw [hself, chainFor, hscope,
            Document.knownLoops_of_enclosingLoop_eq_some hunder henclosing]
          dsimp only
          rw [List.flatMap_cons, hchain, ← List.append_assoc]
          congr 1
          cases hsymbol : loop.loopSymbol with
          | none => simp [hsymbol]
          | some symbol => simp [hsymbol]

end ScopeTable

/-! The declaration around a node -/

namespace Document

variable {text : String} {node declaration other : Locus}

theorem mem_declarations_iff :
    declaration ∈ (locus text).declarations ↔
      declaration ∈ (locus text).children ∧ declaration.isNode = true ∧
        declaration.kind.isDeclaration = true := by
  rw [Locus.declarations, Locus.nodes, List.mem_filter, List.mem_filter, and_assoc]

theorem mem_declarations_of_ownDeclaration (hunder : Locus.Under (locus text) node)
    (hnode : node.isNode = true) (h : node.ownDeclaration = some declaration) :
    declaration ∈ (locus text).declarations := by
  have hkind := List.find?_some h
  obtain ⟨hroot, hbelow⟩ :=
    (hunder.mem_ancestors_iff (isRoot_locus text)).1 (List.mem_of_find?_eq_some h)
  have hdeclaration : declaration.isNode = true := by
    rcases hbelow.eq_or_around with rfl | haround
    · exact hnode
    · exact haround.isNode
  exact mem_declarations_iff.2
    ⟨mem_children_of_isDeclaration hroot hdeclaration hkind, hdeclaration, hkind⟩

/-- Declarations are told apart by their references as they are by their places. -/
theorem ref_eq_iff_address_eq (h : declaration ∈ (locus text).declarations)
    (hother : other ∈ (locus text).declarations) :
    other.ref = declaration.ref ↔ other.address = declaration.address := by
  obtain ⟨hmem, hnode, hkind⟩ := mem_declarations_iff.1 h
  obtain ⟨hmem', hnode', hkind'⟩ := mem_declarations_iff.1 hother
  constructor
  · intro href
    rw [eq_of_ref_eq (.child .root hmem') hnode' (.child .root hmem) hnode (.inr hkind') href]
  · intro haddress
    rw [Locus.eq_of_length_left hmem' hmem (List.cons_eq_cons.1 haddress).1]

theorem declaration_of_declaredSymbol {symbol : Symbol}
    (h : declaration.declaredSymbol = some symbol) : symbol.declaration = declaration.ref := by
  unfold Locus.declaredSymbol at h
  simp only [Option.bind_eq_bind, Option.bind_eq_some_iff, Option.some.injEq] at h
  obtain ⟨_, -, _, -, _, -, rfl⟩ := h
  rfl

theorem declaration_of_loopSymbol {symbol : Symbol} {loop : Locus}
    (h : loop.loopSymbol = some symbol) : symbol.declaration = loop.ref := by
  unfold Locus.loopSymbol at h
  simp only [Option.bind_eq_bind, Option.bind_eq_some_iff, Option.some.injEq] at h
  obtain ⟨_, -, _, -, rfl⟩ := h
  rfl

/-- No loop is left out for being the declaration around a node. -/
theorem filter_loopSymbols (hunder : Locus.Under (locus text) node) (hnode : node.isNode = true) :
    (node.knownLoops.filterMap Locus.loopSymbol).filter
      (fun symbol => node.ownDeclaration.map Locus.ref ≠ some symbol.declaration) =
        node.knownLoops.filterMap Locus.loopSymbol := by
  refine List.filter_eq_self.2 fun symbol hmem => ?_
  obtain ⟨loop, hloop, hsymbol⟩ := List.mem_filterMap.1 hmem
  have hbody := (List.mem_filter.1 hloop).2
  simp only [Locus.isInBodyOf, Bool.and_eq_true, decide_eq_true_eq] at hbody
  rw [decide_eq_true_eq, declaration_of_loopSymbol hsymbol]
  intro hown
  obtain ⟨own, howned, href⟩ := Option.map_eq_some_iff.1 hown
  obtain ⟨-, -, hkind⟩ :=
    mem_declarations_iff.1 (mem_declarations_of_ownDeclaration hunder hnode howned)
  rw [show own.kind = loop.kind from congrArg NodeRef.kind href, hbody.1] at hkind
  cases hkind

theorem filter_declaredSymbols (hunder : Locus.Under (locus text) node)
    (hnode : node.isNode = true) :
    ((locus text).declarations.filterMap Locus.declaredSymbol).filter
      (fun symbol => node.ownDeclaration.map Locus.ref ≠ some symbol.declaration) =
        (Locus.otherDeclarations (locus text) node).filterMap Locus.declaredSymbol := by
  rw [Locus.otherDeclarations, List.filter_filterMap, List.filterMap_filter]
  refine List.filterMap_congr fun declaration hmem => ?_
  have hsame : node.ownDeclaration.map Locus.ref = some declaration.ref ↔
      node.ownDeclaration.map Locus.address = some declaration.address := by
    cases hown : node.ownDeclaration with
    | none => simp
    | some own =>
        simp only [Option.map_some, Option.some.injEq]
        exact ref_eq_iff_address_eq hmem (mem_declarations_of_ownDeclaration hunder hnode hown)
  cases hsymbol : declaration.declaredSymbol with
  | none => simp
  | some symbol =>
      rw [Option.filter_some, declaration_of_declaredSymbol hsymbol]
      simp only [ne_eq, hsame]

end Document

namespace ScopeTable

variable {text : String} {node : Locus}

/-- What is visible from a node of a document is what the tree tells to be known there. -/
theorem visibleFrom_ofRoot (h : node ∈ (Document.locus text).descendants) :
    (ofRoot (Document.locus text)).visibleFrom node =
      Locus.knownSymbols (Document.locus text) node := by
  obtain ⟨hunder, hnode⟩ := Document.mem_descendants_iff.1 h
  have htable := holds_ofRoot text
  have hclosed : ∀ outer ∈ node.enclosingLoop, outer ∈ Document.loops text := by
    intro outer houter
    obtain ⟨houter', haround, hkind⟩ := Document.enclosingLoop_eq_some hunder houter
    exact Document.mem_loops_iff.2 ⟨houter', haround.isNode, hkind⟩
  have hchain := htable.flatMap_symbols_chainFor hunder hclosed (htable.scopeOf_lt hclosed)
  change distinctBy Symbol.name (((chainFor _ _ _).flatMap Scope.symbols).filter fun symbol =>
    node.ownDeclaration.map Locus.ref ≠ some symbol.declaration) = _
  rw [hchain, List.filter_append, Document.filter_loopSymbols hunder hnode,
    Document.filter_declaredSymbols hunder hnode]
  rfl

/-- The scopes of a document agree with its tree. What is visible from a node are the variables of
the loops around it whose colon comes before it, innermost first, and the declarations other than
the one around it. There is one scope for each loop and one for the document, a scope comes behind
its parent, and each reference in the table fits one node. -/
theorem ofRoot_faithful (text : String) :
    (∀ node ∈ (Document.locus text).descendants,
      (ofRoot (Document.locus text)).visibleFrom node =
        Locus.knownSymbols (Document.locus text) node) ∧
    (ofRoot (Document.locus text)).scopes.length = (Document.loops text).length + 1 ∧
    (∀ loop ∈ Document.loops text, ∃ number,
      (ofRoot (Document.locus text)).loops.lookup loop.ref = some number ∧
        ((ofRoot (Document.locus text)).scopes[number]?).map Scope.symbols =
          some loop.loopSymbol.toList) ∧
    (∀ number scope, (ofRoot (Document.locus text)).scopes[number]? = some scope →
      (scope.parent = none ↔ number = 0) ∧ ∀ parent ∈ scope.parent, parent < number) ∧
    (∀ key ∈ (ofRoot (Document.locus text)).loops.map Prod.fst,
      ∃! node, node ∈ (Document.locus text).descendants ∧ node.ref = key) ∧
    ∀ scope ∈ (ofRoot (Document.locus text)).scopes, ∀ symbol ∈ scope.symbols,
      ∃! node, node ∈ (Document.locus text).descendants ∧ node.ref = symbol.declaration := by
  have htable := holds_ofRoot text
  have hunique : ∀ node ∈ (Document.locus text).descendants,
      node.kind = .forExpr ∨ node.kind.isDeclaration = true →
      ∃! other, other ∈ (Document.locus text).descendants ∧ other.ref = node.ref := by
    intro node hmem hkind
    obtain ⟨hunder, hnode⟩ := Document.mem_descendants_iff.1 hmem
    refine ⟨node, ⟨hmem, rfl⟩, fun other hother => ?_⟩
    obtain ⟨hunder', hnode'⟩ := Document.mem_descendants_iff.1 hother.1
    exact (Document.eq_of_ref_eq hunder hnode hunder' hnode' hkind hother.2.symm).symm
  have hloop : ∀ loop ∈ Document.loops text, loop ∈ (Document.locus text).descendants ∧
      loop.kind = .forExpr := fun loop hmem => by simpa using List.mem_filter.1 hmem
  refine ⟨fun node => visibleFrom_ofRoot, htable.length, fun loop hmem => ?_,
    fun number scope hscope => ?_, fun key hkey => ?_, fun scope hscope symbol hsymbol => ?_⟩
  · obtain ⟨number, hlookup, hscope, -⟩ := htable.scope loop hmem
    exact ⟨number, hlookup, by rw [hscope]; rfl⟩
  · rcases htable.parent number scope hscope with rfl | ⟨loop, -, rfl, hparent⟩
    · rw [htable.first] at hscope
      obtain rfl := Option.some.inj hscope
      simp
    · refine ⟨⟨nofun, fun hzero => absurd hparent (by omega)⟩, fun parent hmem => ?_⟩
      obtain rfl := Option.some.inj hmem
      exact hparent
  · rw [htable.keys, List.mem_reverse] at hkey
    obtain ⟨loop, hmem, rfl⟩ := List.mem_map.1 hkey
    exact hunique loop (hloop loop hmem).1 (.inl (hloop loop hmem).2)
  · obtain ⟨number, hnumber⟩ := List.mem_iff_getElem?.1 hscope
    rcases htable.parent number scope hnumber with rfl | ⟨loop, hmem, rfl, -⟩
    · rw [htable.first] at hnumber
      obtain rfl := Option.some.inj hnumber
      obtain ⟨declaration, hmem, hdeclared⟩ := List.mem_filterMap.1 hsymbol
      obtain ⟨hchild, hnode, hkind⟩ := Document.mem_declarations_iff.1 hmem
      rw [Document.declaration_of_declaredSymbol hdeclared]
      exact hunique declaration
        (Document.mem_descendants_iff.2 ⟨.child .root hchild, hnode⟩) (.inr hkind)
    · have hdeclared : loop.loopSymbol = some symbol := Option.mem_toList.1 hsymbol
      rw [Document.declaration_of_loopSymbol hdeclared]
      exact hunique loop (hloop loop hmem).1 (.inl (hloop loop hmem).2)

end ScopeTable

end Caret
