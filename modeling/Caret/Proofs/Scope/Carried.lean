import Caret.Proofs.Tree.Relocation
import Caret.Typing
import Mathlib.Data.List.Basic
import Mathlib.Data.Option.Basic

/-!
# Scopes and shapes carried over to another text

A tree that is carried over to another text declares the same symbols there, with the same shapes.
-/

namespace Caret

theorem distinctAfter_map {α β γ : Type} [BEq γ] (key : β → γ) (f : α → β) (seen : List γ)
    (xs : List α) :
    distinctAfter key seen (xs.map f) = (distinctAfter (fun x => key (f x)) seen xs).map f := by
  induction xs generalizing seen with
  | nil => rfl
  | cons x xs ih =>
      rw [List.map_cons, distinctAfter, distinctAfter, ih, ih]
      split <;> rfl

theorem distinctBy_map {α β γ : Type} [BEq γ] (key : β → γ) (f : α → β) (xs : List α) :
    distinctBy key (xs.map f) = (distinctBy (fun x => key (f x)) xs).map f :=
  distinctAfter_map key f [] xs

namespace Locus

/-- The member that a property adds to the shape of an object that is written out. -/
def literalMember (property : Locus) : Option Member :=
  property.propertyName.map fun name =>
    Shape.plain name ((property.propertyValue.map literalShape).getD .any)

theorem literalShape_object {node : Locus} (h : node.kind = .object) :
    node.literalShape =
      .object none (Keyed.ofList Member.name (node.properties.filterMap literalMember)) := by
  rw [literalShape, h]
  conv_rhs => rw [← List.attach_map_subtype_val node.properties, List.filterMap_map]
  refine congrArg (fun members => Shape.object none (Keyed.ofList Member.name members))
    (List.filterMap_congr fun property _ => ?_)
  refine congrArg (fun member => property.1.propertyName.map member) (funext fun name => ?_)
  split
  · next hnone => rw [hnone]; rfl
  · next value hvalue => rw [hvalue]; rfl

end Locus

namespace Typing

variable (typing : Typing) {expr : Locus}

theorem valueShape_variable (h : expr.kind = .variableAccess) :
    typing.valueShape expr = expr.identText.bind fun name =>
      ((typing.scopes.visibleFrom expr).find? fun symbol => symbol.name = name).bind
        typing.symbolShape := by
  rw [valueShape, h]
  rfl

theorem valueShape_propertyAccess (h : expr.kind = .propertyAccess) :
    typing.valueShape expr = expr.operand.bind fun receiver => expr.member.bind fun member =>
      (typing.valueShape receiver).bind fun shape =>
        (shape.member? member.text).map Member.shape := by
  rw [valueShape, h]
  simp only
  split
  · next hnone => rw [hnone]; rfl
  · next receiver hreceiver =>
      rw [hreceiver, Option.bind_some]
      simp only [bind, Option.map_eq_bind]
      rfl

theorem valueShape_arrayAccess (h : expr.kind = .arrayAccess) :
    typing.valueShape expr = expr.nodes.head?.bind fun receiver =>
      (typing.valueShape receiver).bind Shape.item? := by
  rw [valueShape, h]
  simp only
  split
  · next hnone => rw [hnone]; rfl
  · next receiver hreceiver => rw [hreceiver]; rfl

theorem valueShape_parenExpr (h : expr.kind = .parenExpr) :
    typing.valueShape expr = expr.firstExpr.bind typing.valueShape := by
  rw [valueShape, h]
  simp only
  split
  · next hnone => rw [hnone]; rfl
  · next inner hinner => rw [hinner]; rfl

end Typing

namespace Relocation

variable (move : Relocation) (node : Locus)

/-! What is read off the nodes -/

@[simp]
theorem exprAfter_locus (kind : Kind) :
    (move.locus node).exprAfter kind = (node.exprAfter kind).map move.locus := by
  simp [Locus.exprAfter, List.dropWhile_map, List.filter_map, Function.comp_def]

@[simp]
theorem firstExpr_locus : (move.locus node).firstExpr = node.firstExpr.map move.locus := by
  simp [Locus.firstExpr, Function.comp_def]

@[simp]
theorem ofKind_locus (kind : Kind) :
    (move.locus node).ofKind kind = (node.ofKind kind).map move.locus := by
  rw [Locus.ofKind, Locus.ofKind, kind_locus]
  split <;> rfl

@[simp]
theorem interpolations_locus :
    (move.locus node).interpolations = node.interpolations.map move.locus := by
  simp [Locus.interpolations, List.filter_map, Function.comp_def]

@[simp]
theorem isInterpolated_locus : (move.locus node).isInterpolated = node.isInterpolated := by
  simp [Locus.isInterpolated]

@[simp]
theorem isMultiline_locus : (move.locus node).isMultiline = node.isMultiline := by
  rw [Locus.isMultiline, Locus.isMultiline, firstToken_locus]
  cases node.firstToken with
  | none => rfl
  | some token =>
      by_cases hkind : token.kind = .stringStart
      · have htext : (move.locus token).text = token.text := move.text_locus (by simp [hkind])
        simp [hkind, htext]
      · simp [hkind]

@[simp]
theorem isTerminated_locus : (move.locus node).isTerminated = node.isTerminated := by
  rw [Locus.isTerminated, Locus.isTerminated, lastToken_locus]
  cases node.lastToken <;> simp

@[simp]
theorem rawText_locus : (move.locus node).rawText = node.rawText := by
  simp only [Locus.rawText, tokens_locus, List.filter_map, List.map_map, Function.comp_def,
    kind_locus]
  refine congrArg String.join (List.map_congr_left fun token htoken => move.text_locus ?_)
  have hkind : token.kind = .stringText := by simpa using (List.mem_filter.1 htoken).2
  simp [hkind]

@[simp]
theorem literalValue_locus : (move.locus node).literalValue = node.literalValue := by
  simp [Locus.literalValue]

@[simp]
theorem ident_locus : (move.locus node).ident = node.ident.map move.locus :=
  move.tokenOf_locus node .ident

theorem text_ident {ident : Locus} (h : node.ident = some ident) :
    (move.locus ident).text = ident.text := by
  have hkind : ident.kind = .ident := by simpa using List.find?_some h
  exact move.text_locus (by simp [hkind])

@[simp]
theorem identText_locus : (move.locus node).identText = node.identText := by
  rw [Locus.identText, Locus.identText, ident_locus]
  cases h : node.ident with
  | none => rfl
  | some ident => exact congrArg some (move.text_ident node h)

@[simp]
theorem nameNode_locus : (move.locus node).nameNode = node.nameNode.map move.locus :=
  move.nodeOf_locus node .name

@[simp]
theorem typeNameNode_locus : (move.locus node).typeNameNode = node.typeNameNode.map move.locus :=
  move.nodeOf_locus node .typeName

@[simp]
theorem resourceTypeNode_locus :
    (move.locus node).resourceTypeNode = node.resourceTypeNode.map move.locus :=
  move.nodeOf_locus node .resourceType

@[simp]
theorem modulePathNode_locus :
    (move.locus node).modulePathNode = node.modulePathNode.map move.locus :=
  move.nodeOf_locus node .modulePath

@[simp]
theorem quotedValue_locus : (move.locus node).quotedValue = node.quotedValue := by
  simp [Locus.quotedValue, Option.bind_map]

@[simp]
theorem isExisting_locus : (move.locus node).isExisting = node.isExisting := by
  simp [Locus.isExisting]

@[simp]
theorem declarations_locus :
    (move.locus node).declarations = node.declarations.map move.locus := by
  simp [Locus.declarations, List.filter_map, Function.comp_def]

@[simp]
theorem declaredValue_locus :
    (move.locus node).declaredValue = node.declaredValue.map move.locus :=
  move.exprAfter_locus node .eq

@[simp]
theorem properties_locus : (move.locus node).properties = node.properties.map move.locus := by
  simp [Locus.properties, List.filter_map, Function.comp_def]

@[simp]
theorem keyNode_locus : (move.locus node).keyNode = node.keyNode.map move.locus :=
  move.nodeOf_locus node .propertyKey

@[simp]
theorem keyText_locus : (move.locus node).keyText = node.keyText := by
  simp [Locus.keyText]

@[simp]
theorem propertyName_locus : (move.locus node).propertyName = node.propertyName := by
  simp [Locus.propertyName, Option.bind_map]

@[simp]
theorem propertyValue_locus :
    (move.locus node).propertyValue = node.propertyValue.map move.locus :=
  move.exprAfter_locus node .colon

@[simp]
theorem loopBody_locus : (move.locus node).loopBody = node.loopBody.map move.locus :=
  move.exprAfter_locus node .colon

@[simp]
theorem operand_locus : (move.locus node).operand = node.operand.map move.locus := by
  simp [Locus.operand, Option.filter_map, Function.comp_def]

@[simp]
theorem member_locus : (move.locus node).member = node.member.map move.locus := by
  simp [Locus.member, List.dropWhile_map, List.filter_map, Function.comp_def]

theorem text_member {member : Locus} (h : node.member = some member) :
    (move.locus member).text = member.text := by
  have hkind : member.kind = .ident := by simpa using List.find?_some h
  exact move.text_locus (by simp [hkind])

/-! Scopes -/

def symbol (symbol : Symbol) : Symbol :=
  { symbol with
    declaration := move.ref symbol.declaration
    nameSpan := move.span symbol.nameSpan }

def scope (scope : Scope) : Scope := { scope with symbols := scope.symbols.map move.symbol }

def scopes (table : ScopeTable) : ScopeTable :=
  { scopes := table.scopes.map move.scope
    loops := table.loops.map fun loop => (move.ref loop.1, loop.2) }

@[simp]
theorem symbolKind_locus : (move.locus node).symbolKind = node.symbolKind := by
  simp [Locus.symbolKind, Option.bind_map]

@[simp]
theorem declaredSymbol_locus :
    (move.locus node).declaredSymbol = node.declaredSymbol.map move.symbol := by
  simp only [Locus.declaredSymbol, symbolKind_locus, nameNode_locus]
  cases node.symbolKind with
  | none => rfl
  | some found =>
      cases node.nameNode with
      | none => rfl
      | some name =>
          cases h : name.ident with
          | none => simp [h]
          | some ident => simp [h, move.text_ident name h, symbol]

@[simp]
theorem loopSymbol_locus : (move.locus node).loopSymbol = node.loopSymbol.map move.symbol := by
  simp only [Locus.loopSymbol, nameNode_locus]
  cases node.nameNode with
  | none => rfl
  | some name =>
      cases h : name.ident with
      | none => simp [h]
      | some ident => simp [h, move.text_ident name h, symbol]

@[simp]
theorem isInBodyOf_locus (loop : Locus) :
    (move.locus node).isInBodyOf (move.locus loop) = node.isInBodyOf loop := by
  simp only [Locus.isInBodyOf, kind_locus, tokenOf_locus]
  cases loop.tokenOf .colon <;> simp

@[simp]
theorem enclosingLoop_locus :
    (move.locus node).enclosingLoop = node.enclosingLoop.map move.locus := by
  simp [Locus.enclosingLoop, Function.comp_def]

variable (table : ScopeTable)

theorem lookup_loops (ref : NodeRef) :
    (move.scopes table).loops.lookup (move.ref ref) = table.loops.lookup ref := by
  rw [scopes]
  induction table.loops with
  | nil => rfl
  | cons loop loops ih =>
      rw [List.map_cons, List.lookup_cons, List.lookup_cons, ih]
      have heq : (move.ref ref == move.ref loop.1) = (ref == loop.1) := by
        rw [Bool.eq_iff_iff, beq_iff_eq, beq_iff_eq, move.ref_injective.eq_iff]
      rw [heq]

@[simp]
theorem scopeOf_locus : (move.scopes table).scopeOf (move.locus node) = table.scopeOf node := by
  rw [ScopeTable.scopeOf, ScopeTable.scopeOf, enclosingLoop_locus]
  cases node.enclosingLoop with
  | none => rfl
  | some loop => simp [lookup_loops]

theorem addLoop_locus :
    (move.scopes table).addLoop (move.locus node) = move.scopes (table.addLoop node) := by
  simp only [ScopeTable.addLoop, scopeOf_locus, loopSymbol_locus, ref_locus]
  cases h : node.loopSymbol <;> simp [scopes, scope]

/-- The scopes of a tree that is carried over. -/
theorem ofRoot_locus : ScopeTable.ofRoot (move.locus node) = move.scopes (.ofRoot node) := by
  have hloops (loops : List Locus) (table : ScopeTable) :
      (loops.map move.locus).foldl ScopeTable.addLoop (move.scopes table) =
        move.scopes (loops.foldl ScopeTable.addLoop table) := by
    induction loops generalizing table with
    | nil => rfl
    | cons loop loops ih =>
        rw [List.map_cons, List.foldl_cons, addLoop_locus, ih, List.foldl_cons]
  rw [ScopeTable.ofRoot, ScopeTable.ofRoot, ← hloops]
  simp [List.filter_map, Function.comp_def, scopes, scope, List.map_filterMap, List.filterMap_map]

@[simp]
theorem chainFor_scopes (fuel number : Nat) :
    (move.scopes table).chainFor fuel number = (table.chainFor fuel number).map move.scope := by
  induction fuel generalizing number with
  | zero => rfl
  | succ fuel ih =>
      have hfound : (move.scopes table).scopes[number]? = table.scopes[number]?.map move.scope :=
        List.getElem?_map
      rw [ScopeTable.chainFor, ScopeTable.chainFor, hfound]
      cases table.scopes[number]? with
      | none => rfl
      | some found =>
          cases hparent : found.parent with
          | none => simp [scope, hparent]
          | some parent => simpa [scope, hparent] using ih parent

/-- A node that is carried over sees what it saw before. -/
@[simp]
theorem visibleFrom_locus :
    (move.scopes table).visibleFrom (move.locus node) =
      (table.visibleFrom node).map move.symbol := by
  have hown (found : Option Locus) (symbol : Symbol) :
      ((found.map move.locus).map Locus.ref ≠ some (move.symbol symbol).declaration) =
        (found.map Locus.ref ≠ some symbol.declaration) := by
    cases found <;> simp [Relocation.symbol, move.ref_injective.eq_iff]
  have hdeclaration : (node.ancestors.map move.locus).find?
      (fun ancestor => ancestor.kind.isDeclaration) =
        (node.ancestors.find? fun ancestor => ancestor.kind.isDeclaration).map move.locus := by
    simp [Function.comp_def]
  have hchain : ((move.scopes table).chain (table.scopeOf node)).flatMap Scope.symbols =
      ((table.chain (table.scopeOf node)).flatMap Scope.symbols).map move.symbol := by
    have hlength : (move.scopes table).scopes.length = table.scopes.length := List.length_map _
    rw [ScopeTable.chain, hlength, chainFor_scopes, ScopeTable.chain, List.map_flatMap,
      List.flatMap_map]
    rfl
  simp only [ScopeTable.visibleFrom, scopeOf_locus, ancestors_locus, hdeclaration, hchain,
    List.filter_map, Function.comp_def, hown, distinctBy_map]
  rfl

/-! Shapes -/

def typing (typing : Typing) : Typing :=
  { typing with root := move.locus typing.root, scopes := move.scopes typing.scopes }

theorem literalShape_locus (node : Locus) :
    (move.locus node).literalShape = node.literalShape := by
  by_cases hobject : node.kind = .object
  · rw [Locus.literalShape_object hobject,
      Locus.literalShape_object ((move.kind_locus node).trans hobject), properties_locus,
      List.filterMap_map]
    refine congrArg (fun members => Shape.object none (Keyed.ofList Member.name members))
      (List.filterMap_congr fun property hproperty => ?_)
    simp only [Function.comp_def, Locus.literalMember, propertyName_locus, propertyValue_locus]
    cases hvalue : property.propertyValue with
    | none => rfl
    | some value =>
        have := Locus.sizeOf_lt_of_exprAfter hvalue
        have := Locus.sizeOf_lt_of_mem_properties hproperty
        rw [Option.map_some, Option.map_some, Option.map_some, literalShape_locus value]
  · rw [Locus.literalShape, Locus.literalShape, kind_locus, firstToken_locus, Option.map_map,
      Function.comp_def]
    simp only [kind_locus]
    split
    · contradiction
    all_goals rfl
  termination_by sizeOf node.element

attribute [simp] literalShape_locus

variable (given : Typing)

@[simp]
theorem bodyShape_locus : (move.typing given).bodyShape (move.locus node) = given.bodyShape node := by
  simp only [Typing.bodyShape, kind_locus, resourceTypeNode_locus]
  cases node.resourceTypeNode <;> simp [typing]

/-- The kind of the element around decides what is asked for, and that is the same kind. -/
theorem expectedFrom_crumb (here : Crumb) (above : List Crumb) :
    (move.typing given).expectedFrom (move.crumb here) (above.map move.crumb) =
      given.expectedFrom here above := by
  have hkind (around : Crumb) (above : List Crumb) :
      (⟨move.crumb around, above.map move.crumb⟩ : Locus).kind = (⟨around, above⟩ : Locus).kind :=
    move.kind_locus ⟨around, above⟩
  have hbody (around : Crumb) (above : List Crumb) :
      (move.typing given).bodyShape ⟨move.crumb around, above.map move.crumb⟩ =
        given.bodyShape ⟨around, above⟩ := move.bodyShape_locus ⟨around, above⟩ given
  fun_induction Typing.expectedFrom given here above with
  | case1 => rfl
  | case2 here around above parent heq =>
      conv_lhs => unfold Typing.expectedFrom
      simp only [List.map_cons, hkind, hbody, parent, heq]
  | case3 here around above parent heq =>
      conv_lhs => unfold Typing.expectedFrom
      simp only [List.map_cons, hkind, hbody, parent, heq]
  | case4 here around object above parent heq ih =>
      have hname := move.propertyName_locus parent
      have hmoved := (hkind around (object :: above)).trans heq
      simp only [parent, locus, List.map_cons] at hname hmoved
      conv_lhs => unfold Typing.expectedFrom
      simp only [List.map_cons, hmoved, hname, ih, parent]
  | case5 here around array above parent heq ih =>
      have hmoved := (hkind around (array :: above)).trans heq
      simp only [List.map_cons] at hmoved
      conv_lhs => unfold Typing.expectedFrom
      simp only [List.map_cons, hmoved, ih]
  | case6 here around outer rest parent heq ih =>
      have hloop := move.loopBody_locus parent
      have hmoved := (hkind around (outer :: rest)).trans heq
      have houter : (move.crumb outer).element.kind = outer.element.kind := move.kind_element _
      simp only [parent, locus, List.map_cons] at hloop hmoved ih
      conv_lhs => unfold Typing.expectedFrom
      simp only [List.map_cons, hmoved, hloop, hbody, houter, ih, parent]
      cases (⟨around, outer :: rest⟩ : Locus).loopBody with
      | none => rfl
      | some body =>
          have hleft : (move.locus body).here.left.length = body.here.left.length :=
            move.length_elements _
          simp only [Option.map_some, bind, Option.bind_some, hleft, crumb, length_elements]
  | case7 here around above parent h₁ h₂ h₃ h₄ h₅ =>
      simp only [parent] at h₁ h₂ h₃ h₄ h₅
      conv_lhs => unfold Typing.expectedFrom
      simp only [List.map_cons, hkind]
      cases above <;> split <;> simp_all

@[simp]
theorem expected_locus : (move.typing given).expected (move.locus node) = given.expected node :=
  move.expectedFrom_crumb given node.here node.above

@[simp]
theorem propertyShape_locus :
    (move.typing given).propertyShape (move.locus node) = given.propertyShape node := by
  simp only [Typing.propertyShape, propertyName_locus, parent_locus]
  cases node.parent <;> simp

@[simp]
theorem symbolShape_symbol (symbol : Symbol) :
    (move.typing given).symbolShape (move.symbol symbol) = given.symbolShape symbol := by
  have hfind : (move.typing given).root.find? (move.symbol symbol).declaration =
      (given.root.find? symbol.declaration).map move.locus :=
    move.find?_locus given.root symbol.declaration
  have hkind : (move.symbol symbol).kind = symbol.kind := rfl
  simp only [Typing.symbolShape, hfind, hkind]
  cases given.root.find? symbol.declaration with
  | none => rfl
  | some declaration =>
      cases hsymbol : symbol.kind <;> simp [Option.bind_map]

/-- An expression that is carried over has the shape that it had before. -/
theorem valueShape_locus (expr : Locus) :
    (move.typing given).valueShape (move.locus expr) = given.valueShape expr := by
  have hkind := move.kind_locus expr
  by_cases hvariable : expr.kind = .variableAccess
  · rw [Typing.valueShape_variable _ hvariable,
      Typing.valueShape_variable _ (hkind.trans hvariable), identText_locus]
    have hvisible : (move.typing given).scopes.visibleFrom (move.locus expr) =
        (given.scopes.visibleFrom expr).map move.symbol := move.visibleFrom_locus expr given.scopes
    simp only [hvisible, List.find?_map, Option.bind_map, Function.comp_def, symbolShape_symbol]
    rfl
  by_cases haccess : expr.kind = .propertyAccess
  · rw [Typing.valueShape_propertyAccess _ haccess,
      Typing.valueShape_propertyAccess _ (hkind.trans haccess), operand_locus, member_locus]
    cases hoperand : expr.operand with
    | none => rfl
    | some receiver =>
        have := Locus.sizeOf_lt_of_operand hoperand
        cases hmember : expr.member with
        | none => rfl
        | some member =>
            simp only [Option.map_some, Option.bind_some, valueShape_locus receiver,
              move.text_member expr hmember]
  by_cases hindex : expr.kind = .arrayAccess
  · rw [Typing.valueShape_arrayAccess _ hindex,
      Typing.valueShape_arrayAccess _ (hkind.trans hindex), nodes_locus, List.head?_map]
    cases hfirst : expr.nodes.head? with
    | none => rfl
    | some receiver =>
        have := Locus.sizeOf_lt_of_firstNode hfirst
        simp only [Option.map_some, Option.bind_some, valueShape_locus receiver]
  by_cases hparen : expr.kind = .parenExpr
  · rw [Typing.valueShape_parenExpr _ hparen,
      Typing.valueShape_parenExpr _ (hkind.trans hparen), firstExpr_locus]
    cases hfirst : expr.firstExpr with
    | none => rfl
    | some inner =>
        have := Locus.sizeOf_lt_of_firstExpr hfirst
        simp only [Option.map_some, Option.bind_some, valueShape_locus inner]
  rw [Typing.valueShape, Typing.valueShape, kind_locus]
  split
  any_goals contradiction
  · exact congrArg some (move.literalShape_locus expr)
  · rfl
  termination_by sizeOf expr.element

attribute [simp] valueShape_locus

end Relocation

end Caret
