import Caret.Proofs.Scope.Carried

/-!
# Shapes whose lookup fails

The shape of a value and the shape that a place asks for are worked out from one lookup at most. When
lookups fail, each of them is as it was or not known any more, and never another one.
-/

namespace Caret

/-- What was known is not known any more, or it is the same. -/
def Fades {α : Type} (less more : Option α) : Prop := less = none ∨ less = more

namespace Fades

variable {α β : Type} {less more : Option α}

theorem refl (known : Option α) : Fades known known := .inr rfl

theorem bind (h : Fades less more) {first second : α → Option β}
    (hnext : ∀ x, Fades (first x) (second x)) : Fades (less.bind first) (more.bind second) := by
  obtain rfl | rfl := h
  · exact .inl rfl
  · cases less with
    | none => exact .inl rfl
    | some x => exact hnext x

theorem bind_left (h : Fades less more) (next : α → Option β) :
    Fades (less.bind next) (more.bind next) :=
  h.bind fun x => refl (next x)

theorem map (h : Fades less more) (f : α → β) : Fades (less.map f) (more.map f) := by
  rw [Option.map_eq_bind, Option.map_eq_bind]
  exact h.bind_left _

/-- What fades both ways is the same. -/
theorem antisymm (h : Fades less more) (hback : Fades more less) : less = more := by
  obtain rfl | rfl := h
  · obtain hnone | hsame := hback
    · exact hnone.symm
    · exact hsame.symm
  · rfl

end Fades

/-- Two typings of one document, the first of which may know less of the resource types. -/
structure Typing.Loses (less more : Typing) : Prop where
  root_eq : less.root = more.root
  scopes_eq : less.scopes = more.scopes
  lookup : ∀ id, Fades (less.types.lookup id).toOption (more.types.lookup id).toOption

namespace Typing.Loses

variable {less more : Typing}

theorem bodyShape (h : less.Loses more) (declaration : Locus) :
    Fades (less.bodyShape declaration) (more.bodyShape declaration) := by
  unfold Typing.bodyShape
  split
  · refine (Fades.refl declaration.resourceTypeNode).bind fun typeNode => ?_
    exact (Fades.refl typeNode.quotedValue).bind fun id => h.lookup id
  · exact .refl _
  · exact .refl _

/-- On the way up from a place, each step asks for a shape, or for a part of the one further up. -/
theorem expectedFrom (h : less.Loses more) (here : Crumb) (above : List Crumb) :
    Fades (less.expectedFrom here above) (more.expectedFrom here above) := by
  cases above with
  | nil => exact .refl none
  | cons around above =>
      rw [Typing.expectedFrom.eq_def, Typing.expectedFrom.eq_def more]
      dsimp only
      split
      · exact h.bodyShape _
      · exact h.bodyShape _
      · rename_i object above _
        refine (Fades.refl _).bind fun name => (h.expectedFrom object above).bind_left _
      · rename_i array above _
        exact (h.expectedFrom array above).bind_left _
      · rename_i outer rest _
        refine (Fades.refl _).bind fun body => (Fades.refl _).bind fun _ => ?_
        split
        · exact h.bodyShape _
        · exact (h.expectedFrom around (outer :: rest)).bind_left _
      · exact .refl none
  termination_by above.length

theorem expected (h : less.Loses more) (node : Locus) :
    Fades (less.expected node) (more.expected node) :=
  h.expectedFrom node.here node.above

theorem propertyShape (h : less.Loses more) (property : Locus) :
    Fades (less.propertyShape property) (more.propertyShape property) :=
  (Fades.refl property.propertyName).bind fun _ => (Fades.refl property.parent).bind fun object =>
    (h.expected object).bind_left _

theorem symbolShape (h : less.Loses more) (symbol : Symbol) :
    Fades (less.symbolShape symbol) (more.symbolShape symbol) := by
  unfold Typing.symbolShape
  rw [h.root_eq]
  refine (Fades.refl _).bind fun declaration => ?_
  split
  · exact (h.bodyShape declaration).map _
  all_goals exact .refl _

/-- The shape of a value is that of a symbol, or a part of the shape of a smaller value. -/
theorem valueShape (h : less.Loses more) (expr : Locus) :
    Fades (less.valueShape expr) (more.valueShape expr) := by
  by_cases hvariable : expr.kind = .variableAccess
  · rw [Typing.valueShape_variable _ hvariable, Typing.valueShape_variable _ hvariable, h.scopes_eq]
    exact (Fades.refl _).bind fun name => (Fades.refl _).bind h.symbolShape
  by_cases haccess : expr.kind = .propertyAccess
  · rw [Typing.valueShape_propertyAccess _ haccess, Typing.valueShape_propertyAccess _ haccess]
    cases hoperand : expr.operand with
    | none => exact .refl none
    | some receiver =>
        have := Locus.sizeOf_lt_of_operand hoperand
        exact (Fades.refl expr.member).bind fun member => (h.valueShape receiver).bind_left _
  by_cases hindex : expr.kind = .arrayAccess
  · rw [Typing.valueShape_arrayAccess _ hindex, Typing.valueShape_arrayAccess _ hindex]
    cases hfirst : expr.nodes.head? with
    | none => exact .refl none
    | some receiver =>
        have := Locus.sizeOf_lt_of_firstNode hfirst
        exact (h.valueShape receiver).bind_left _
  by_cases hparen : expr.kind = .parenExpr
  · rw [Typing.valueShape_parenExpr _ hparen, Typing.valueShape_parenExpr _ hparen]
    cases hfirst : expr.firstExpr with
    | none => exact .refl none
    | some inner =>
        have := Locus.sizeOf_lt_of_firstExpr hfirst
        exact h.valueShape inner
  rw [Typing.valueShape, Typing.valueShape]
  split
  any_goals contradiction
  all_goals exact .refl _
  termination_by sizeOf expr.element

end Typing.Loses

end Caret
