import Caret.Proofs.Rule.Covered
import Caret.Proofs.Rule.Ends

/-!
# How tightly operands hold together

A chain of operators goes on with the trees on its left as long as the next operator binds tightly
enough, and leaves behind an operator that does not. So what stands on the left of an operator holds
together at least as tightly as the operator, and what stands on its right more tightly, whatever
is missing there and wherever the nesting stops.
-/

namespace Caret

theorem Kind.precedence_le {kind : Kind} {precedence : Nat} (h : kind.precedence = some precedence) :
    1 ≤ precedence ∧ precedence ≤ 7 := by
  cases kind <;> cases h <;> decide

namespace Tree

def ownPrecedence : Tree → Option Nat
  | leaf kind _ => kind.precedence
  | node _ _ => none

/-- How tightly an operand holds together: a choice less than any operator, a binary operation like
its operator, a unary one more than any binary one, and all else most. -/
def tightness : Tree → Nat
  | node .ternaryExpr _ => 0
  | node .binaryExpr children => (children.findSome? ownPrecedence).getD 0
  | node .unaryExpr _ => 8
  | _ => 9

def Firm (least : Nat) (trees : List Tree) : Prop := ∀ tree ∈ trees, least ≤ tree.tightness

/-- The children of an access or a call: what is accessed or called is no operation. -/
def Receives (children : List Tree) : Prop := ∃ receiver more,
  children = receiver ++ more ∧ EndsInNode receiver ∧ Firm 9 receiver

/-- The children of an operation, an access or a call, with operands that hold together as tightly
as they must. -/
def Binds : Kind → List Tree → Prop
  | .binaryExpr, children => ∃ left operator text right precedence,
      children = left ++ leaf operator text :: right ∧ operator.precedence = some precedence ∧
        (∀ tree ∈ left ++ right, tree.IsCovered) ∧
          Firm precedence left ∧ Firm (precedence + 1) right
  | .unaryExpr, children => Firm 8 children
  | .propertyAccess, children => Receives children
  | .arrayAccess, children => Receives children
  | .callExpr, children => Receives children
  | _, _ => True

/-- The kinds of nodes that put operands together. -/
def isOperation (kind : Kind) : Bool :=
  decide (kind ∈ [Kind.ternaryExpr, .binaryExpr, .unaryExpr])

variable {least : Nat} {left right trees : List Tree}

theorem Firm.mono {bound : Nat} (h : Firm bound trees) (hle : least ≤ bound) : Firm least trees :=
  fun tree hmem => Nat.le_trans hle (h tree hmem)

theorem Firm.append (hleft : Firm least left) (hright : Firm least right) :
    Firm least (left ++ right) := fun tree hmem =>
  (List.mem_append.1 hmem).elim (hleft tree) (hright tree)

theorem firm_tokens (tokens : List Token) : Firm 9 (tokens.map ofToken) := by
  intro tree hmem
  obtain ⟨token, -, rfl⟩ := List.mem_map.1 hmem
  exact Nat.le_refl 9

theorem tightness_node {kind : Kind} (h : isOperation kind = false) (children : List Tree) :
    (node kind children).tightness = 9 := by
  cases kind <;> first | rfl | cases h

theorem IsCovered.ownPrecedence_eq {tree : Tree} (h : tree.IsCovered) : tree.ownPrecedence = none := by
  cases tree with
  | leaf kind text => cases kind <;> first | rfl | cases h
  | node kind children => rfl

/-- A binary operation is as tight as its operator. -/
theorem tightness_binaryExpr {operator : Kind} {text : String} {precedence : Nat}
    (hleft : ∀ tree ∈ left, tree.IsCovered) (h : operator.precedence = some precedence) :
    (node .binaryExpr (left ++ leaf operator text :: right)).tightness = precedence := by
  have hnone : left.findSome? ownPrecedence = none :=
    List.findSome?_eq_none_iff.2 fun tree hmem => (hleft tree hmem).ownPrecedence_eq
  have hown : ownPrecedence (leaf operator text) = some precedence := h
  rw [tightness, List.findSome?_append, hnone, Option.none_or, List.findSome?_cons, hown]
  rfl

end Tree

namespace Rule

open Tree (Firm EndsInNode)

variable {kind : Kind} {body : Rule} {input : List Lexeme} {receiver : List Tree}

theorem firm_settle (input : List Lexeme) : Firm 9 (settle input).trees := by
  cases input with
  | nil => nofun
  | cons lexeme rest => exact Tree.firm_tokens lexeme.lead

theorem firm_takeAs (tag : Kind) (input : List Lexeme) : Firm 9 (takeAs tag input).trees := by
  cases input with
  | nil => nofun
  | cons lexeme rest =>
      rw [takeAs]
      split
      · exact firm_settle _
      · refine (Tree.firm_tokens lexeme.lead).append fun tree hmem => ?_
        rw [List.mem_singleton.1 hmem]
        exact Nat.le_refl 9

theorem firm_wrap (h : Tree.isOperation kind = false) (left : List Tree) (body : Rule)
    (input : List Lexeme) : Firm 9 (wrap kind left body input).trees := by
  intro tree hmem
  rw [List.mem_singleton.1 hmem]
  exact Nat.le_of_eq (Tree.tightness_node h _).symm

theorem firm_node (h : Tree.isOperation kind = false) (body : Rule) (input : List Lexeme) :
    Firm 9 (node kind body input).trees :=
  (firm_settle input).append (firm_wrap h [] body _)

theorem firm_absent (expected : Expected) (input : List Lexeme) :
    Firm 9 (absent expected input).trees := firm_node rfl done input

theorem firm_tooDeep (input : List Lexeme) : Firm 9 (tooDeep input).trees := by
  have hskip : Firm 9 (skipTo [.newline] .nestingTooDeep input).trees := by
    change Firm 9 (unlessAt _ _ input).trees
    unfold unlessAt
    split
    · nofun
    · exact firm_node rfl _ input
  exact hskip.append (firm_node rfl done _)

theorem firm_primary (expr : Rule) (input : List Lexeme) : Firm 9 (primary expr input).trees := by
  have hnode : ∀ kind ∈ operandKinds, Tree.isOperation kind = false := by decide
  rcases primary_eq_node_or_absent expr input with ⟨kind, body, hkind, heq⟩ | heq
  · rw [heq]
    exact firm_node (hnode kind hkind) body input
  · rw [heq]
    exact firm_absent _ input

/-- Operands that are tight enough for a chain of operators to go on with the next token. -/
def Carries (least : Nat) (left : List Tree) (input : List Lexeme) : Prop :=
  Firm least left ∧ ∀ precedence ∈ (Rule.kind input).precedence, Firm precedence left

/-- What the rules of a level leave behind. -/
structure Level.Orders (level : Level) : Prop where
  unary : ∀ input, Firm 8 (level.unary input).trees
  links : ∀ receiver input, Firm 9 receiver → Firm 9 (level.links receiver input).trees
  operators : ∀ least left input, Led input → (∀ tree ∈ left, tree.IsCovered) →
    Carries least left input → Firm least (level.operators least left input).trees ∧
      ∀ precedence ∈ (Rule.kind (level.operators least left input).rest).precedence,
        precedence < least

namespace Level

variable {level : Level} {least precedence : Nat} {left : List Tree}

theorem Orders.carries_unary (h : level.Orders) (hleast : least ≤ 8) (input rest : List Lexeme) :
    Carries least (level.unary input).trees rest :=
  ⟨(h.unary input).mono hleast, fun _ hmem =>
    (h.unary input).mono (Nat.le_trans (Kind.precedence_le hmem).2 (by decide))⟩

/-- Operators of some tightness are read up to one that is less tight. -/
theorem Orders.binary (h : level.Orders) (hspells : level.Spells) (hcovered : level.Covered)
    (hleast : least ≤ 8) (hinput : Led input) : Firm least (level.binary least input).trees ∧
      ∀ precedence ∈ (Rule.kind (level.binary least input).rest).precedence, precedence < least := by
  have hled : Led (settle input).rest := (spells_settle input).led hinput
  obtain ⟨hfirm, hrest⟩ := h.operators least _ _ ((hspells.unary _).led hled)
    (hcovered.unary _ hled) (h.carries_unary hleast _ _)
  exact ⟨((firm_settle input).mono (Nat.le_trans hleast (by decide))).append hfirm, hrest⟩

/-- An operation fits to its operator, and is as tight as that. -/
theorem Orders.operation (h : level.Orders) (hspells : level.Spells) (hcovered : level.Covered)
    (hinput : Led input) (hleft : ∀ tree ∈ left, tree.IsCovered) (hfirm : Firm precedence left)
    (hkind : (Rule.kind input).precedence = some precedence) :
    Tree.Binds .binaryExpr (left ++ ((take ++ level.binary (precedence + 1)) input).trees) ∧
      (Tree.node .binaryExpr
        (left ++ ((take ++ level.binary (precedence + 1)) input).trees)).tightness = precedence ∧
      ∀ next ∈ (Rule.kind ((take ++ level.binary (precedence + 1)) input).rest).precedence,
        next ≤ precedence := by
  cases input with
  | nil => cases hkind
  | cons lexeme rest =>
      rw [kind_cons] at hkind
      have heof : lexeme.kind ≠ .eof := by
        intro heof
        rw [heof] at hkind
        cases hkind
      obtain ⟨hone, hseven⟩ := Kind.precedence_le hkind
      obtain ⟨hright, hrest⟩ := h.binary hspells hcovered (by omega : precedence + 1 ≤ 8) hinput.tail
      have hlead : ∀ tree ∈ lexeme.lead.map Tree.ofToken, tree.IsCovered := fun tree hmem =>
        Tree.isCovered_of_mem_lead (hinput lexeme List.mem_cons_self).1 hmem
      have hbefore : ∀ tree ∈ left ++ lexeme.lead.map Tree.ofToken, tree.IsCovered :=
        fun tree hmem => (List.mem_append.1 hmem).elim (hleft tree) (hlead tree)
      have hafter := hcovered.binary hspells (precedence + 1) rest hinput.tail
      have htrees : left ++ ((take ++ level.binary (precedence + 1)) (lexeme :: rest)).trees =
          left ++ lexeme.lead.map Tree.ofToken ++
            .leaf lexeme.kind lexeme.token.text :: (level.binary (precedence + 1) rest).trees := by
        rw [andThen_apply, take, takeAs, if_neg heof]
        simp [kind_cons]
      have hmore : ((take ++ level.binary (precedence + 1)) (lexeme :: rest)).rest =
          (level.binary (precedence + 1) rest).rest := by
        rw [andThen_apply, take, takeAs, if_neg heof]
      rw [htrees, hmore]
      refine ⟨⟨_, _, _, _, precedence, rfl, hkind, fun tree hmem => ?_, ?_, hright⟩,
        Tree.tightness_binaryExpr hbefore hkind, fun next hmem => Nat.le_of_lt_succ (hrest next hmem)⟩
      · exact (List.mem_append.1 hmem).elim (hbefore tree) (hafter tree)
      · exact hfirm.append ((Tree.firm_tokens _).mono (Nat.le_trans hseven (by decide)))

/-- A chain goes on from an operation with operators that bind at most as tightly. -/
theorem Orders.carries_operation (h : level.Orders) (hspells : level.Spells)
    (hcovered : level.Covered) (hinput : Led input) (hleft : ∀ tree ∈ left, tree.IsCovered)
    (hfirm : Firm precedence left) (hkind : (Rule.kind input).precedence = some precedence)
    (hleast : least ≤ precedence) :
    Carries least (wrap .binaryExpr left (take ++ level.binary (precedence + 1)) input).trees
      (wrap .binaryExpr left (take ++ level.binary (precedence + 1)) input).rest := by
  obtain ⟨-, htightness, hrest⟩ := h.operation hspells hcovered hinput hleft hfirm hkind
  constructor
  · intro tree hmem
    rw [List.mem_singleton.1 hmem, htightness]
    exact hleast
  · intro next hnext tree hmem
    rw [List.mem_singleton.1 hmem, htightness]
    exact hrest next hnext

theorem firm_link (level : Level) (receiver : List Tree) (input : List Lexeme) :
    Firm 9 (level.link receiver input).trees := by
  have hnode : ∀ kind ∈ linkKinds, Tree.isOperation kind = false := by decide
  obtain ⟨kind, body, hkind, heq⟩ := link_eq_wrap level receiver input
  rw [heq]
  exact firm_wrap (hnode kind hkind) receiver body input

theorem orders_above {below : Option Level} (hspells : ∀ level ∈ below, level.Spells)
    (hcovered : ∀ level ∈ below, level.Covered) (h : ∀ level ∈ below, level.Orders) :
    (above below).Orders := by
  have hlinks : ∀ receiver input, Firm 9 receiver →
      Firm 9 ((above below).links receiver input).trees := by
    intro receiver input hreceiver
    rw [links_above]
    split
    · cases below with
      | none => exact hreceiver.append (firm_tooDeep input)
      | some level => exact (h level rfl).links _ _ (firm_link level receiver input)
    · exact hreceiver
  refine ⟨fun input => ?_, hlinks, fun least left input hinput hleft hcarries => ?_⟩
  · rw [unary_above]
    split
    · cases below with
      | none => exact (firm_tooDeep input).mono (by decide)
      | some level =>
          refine ((firm_settle input).mono (by decide)).append fun tree hmem => ?_
          rw [List.mem_singleton.1 hmem]
          exact Nat.le_refl 8
    · exact ((firm_settle input).append (hlinks _ _ (firm_primary _ _))).mono (by decide)
  · rw [operators_above]
    obtain ⟨hleast, hnext⟩ := hcarries
    split
    · rename_i hnone
      refine ⟨hleast, fun precedence hmem => ?_⟩
      rw [show (Rule.kind (keep left input).rest).precedence = none from hnone] at hmem
      cases hmem
    · rename_i precedence hsome
      split
      · rename_i hlt
        refine ⟨hleast, fun other hmem => ?_⟩
        rw [show (Rule.kind (keep left input).rest).precedence = some precedence from hsome] at hmem
        rwa [← Option.some.inj hmem]
      · rename_i hge
        rw [Nat.not_lt] at hge
        cases below with
        | none =>
            have hle : least ≤ 9 := Nat.le_trans hge (Nat.le_trans (Kind.precedence_le hsome).2 (by decide))
            refine ⟨hleast.append ((firm_tooDeep input).mono hle), fun other hmem => ?_⟩
            change other ∈ (Rule.kind (tooDeep input).rest).precedence at hmem
            rcases kind_tooDeep input with hkind | hkind <;> rw [hkind] at hmem <;> cases hmem
        | some level =>
            have hbody : ((take ++ level.binary (precedence + 1)) input).Spells [] input :=
              spells_andThen (spells_take input) ((hspells level rfl).binary _ _)
            exact (h level rfl).operators least _ _ (hbody.led hinput)
              (covered_wrap left _ rfl input hinput)
              ((h level rfl).carries_operation (hspells level rfl) (hcovered level rfl) hinput hleft
                (hnext precedence hsome) hsome hge)

end Level

theorem orders_level (budget : Nat) : (level budget).Orders :=
  level_induction (fun _ hbelow known => Level.orders_above (known spells_level)
    (known covered_level) hbelow) budget

end Rule

end Caret
