import Caret.Proofs.Ast.Basic

/-!
# Programs without their parentheses

The parentheses around operands that bind too loosely are all that grouping adds to a program.
-/

namespace Caret

namespace Ast

mutual

/-- An expression without the parentheses in it. -/
def Expr.plain : Expr → Expr
  | .access name => .access name
  | .integer digits => .integer digits
  | .constant value => .constant value
  | .string multiline parts => .string multiline parts.plain
  | .object properties => .object properties.plain
  | .array items => .array items.plain
  | .loop item iterable body => .loop item iterable.plain body.plain
  | .paren inner => inner.plain
  | .unary sign operand => .unary sign operand.plain
  | .binary operator left right => .binary operator left.plain right.plain
  | .ternary test yes no => .ternary test.plain yes.plain no.plain
  | .member receiver name => .member receiver.plain name
  | .index receiver position => .index receiver.plain position.plain
  | .call callee arguments => .call callee.plain arguments.plain

def Parts.plain : Parts → Parts
  | .last text => .last text
  | .hole text inner rest => .hole text inner.plain rest.plain

def Items.plain : Items → Items
  | .nil => .nil
  | .one item => .one item.plain
  | .cons item separator rest => .cons item.plain separator rest.plain

def Key.plain : Key → Key
  | .word name => .word name
  | .string multiline parts => .string multiline parts.plain

def Properties.plain : Properties → Properties
  | .nil => .nil
  | .one key value => .one key.plain value.plain
  | .cons key value separator rest => .cons key.plain value.plain separator rest.plain

end

theorem Expr.plain_within (least : Nat) (expr : Expr) : (expr.within least).plain = expr.plain := by
  unfold within
  split
  · rw [plain]
  · rfl

/-- An expression that differs from the grouped one in parentheses alone. -/
def Expr.IsPlain (expr : Expr) : Prop := expr.grouped.plain = expr.plain

theorem Parts.plain_grouped : ∀ {parts : Parts}, parts.All Expr.IsPlain →
    parts.grouped.plain = parts.plain
  | .last _, _ => rfl
  | .hole text inner rest, ⟨hinner, hrest⟩ => by
    rw [grouped, plain, plain, hinner, plain_grouped hrest]

theorem Items.plain_grouped : ∀ {items : Items}, items.All Expr.IsPlain →
    items.grouped.plain = items.plain
  | .nil, _ => rfl
  | .one item, hitem => congrArg Items.one hitem
  | .cons item separator rest, ⟨hitem, hrest⟩ => by
    rw [grouped, plain, plain, hitem, plain_grouped hrest]

theorem Key.plain_grouped : ∀ {key : Key}, key.All Expr.IsPlain → key.grouped.plain = key.plain
  | .word _, _ => rfl
  | .string multiline _, hparts => congrArg (Key.string multiline) (Parts.plain_grouped hparts)

theorem Properties.plain_grouped : ∀ {properties : Properties}, properties.All Expr.IsPlain →
    properties.grouped.plain = properties.plain
  | .nil, _ => rfl
  | .one key value, ⟨hkey, hvalue⟩ => by
    rw [grouped, plain, plain, Key.plain_grouped hkey, hvalue]
  | .cons key value separator rest, ⟨⟨hkey, hvalue⟩, hrest⟩ => by
    rw [grouped, plain, plain, Key.plain_grouped hkey, hvalue, plain_grouped hrest]

/-- Grouping changes nothing but parentheses. -/
theorem Expr.plain_grouped (expr : Expr) : expr.grouped.plain = expr.plain := by
  induction expr using Expr.induction with
  | step expr ih =>
      cases expr with
      | access | integer | constant => rfl
      | string multiline parts => exact congrArg (Expr.string multiline) (Parts.plain_grouped ih)
      | object properties => exact congrArg Expr.object (Properties.plain_grouped ih)
      | array items => exact congrArg Expr.array (Items.plain_grouped ih)
      | loop item iterable body => rw [grouped, plain, plain, ih.1, ih.2]
      | paren inner => rw [grouped, plain, plain, ih]
      | unary sign operand => rw [grouped, plain, plain, plain_within, ih]
      | binary operator left right =>
          rw [grouped, plain, plain, plain_within, plain_within, ih.1, ih.2]
      | ternary test yes no => rw [grouped, plain, plain, plain_within, ih.1, ih.2.1, ih.2.2]
      | member receiver name => rw [grouped, plain, plain, plain_within, ih]
      | index receiver position => rw [grouped, plain, plain, plain_within, ih.1, ih.2]
      | call callee arguments =>
          rw [grouped, plain, plain, plain_within, ih.1, Items.plain_grouped ih.2]

/-! Declarations -/

theorem Expr.startsWithName_plain {expr : Expr} (h : expr.startsWithName = true) :
    expr.plain.startsWithName = true := by
  induction expr using Expr.induction with
  | step expr ih =>
      cases expr with
      | access => rfl
      | member => exact ih h
      | index | call => exact ih.1 h
      | _ => cases h

def Decorator.plain (decorator : Decorator) : Decorator :=
  ⟨decorator.chain.plain, Expr.startsWithName_plain decorator.startsWithName⟩

def Declaration.plain : Declaration → Declaration
  | targetScope value => targetScope value.plain
  | param name type default => param name type (default.map Expr.plain)
  | var name value => var name value.plain
  | output name type value => output name type value.plain
  | resource name multiline type existing value =>
    resource name multiline type.plain existing value.plain
  | module name multiline path value => module name multiline path.plain value.plain

def Decorated.plain (decorated : Decorated) : Decorated :=
  ⟨decorated.decorators.map Decorator.plain, decorated.declaration.plain⟩

/-- A program without the parentheses in it. -/
def Program.plain (program : Program) : Program := ⟨program.declarations.map Decorated.plain⟩

theorem Decorator.plain_grouped (decorator : Decorator) :
    decorator.grouped.plain = decorator.plain := by
  obtain ⟨chain, hstarts⟩ := decorator
  simp only [grouped, plain, chain.plain_grouped]

theorem Declaration.plain_grouped (declaration : Declaration) :
    declaration.grouped.plain = declaration.plain := by
  have hparts : ∀ parts : Parts, parts.grouped.plain = parts.plain := fun parts =>
    Parts.plain_grouped (Parts.all_of_step (fun expr _ => expr.plain_grouped) parts)
  cases declaration with
  | param name type default =>
      cases default with
      | none => rfl
      | some value => simp only [grouped, plain, Option.map_some, value.plain_grouped]
  | _ => simp only [grouped, plain, Expr.plain_grouped, hparts]

theorem Decorated.plain_grouped (decorated : Decorated) :
    decorated.grouped.plain = decorated.plain := by
  have hdecorators : decorated.decorators.map (Decorator.plain ∘ Decorator.grouped) =
      decorated.decorators.map Decorator.plain :=
    List.map_congr_left fun decorator _ => decorator.plain_grouped
  simp only [grouped, plain, List.map_map, decorated.declaration.plain_grouped, hdecorators]

theorem Program.plain_grouped (program : Program) : program.grouped.plain = program.plain := by
  have hdeclarations : program.declarations.map (Decorated.plain ∘ Decorated.grouped) =
      program.declarations.map Decorated.plain :=
    List.map_congr_left fun decorated _ => decorated.plain_grouped
  simp only [grouped, plain, List.map_map, hdeclarations]

end Ast

end Caret
