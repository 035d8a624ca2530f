import Caret.Rule.Document
import Caret.Text.Quoted

/-!
# Programs as they are meant

A program without the spaces, the parentheses that only show what binds tighter, and the choices of
a writer other than those of separators and of quotes. Operators can have any operands: where an
operand binds too loosely, `grouped` puts parentheses around it.
-/

namespace Caret

namespace Ast

/-- An identifier. -/
structure Name where
  text : String
  valid : Identifier.isValid text = true
  deriving DecidableEq

/-- Whether a text is spelled as identifiers and reserved words are. -/
def isSpelled (text : String) : Bool :=
  match text.toList with
  | [] => false
  | c :: cs => Identifier.startsWith c && cs.all Identifier.continuesWith

theorem isSpelled_of_isValid {text : String} (h : Identifier.isValid text = true) :
    isSpelled text = true := (Bool.and_eq_true_iff.1 h).1

/-- The name of a key or a member, which can be a reserved word. -/
structure Word where
  text : String
  valid : isSpelled text = true
  deriving DecidableEq

/-- A number that is not negative, as it is written. -/
structure Digits where
  text : String
  ne_empty : text ≠ ""
  valid : text.toList.all Char.isDigit = true
  deriving DecidableEq

/-- A word that stands for a value. -/
structure Constant where
  text : String
  kind : Kind
  valid : Kind.ofReserved text = some kind
  deriving DecidableEq

inductive Sign where
  | not
  | minus
  deriving DecidableEq, Repr

/-- An operator between two operands. -/
structure Operator where
  kind : Kind
  precedence : Nat
  valid : kind.precedence = some precedence
  deriving DecidableEq

inductive Separator where
  | newline
  | comma
  deriving DecidableEq, Repr

mutual

inductive Expr where
  | access (name : Name)
  | integer (digits : Digits)
  | constant (value : Constant)
  | string (multiline : Bool) (parts : Parts)
  | object (properties : Properties)
  | array (items : Items)
  | loop (item : Name) (iterable body : Expr)
  | paren (inner : Expr)
  | unary (sign : Sign) (operand : Expr)
  | binary (operator : Operator) (left right : Expr)
  | ternary (test yes no : Expr)
  | member (receiver : Expr) (name : Word)
  | index (receiver position : Expr)
  | call (callee : Expr) (arguments : Items)

/-- The texts of a string and the holes between them. -/
inductive Parts where
  | last (text : String)
  | hole (text : String) (inner : Expr) (rest : Parts)

/-- Items of an array or arguments of a call, with the separators between them. One more can stand
behind the last item. -/
inductive Items where
  | nil
  | one (item : Expr)
  | cons (item : Expr) (separator : Separator) (rest : Items)

inductive Key where
  | word (name : Word)
  | string (multiline : Bool) (parts : Parts)

inductive Properties where
  | nil
  | one (key : Key) (value : Expr)
  | cons (key : Key) (value : Expr) (separator : Separator) (rest : Properties)

end

/-! Induction over the expressions in a program -/

/-- All expressions in the holes of a string satisfy `p`. -/
def Parts.All (p : Expr → Prop) : Parts → Prop
  | .last _ => True
  | .hole _ inner rest => p inner ∧ rest.All p

def Items.All (p : Expr → Prop) : Items → Prop
  | .nil => True
  | .one item => p item
  | .cons item _ rest => p item ∧ rest.All p

def Key.All (p : Expr → Prop) : Key → Prop
  | .word _ => True
  | .string _ parts => parts.All p

def Properties.All (p : Expr → Prop) : Properties → Prop
  | .nil => True
  | .one key value => key.All p ∧ p value
  | .cons key value _ rest => (key.All p ∧ p value) ∧ rest.All p

/-- All expressions right below an expression satisfy `p`. -/
def Expr.Below (p : Expr → Prop) : Expr → Prop
  | .access _ | .integer _ | .constant _ => True
  | .string _ parts => parts.All p
  | .object properties => properties.All p
  | .array items => items.All p
  | .loop _ iterable body => p iterable ∧ p body
  | .paren inner => p inner
  | .unary _ operand => p operand
  | .binary _ left right => p left ∧ p right
  | .ternary test yes no => p test ∧ p yes ∧ p no
  | .member receiver _ => p receiver
  | .index receiver position => p receiver ∧ p position
  | .call callee arguments => p callee ∧ arguments.All p

section Induction

variable {motive : Expr → Prop} (step : ∀ expr : Expr, expr.Below motive → motive expr)

include step

mutual

/-- What goes over from the expressions right below an expression to the expression itself holds of
all of them. -/
@[elab_as_elim]
theorem Expr.induction : ∀ expr : Expr, motive expr
  | .access name => step (.access name) trivial
  | .integer digits => step (.integer digits) trivial
  | .constant value => step (.constant value) trivial
  | .string multiline parts => step (.string multiline parts) (Parts.all_of_step parts)
  | .object properties => step (.object properties) (Properties.all_of_step properties)
  | .array items => step (.array items) (Items.all_of_step items)
  | .loop item iterable body =>
    step (.loop item iterable body) ⟨Expr.induction iterable, Expr.induction body⟩
  | .paren inner => step (.paren inner) (Expr.induction inner)
  | .unary sign operand => step (.unary sign operand) (Expr.induction operand)
  | .binary operator left right =>
    step (.binary operator left right) ⟨Expr.induction left, Expr.induction right⟩
  | .ternary test yes no =>
    step (.ternary test yes no) ⟨Expr.induction test, Expr.induction yes, Expr.induction no⟩
  | .member receiver name => step (.member receiver name) (Expr.induction receiver)
  | .index receiver position =>
    step (.index receiver position) ⟨Expr.induction receiver, Expr.induction position⟩
  | .call callee arguments =>
    step (.call callee arguments) ⟨Expr.induction callee, Items.all_of_step arguments⟩

theorem Parts.all_of_step : ∀ parts : Parts, parts.All motive
  | .last _ => trivial
  | .hole _ inner rest => ⟨Expr.induction inner, Parts.all_of_step rest⟩

theorem Items.all_of_step : ∀ items : Items, items.All motive
  | .nil => trivial
  | .one item => Expr.induction item
  | .cons item _ rest => ⟨Expr.induction item, Items.all_of_step rest⟩

theorem Key.all_of_step : ∀ key : Key, key.All motive
  | .word _ => trivial
  | .string _ parts => Parts.all_of_step parts

theorem Properties.all_of_step : ∀ properties : Properties, properties.All motive
  | .nil => trivial
  | .one key value => ⟨Key.all_of_step key, Expr.induction value⟩
  | .cons key value _ rest =>
    ⟨⟨Key.all_of_step key, Expr.induction value⟩, Properties.all_of_step rest⟩

end

end Induction

namespace Expr

/-- How tightly the operator at the top of an expression binds. -/
def tightness : Expr → Nat
  | ternary .. => 0
  | binary operator .. => operator.precedence
  | unary .. => 8
  | _ => 9

/-- An expression in a place where it has to bind so tightly. -/
def within (least : Nat) (expr : Expr) : Expr := if expr.tightness < least then paren expr else expr

/-- Whether the first token of an expression is a variable named `for`. -/
def startsWithFor : Expr → Bool
  | access name => name.text = "for"
  | binary _ left _ => left.startsWithFor
  | ternary test .. => test.startsWithFor
  | member receiver _ | index receiver _ => receiver.startsWithFor
  | call callee _ => callee.startsWithFor
  | _ => false

/-- Whether an expression is a variable, perhaps with members, indexes and calls. -/
def startsWithName : Expr → Bool
  | access _ => true
  | member receiver _ | index receiver _ => receiver.startsWithName
  | call callee _ => callee.startsWithName
  | _ => false

/-- The number of members, indexes and calls at the end of an expression. -/
def links : Expr → Nat
  | member receiver _ | index receiver _ => receiver.links + 1
  | call callee _ => callee.links + 1
  | _ => 0

/-- The number of operators that the left operands of an expression are parted by, its own one
counted. -/
def operators : Expr → Nat
  | binary _ left _ => left.operators + 1
  | _ => 0

end Expr

mutual

/-- An expression with parentheses where an operand binds too loosely. -/
def Expr.grouped : Expr → Expr
  | .access name => .access name
  | .integer digits => .integer digits
  | .constant value => .constant value
  | .string multiline parts => .string multiline parts.grouped
  | .object properties => .object properties.grouped
  | .array items => .array items.grouped
  | .loop item iterable body => .loop item iterable.grouped body.grouped
  | .paren inner => .paren inner.grouped
  | .unary sign operand => .unary sign (operand.grouped.within 8)
  | .binary operator left right =>
    .binary operator (left.grouped.within operator.precedence)
      (right.grouped.within (operator.precedence + 1))
  | .ternary test yes no => .ternary (test.grouped.within 1) yes.grouped no.grouped
  | .member receiver name => .member (receiver.grouped.within 9) name
  | .index receiver position => .index (receiver.grouped.within 9) position.grouped
  | .call callee arguments => .call (callee.grouped.within 9) arguments.grouped

def Parts.grouped : Parts → Parts
  | .last text => .last text
  | .hole text inner rest => .hole text inner.grouped rest.grouped

def Items.grouped : Items → Items
  | .nil => .nil
  | .one item => .one item.grouped
  | .cons item separator rest => .cons item.grouped separator rest.grouped

def Key.grouped : Key → Key
  | .word name => .word name
  | .string multiline parts => .string multiline parts.grouped

def Properties.grouped : Properties → Properties
  | .nil => .nil
  | .one key value => .one key.grouped value.grouped
  | .cons key value separator rest => .cons key.grouped value.grouped separator rest.grouped

end

mutual

/-- The number of levels that are open at once while an operand is read: expressions, signs and the
operators and links of a chain count. -/
def Expr.nesting : Expr → Nat
  | .access _ | .integer _ | .constant _ => 0
  | .string _ parts => parts.nesting
  | .object properties => properties.nesting
  | .array items => items.nesting
  | .loop _ iterable body => max (iterable.nesting + 1) (body.nesting + 1)
  | .paren inner => inner.nesting + 1
  | .unary _ operand => operand.nesting + 1
  | .binary _ left right => max left.nesting (left.operators + 1 + right.nesting)
  | .ternary test yes no => max test.nesting (max (yes.nesting + 1) (no.nesting + 1))
  | .member receiver _ => max receiver.nesting (receiver.links + 1)
  | .index receiver position => max receiver.nesting (receiver.links + 1 + (position.nesting + 1))
  | .call callee arguments => max callee.nesting (callee.links + 1 + arguments.nesting)

def Parts.nesting : Parts → Nat
  | .last _ => 0
  | .hole _ inner rest => max (inner.nesting + 1) rest.nesting

def Items.nesting : Items → Nat
  | .nil => 0
  | .one item => item.nesting + 1
  | .cons item _ rest => max (item.nesting + 1) rest.nesting

def Key.nesting : Key → Nat
  | .word _ => 0
  | .string _ parts => parts.nesting

def Properties.nesting : Properties → Nat
  | .nil => 0
  | .one key value => max key.nesting (value.nesting + 1)
  | .cons key value _ rest => max (max key.nesting (value.nesting + 1)) rest.nesting

end

attribute [simp] Expr.nesting Parts.nesting Items.nesting Key.nesting Properties.nesting

/-! Declarations -/

/-- The name of a function, perhaps with members, indexes and calls. -/
structure Decorator where
  chain : Expr
  startsWithName : chain.startsWithName = true

inductive Declaration where
  | targetScope (value : Expr)
  | param (name type : Name) (default : Option Expr)
  | var (name : Name) (value : Expr)
  | output (name type : Name) (value : Expr)
  | resource (name : Name) (multiline : Bool) (type : Parts) (existing : Bool) (value : Expr)
  | module (name : Name) (multiline : Bool) (path : Parts) (value : Expr)

structure Decorated where
  decorators : List Decorator
  declaration : Declaration

structure Program where
  declarations : List Decorated

theorem Expr.tightness_of_startsWithName {expr : Expr} (h : expr.startsWithName = true) :
    expr.tightness = 9 := by
  cases expr <;> first | rfl | cases h

theorem Expr.startsWithName_grouped {expr : Expr} (h : expr.startsWithName = true) :
    expr.grouped.startsWithName = true := by
  have hkept : ∀ {receiver : Expr}, receiver.grouped.startsWithName = true →
      (receiver.grouped.within 9).startsWithName = true := by
    intro receiver hstarts
    rwa [within, tightness_of_startsWithName hstarts, if_neg (Nat.lt_irrefl 9)]
  induction expr using Expr.induction with
  | step expr ih =>
      cases expr <;> first | exact absurd h Bool.false_ne_true | skip
      · exact h
      · exact hkept (ih h)
      · exact hkept (ih.1 h)
      · exact hkept (ih.1 h)

def Decorator.grouped (decorator : Decorator) : Decorator :=
  ⟨decorator.chain.grouped, Expr.startsWithName_grouped decorator.startsWithName⟩

def Declaration.grouped : Declaration → Declaration
  | targetScope value => targetScope value.grouped
  | param name type default => param name type (default.map Expr.grouped)
  | var name value => var name value.grouped
  | output name type value => output name type value.grouped
  | resource name multiline type existing value =>
    resource name multiline type.grouped existing value.grouped
  | module name multiline path value => module name multiline path.grouped value.grouped

def Decorated.grouped (decorated : Decorated) : Decorated :=
  ⟨decorated.decorators.map Decorator.grouped, decorated.declaration.grouped⟩

/-- A program with parentheses where an operand binds too loosely. -/
def Program.grouped (program : Program) : Program := ⟨program.declarations.map Decorated.grouped⟩

/-! Nesting -/

def Decorator.nesting (decorator : Decorator) : Nat := decorator.chain.nesting

def Declaration.nesting : Declaration → Nat
  | targetScope value => value.nesting + 1
  | param _ _ default => (default.map fun value => value.nesting + 1).getD 0
  | var _ value => value.nesting + 1
  | output _ _ value => value.nesting + 1
  | resource _ _ type _ value => max type.nesting (value.nesting + 1)
  | module _ _ path value => max path.nesting (value.nesting + 1)

/-- Whether no more levels than `most` are open at once while a declaration is read. -/
def Decorated.nestsWithin (most : Nat) (decorated : Decorated) : Bool :=
  decorated.decorators.all (·.nesting ≤ most) && decorated.declaration.nesting ≤ most

def Program.nestsWithin (most : Nat) (program : Program) : Bool :=
  program.declarations.all (·.nestsWithin most)

/-! What can be written -/

/-- Whether three quotes or the start of a hole stand nowhere in a text. -/
def isUnbroken : List Char → Bool
  | [] => true
  | c :: cs =>
    !Lexer.startsTripleQuote (c :: cs) && !Lexer.opensHole (c :: cs) && isUnbroken cs

/-- Whether a text can stand in a multi-line string, where nothing is escaped. -/
def isRaw (text : String) : Bool :=
  isUnbroken text.toList && text.toList.getLast? ≠ some '\x27'

def Items.startsWithFor : Items → Bool
  | .nil => false
  | .one item | .cons item _ _ => item.startsWithFor

mutual

/-- Whether an expression can be written so that it is read as it is meant: no array starts like a
loop, the texts of multi-line strings need no escapes, and no variable of a loop has one of the
taken names. -/
def Expr.isWritable (taken : List String) : Expr → Bool
  | .access _ | .integer _ | .constant _ => true
  | .string multiline parts => parts.isWritable taken multiline
  | .object properties => properties.isWritable taken
  | .array items => !items.startsWithFor && items.isWritable taken
  | .loop item iterable body =>
    !taken.contains item.text && iterable.isWritable taken && body.isWritable taken
  | .paren inner => inner.isWritable taken
  | .unary _ operand => operand.isWritable taken
  | .binary _ left right => left.isWritable taken && right.isWritable taken
  | .ternary test yes no =>
    test.isWritable taken && yes.isWritable taken && no.isWritable taken
  | .member receiver _ => receiver.isWritable taken
  | .index receiver position => receiver.isWritable taken && position.isWritable taken
  | .call callee arguments => callee.isWritable taken && arguments.isWritable taken

def Parts.isWritable (taken : List String) (multiline : Bool) : Parts → Bool
  | .last text => !multiline || isRaw text
  | .hole text inner rest =>
    (!multiline || isRaw text) && inner.isWritable taken &&
      rest.isWritable taken multiline

def Items.isWritable (taken : List String) : Items → Bool
  | .nil => true
  | .one item => item.isWritable taken
  | .cons item _ rest => item.isWritable taken && rest.isWritable taken

def Key.isWritable (taken : List String) : Key → Bool
  | .word _ => true
  | .string multiline parts => parts.isWritable taken multiline

def Properties.isWritable (taken : List String) : Properties → Bool
  | .nil => true
  | .one key value => key.isWritable taken && value.isWritable taken
  | .cons key value _ rest =>
    key.isWritable taken && value.isWritable taken && rest.isWritable taken

end

theorem Expr.isWritable_within (taken : List String) (least : Nat) (expr : Expr) :
    (expr.within least).isWritable taken = expr.isWritable taken := by
  unfold within
  split <;> rfl

/-! What goes over from expressions to those with parentheses -/

section Grouped

variable {p q : Expr → Prop} {taken : List String}
  (h : ∀ {expr : Expr}, p expr → expr.grouped.isWritable taken = true → q expr.grouped)

include h

theorem Parts.all_grouped (multiline : Bool) : ∀ {parts : Parts}, parts.All p →
    parts.grouped.isWritable taken multiline = true → parts.grouped.All q
  | .last _, _, _ => trivial
  | .hole text inner rest, ⟨hinner, hrest⟩, hwritable => by
    simp only [grouped, isWritable, Bool.and_eq_true] at hwritable
    exact ⟨h hinner hwritable.1.2, all_grouped multiline hrest hwritable.2⟩

theorem Items.all_grouped : ∀ {items : Items}, items.All p →
    items.grouped.isWritable taken = true → items.grouped.All q
  | .nil, _, _ => trivial
  | .one _, hitem, hwritable => h hitem hwritable
  | .cons item separator rest, ⟨hitem, hrest⟩, hwritable => by
    simp only [grouped, isWritable, Bool.and_eq_true] at hwritable
    exact ⟨h hitem hwritable.1, all_grouped hrest hwritable.2⟩

theorem Key.all_grouped : ∀ {key : Key}, key.All p → key.grouped.isWritable taken = true →
    key.grouped.All q
  | .word _, _, _ => trivial
  | .string multiline _, hparts, hwritable => Parts.all_grouped h multiline hparts hwritable

theorem Properties.all_grouped : ∀ {properties : Properties}, properties.All p →
    properties.grouped.isWritable taken = true → properties.grouped.All q
  | .nil, _, _ => trivial
  | .one key value, ⟨hkey, hvalue⟩, hwritable => by
    simp only [grouped, isWritable, Bool.and_eq_true] at hwritable
    exact ⟨Key.all_grouped h hkey hwritable.1, h hvalue hwritable.2⟩
  | .cons key value separator rest, ⟨⟨hkey, hvalue⟩, hrest⟩, hwritable => by
    simp only [grouped, isWritable, Bool.and_eq_true] at hwritable
    exact ⟨⟨Key.all_grouped h hkey hwritable.1.1, h hvalue hwritable.1.2⟩,
      all_grouped hrest hwritable.2⟩

end Grouped

def Declaration.isWritable (taken : List String) : Declaration → Bool
  | targetScope value => value.isWritable taken
  | param _ _ default => default.all (Expr.isWritable taken)
  | var _ value => value.isWritable taken
  | output _ _ value => value.isWritable taken
  | resource _ multiline type _ value =>
    type.isWritable taken multiline && value.isWritable taken
  | module _ multiline path value => path.isWritable taken multiline && value.isWritable taken

def Decorated.isWritable (taken : List String) (decorated : Decorated) : Bool :=
  decorated.decorators.all (·.chain.isWritable taken) && decorated.declaration.isWritable taken

def Program.isWritable (taken : List String) (program : Program) : Bool :=
  program.declarations.all (Decorated.isWritable taken)

end Ast

end Caret
