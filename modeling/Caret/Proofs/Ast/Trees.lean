import Caret.Proofs.Ast.Reads
import Caret.Proofs.Document.Trivia

/-!
# The trees of programs are whole

The tree that is meant by a program has no trivia in it, and nothing in it is missing or in the way.
-/

namespace Caret

/-- A kind that an element can have where nothing is wrong and no trivia stands. -/
def Kind.isWhole (kind : Kind) : Bool := !kind.isTrivia && kind ≠ .missing && kind ≠ .error

namespace Tree

mutual

/-- Whether nothing in a tree is trivia, missing or in the way. -/
def isWhole : Tree → Bool
  | leaf kind _ => kind.isWhole
  | node kind children => kind.isWhole && areWhole children

def areWhole : List Tree → Bool
  | [] => true
  | tree :: trees => tree.isWhole && areWhole trees

end

@[simp]
theorem areWhole_nil : areWhole [] = true := rfl

@[simp]
theorem areWhole_cons (tree : Tree) (trees : List Tree) :
    areWhole (tree :: trees) = (tree.isWhole && areWhole trees) := rfl

@[simp]
theorem areWhole_append (left right : List Tree) :
    areWhole (left ++ right) = (areWhole left && areWhole right) := by
  induction left with
  | nil => rfl
  | cons tree trees ih => rw [List.cons_append, areWhole_cons, areWhole_cons, ih, Bool.and_assoc]

theorem isWhole_of_mem {tree : Tree} {trees : List Tree} (h : areWhole trees = true)
    (hmem : tree ∈ trees) : tree.isWhole = true := by
  obtain ⟨before, after, rfl⟩ := List.append_of_mem hmem
  simp only [areWhole_append, areWhole_cons, Bool.and_eq_true] at h
  exact h.2.1

theorem isWhole_kind {tree : Tree} (h : tree.isWhole = true) : tree.kind.isWhole = true := by
  cases tree with
  | leaf => exact h
  | node => exact (Bool.and_eq_true_iff.1 h).1

theorem isTrivia_of_isWhole {kind : Kind} (h : kind.isWhole = true) : kind.isTrivia = false := by
  simp only [Kind.isWhole, Bool.and_eq_true, Bool.not_eq_true'] at h
  exact h.1.1

mutual

/-- No trivia are left out of a tree without them. -/
theorem bare_of_isWhole : ∀ {tree : Tree}, tree.isWhole = true → tree.bare = tree
  | leaf _ _, _ => rfl
  | node kind children, h => by rw [bare, bareAll_of_areWhole (Bool.and_eq_true_iff.1 h).2]

theorem bareAll_of_areWhole : ∀ {trees : List Tree}, areWhole trees = true → bareAll trees = trees
  | [], _ => rfl
  | tree :: trees, h => by
    obtain ⟨htree, htrees⟩ := Bool.and_eq_true_iff.1 h
    rw [bareAll, if_neg (by simp [isTrivia_of_isWhole (isWhole_kind htree)]),
      bare_of_isWhole htree, bareAll_of_areWhole htrees]

end

end Tree

open Tree (areWhole)

theorem areWhole_textLeaves (raw : String) : areWhole ((textLeaves raw).map .ofLeaf) = true := by
  unfold textLeaves
  split <;> rfl

namespace Ast

theorem Constant.isWhole_kind (value : Constant) : value.kind.isWhole = true := by
  obtain h | h | h := value.kind_mem <;> rw [h] <;> rfl

theorem Operator.isWhole_leaf (operator : Operator) : (Tree.ofLeaf operator.leaf).isWhole = true := by
  obtain ⟨kind, precedence, hvalid⟩ := operator
  cases kind <;> first | (cases hvalid; done) | rfl

theorem Sign.isWhole_leaf (sign : Sign) : (Tree.ofLeaf sign.leaf).isWhole = true := by
  cases sign <;> rfl

theorem Separator.isWhole_leaf (separator : Separator) :
    (Tree.ofLeaf separator.leaf).isWhole = true := by
  cases separator <;> rfl

def Expr.IsWhole (expr : Expr) : Prop := expr.tree.isWhole = true

theorem Parts.areWhole_trees (multiline : Bool) : ∀ {parts : Parts}, parts.All Expr.IsWhole →
    areWhole (parts.trees multiline) = true
  | .last text, _ => by
    rw [trees, Tree.areWhole_append, areWhole_textLeaves]
    rfl
  | .hole text inner rest, ⟨hinner, hrest⟩ => by
    have hhole : (Tree.node .interpolation
        [.leaf .interpStart "$\x7b", inner.tree, .leaf .interpEnd "\x7d"]).isWhole = true := by
      simp only [Tree.isWhole, Tree.areWhole_cons, show inner.tree.isWhole = true from hinner]
      rfl
    rw [trees, Tree.areWhole_append, areWhole_textLeaves, Tree.areWhole_cons, hhole,
      areWhole_trees multiline hrest]
    rfl

theorem isWhole_asItem {tree : Tree} (h : tree.isWhole = true) (inArray : Bool) :
    (asItem inArray tree).isWhole = true := by
  cases inArray with
  | false => exact h
  | true =>
      rw [asItem, if_pos rfl, Tree.isWhole, Tree.areWhole_cons, h]
      rfl

theorem Items.areWhole_trees (inArray : Bool) : ∀ {items : Items}, items.All Expr.IsWhole →
    areWhole (items.trees inArray) = true
  | .nil, _ => rfl
  | .one item, hitem => by
    rw [trees, Tree.areWhole_cons, isWhole_asItem hitem]
    rfl
  | .cons item separator rest, ⟨hitem, hrest⟩ => by
    rw [trees, Tree.areWhole_cons, Tree.areWhole_cons, isWhole_asItem hitem,
      separator.isWhole_leaf, areWhole_trees inArray hrest]
    rfl

theorem Key.isWhole_tree : ∀ {key : Key}, key.All Expr.IsWhole → key.tree.isWhole = true
  | .word _, _ => rfl
  | .string multiline parts, hparts => by
    simp only [tree, Tree.isWhole, Tree.areWhole_cons, Parts.areWhole_trees multiline hparts]
    rfl

theorem isWhole_property {key : Key} {value : Expr} (hkey : key.tree.isWhole = true)
    (hvalue : value.IsWhole) :
    (Tree.node .objectProperty [key.tree, .leaf .colon ":", value.tree]).isWhole = true := by
  simp only [Tree.isWhole, Tree.areWhole_cons, hkey, show value.tree.isWhole = true from hvalue]
  rfl

theorem Properties.areWhole_trees : ∀ {properties : Properties}, properties.All Expr.IsWhole →
    areWhole properties.trees = true
  | .nil, _ => rfl
  | .one key value, ⟨hkey, hvalue⟩ => by
    rw [trees, Tree.areWhole_cons, isWhole_property (Key.isWhole_tree hkey) hvalue]
    rfl
  | .cons key value separator rest, ⟨⟨hkey, hvalue⟩, hrest⟩ => by
    rw [trees, Tree.areWhole_cons, Tree.areWhole_cons,
      isWhole_property (Key.isWhole_tree hkey) hvalue, separator.isWhole_leaf, areWhole_trees hrest]
    rfl

theorem Expr.isWhole_tree (expr : Expr) : expr.IsWhole := by
  induction expr using Expr.induction with
  | step expr ih =>
      unfold IsWhole
      cases expr with
      | access | integer => rfl
      | constant value =>
          rw [tree, Tree.isWhole, Tree.areWhole_cons, Tree.isWhole, value.isWhole_kind]
          rfl
      | string multiline parts =>
          rw [tree, Tree.isWhole, Tree.areWhole_cons, Parts.areWhole_trees multiline ih]
          rfl
      | object properties =>
          rw [tree, Tree.isWhole, Tree.areWhole_cons, Tree.areWhole_append,
            Properties.areWhole_trees ih]
          rfl
      | array items =>
          rw [tree, Tree.isWhole, Tree.areWhole_cons, Tree.areWhole_append,
            Items.areWhole_trees true ih]
          rfl
      | loop item iterable body =>
          obtain ⟨hiterable, hbody⟩ := ih
          simp only [IsWhole] at hiterable hbody
          simp only [tree, Tree.isWhole, Tree.areWhole_cons, hiterable, hbody]
          rfl
      | paren inner =>
          simp only [tree, Tree.isWhole, Tree.areWhole_cons, show inner.tree.isWhole = true from ih]
          rfl
      | unary sign operand =>
          simp only [tree, Tree.isWhole, Tree.areWhole_cons, sign.isWhole_leaf,
            show operand.tree.isWhole = true from ih]
          rfl
      | binary operator left right =>
          obtain ⟨hleft, hright⟩ := ih
          simp only [IsWhole] at hleft hright
          simp only [tree, Tree.isWhole, Tree.areWhole_cons, operator.isWhole_leaf, hleft, hright]
          rfl
      | ternary test yes no =>
          obtain ⟨htest, hyes, hno⟩ := ih
          simp only [IsWhole] at htest hyes hno
          simp only [tree, Tree.isWhole, Tree.areWhole_cons, htest, hyes, hno]
          rfl
      | member receiver name =>
          simp only [tree, Tree.isWhole, Tree.areWhole_cons,
            show receiver.tree.isWhole = true from ih]
          rfl
      | index receiver position =>
          obtain ⟨hreceiver, hposition⟩ := ih
          simp only [IsWhole] at hreceiver hposition
          simp only [tree, Tree.isWhole, Tree.areWhole_cons, hreceiver, hposition]
          rfl
      | call callee arguments =>
          obtain ⟨hcallee, harguments⟩ := ih
          simp only [IsWhole] at hcallee
          simp only [tree, Tree.isWhole, Tree.areWhole_cons, Tree.areWhole_append, hcallee,
            Items.areWhole_trees false harguments]
          rfl

/-! Declarations -/

theorem areWhole_quoted (multiline : Bool) (parts : Parts) :
    areWhole [.node .string (.leaf .stringStart (quotes multiline) :: parts.trees multiline)] =
      true := by
  have hparts : parts.All Expr.IsWhole := Parts.all_of_step (fun expr _ => expr.isWhole_tree) parts
  rw [Tree.areWhole_cons, Tree.isWhole, Tree.areWhole_cons, Parts.areWhole_trees multiline hparts]
  rfl

theorem Declaration.areWhole_headerTrees (declaration : Declaration) :
    areWhole declaration.headerTrees = true := by
  have hvalue : ∀ value : Expr, areWhole [.leaf .eq "=", value.tree] = true := fun value => by
    rw [Tree.areWhole_cons, Tree.areWhole_cons, show value.tree.isWhole = true from value.isWhole_tree]
    rfl
  cases declaration with
  | targetScope value => exact hvalue value
  | param name type default =>
      cases default with
      | none => rfl
      | some value => exact hvalue value
  | var name value => exact hvalue value
  | output name type value => exact hvalue value
  | resource name multiline type existing value =>
      have hexisting : areWhole (if existing then [.leaf .existingKw "existing"] else []) = true := by
        cases existing <;> rfl
      rw [headerTrees, Tree.areWhole_cons, Tree.areWhole_cons, Tree.isWhole, Tree.isWhole,
        areWhole_quoted, Tree.areWhole_append, hexisting, hvalue value]
      rfl
  | module name multiline path value =>
      have hpath := areWhole_quoted multiline path
      rw [headerTrees, Tree.areWhole_cons, Tree.areWhole_cons, Tree.isWhole, Tree.isWhole, hpath,
        hvalue value]
      rfl

theorem Decorator.areWhole_trees (decorator : Decorator) : areWhole decorator.trees = true := by
  rw [trees, Tree.areWhole_cons, Tree.isWhole, Tree.areWhole_cons, Tree.areWhole_cons,
    show decorator.chain.tree.isWhole = true from decorator.chain.isWhole_tree]
  rfl

theorem Decorated.isWhole_tree (decorated : Decorated) : decorated.tree.isWhole = true := by
  have hdecorators : ∀ decorators : List Decorator,
      areWhole (decorators.flatMap Decorator.trees) = true := by
    intro decorators
    induction decorators with
    | nil => rfl
    | cons decorator decorators ih =>
        rw [List.flatMap_cons, Tree.areWhole_append, decorator.areWhole_trees, ih]
        rfl
  have hkinds : decorated.declaration.kind.isWhole = true ∧
      decorated.declaration.keyword.isWhole = true := by
    cases decorated.declaration <;> exact ⟨rfl, rfl⟩
  rw [tree, Tree.isWhole, Tree.areWhole_append, hdecorators, Tree.areWhole_cons, Tree.isWhole,
    hkinds.1, hkinds.2, decorated.declaration.areWhole_headerTrees]
  rfl

theorem Program.areWhole_trees (program : Program) : areWhole program.trees = true := by
  obtain ⟨declarations⟩ := program
  unfold trees
  induction declarations with
  | nil => rfl
  | cons decorated declarations ih =>
      cases declarations with
      | nil =>
          rw [List.map_cons, List.map_nil, List.intersperse_singleton, Tree.areWhole_cons,
            decorated.isWhole_tree]
          rfl
      | cons second declarations =>
          rw [List.map_cons, List.map_cons, List.intersperse_cons_cons, Tree.areWhole_cons,
            Tree.areWhole_cons, decorated.isWhole_tree]
          exact ih

end Ast

end Caret
