import Caret.Proofs.Rule.Spelling

/-!
# Expressions have no tokens of their own

The trees of an expression are nodes, with trivia in front of them, and what may follow an operand
puts a node around it or leaves it alone. Wherever the trees of an expression are put, its tokens
stay in the nodes they are in.
-/

namespace Caret

/-- A tree that is trivia or a node. -/
def Tree.IsCovered : Tree → Prop
  | leaf kind _ => kind.isTrivia = true
  | node kind _ => kind.isToken = false

theorem Tree.IsCovered.kind_ne {tree : Tree} (h : tree.IsCovered) {kind : Kind}
    (htrivia : kind.isTrivia = false) (htoken : kind.isToken = true) : tree.kind ≠ kind := by
  rintro rfl
  cases tree with
  | leaf kind text => exact absurd h (by simpa [Tree.kind, IsCovered] using htrivia)
  | node kind children => exact absurd h (by simpa [Tree.kind, IsCovered] using htoken)

theorem Tree.isCovered_of_mem_lead {lexeme : Lexeme}
    (h : ∀ token ∈ lexeme.lead, token.isTrivia = true) {tree : Tree}
    (hmem : tree ∈ lexeme.lead.map ofToken) : tree.IsCovered := by
  obtain ⟨token, htoken, rfl⟩ := List.mem_map.1 hmem
  exact h token htoken

namespace Rule

/-- A rule whose trees are trivia and nodes. -/
def Covered (rule : Rule) : Prop :=
  ∀ input, Led input → ∀ tree ∈ (rule input).trees, tree.IsCovered

variable {first second body inner : Rule}

theorem covered_keep {trees : List Tree} (h : ∀ tree ∈ trees, tree.IsCovered) :
    (keep trees).Covered := fun _ _ => h

theorem covered_done : done.Covered := fun _ _ => by simp [done]

theorem covered_report (cause : SyntaxError.Cause) : (report cause).Covered :=
  fun _ _ => by simp [report]

theorem covered_settle : settle.Covered := by
  intro input hinput tree hmem
  cases input with
  | nil => simp [settle] at hmem
  | cons lexeme rest => exact Tree.isCovered_of_mem_lead (hinput lexeme List.mem_cons_self).1 hmem

theorem Covered.andThen (hfirst : first.Covered) (hsecond : second.Covered)
    (hled : ∀ input, Led input → Led (first input).rest) : (first ++ second).Covered := by
  intro input hinput tree hmem
  rw [andThen_apply] at hmem
  rcases List.mem_append.1 hmem with hmem | hmem
  · exact hfirst input hinput tree hmem
  · exact hsecond _ (hled input hinput) tree hmem

theorem Covered.into {next : List Tree → Rule} (hfirst : first.Covered)
    (hnext : ∀ trees, (∀ tree ∈ trees, tree.IsCovered) → (next trees).Covered)
    (hled : ∀ input, Led input → Led (first input).rest) : (first.into next).Covered :=
  fun input hinput => hnext _ (hfirst input hinput) _ (hled input hinput)

theorem covered_wrap {kind : Kind} (left : List Tree) (body : Rule) (h : kind.isToken = false) :
    (wrap kind left body).Covered := by
  intro input _ tree hmem
  obtain rfl := List.mem_singleton.1 hmem
  exact h

theorem covered_node {kind : Kind} (body : Rule) (h : kind.isToken = false) :
    (node kind body).Covered :=
  covered_settle.andThen (covered_wrap [] body h) fun input => (spells_settle input).led

theorem Covered.unlessAt (h : inner.Covered) (kinds : List Kind) :
    (unlessAt kinds inner).Covered := by
  intro input hinput
  unfold Rule.unlessAt
  split
  · exact covered_done input hinput
  · exact h input hinput

theorem covered_absent (expected : Expected) : (absent expected).Covered := fun input hinput =>
  (covered_report _).andThen (covered_node done rfl) (fun input => (spells_report _ input).led) input
    hinput

theorem covered_skipTo (stop : List Kind) (cause : SyntaxError.Cause) :
    (skipTo stop cause).Covered :=
  (covered_report cause).andThen ((covered_node _ rfl).unlessAt _) fun input =>
    (spells_report cause input).led

theorem covered_tooDeep : tooDeep.Covered :=
  (covered_skipTo _ _).andThen (covered_node done rfl) fun input => (spells_skipTo _ _ input).led

theorem covered_primary (expr : Rule) : (primary expr).Covered := by
  have hnode : ∀ kind ∈ operandKinds, kind.isToken = false := by decide
  intro input hinput
  rcases primary_eq_node_or_absent expr input with ⟨kind, body, hkind, heq⟩ | heq
  · rw [heq]
    exact covered_node body (hnode kind hkind) input hinput
  · rw [heq]
    exact covered_absent _ input hinput

/-- The expressions and operands of a level have no tokens of their own, and chains keep it so. -/
structure Level.Covered (level : Level) : Prop where
  expr : level.expr.Covered
  unary : level.unary.Covered
  links : ∀ receiver, (∀ tree ∈ receiver, tree.IsCovered) → (level.links receiver).Covered
  operators : ∀ least left, (∀ tree ∈ left, tree.IsCovered) → (level.operators least left).Covered

namespace Level

variable {level : Level}

theorem Covered.binary (h : level.Covered) (hspells : level.Spells) (least : Nat) :
    (level.binary least).Covered :=
  covered_settle.andThen (Rule.Covered.into h.unary (h.operators least) fun input =>
    (hspells.unary input).led) fun input => (spells_settle input).led

theorem Covered.ternary (h : level.Covered) (hspells : level.Spells) : level.ternary.Covered := by
  rw [ternary_eq]
  refine covered_settle.andThen (Rule.Covered.into (h.binary hspells 1) (fun test htest => ?_)
    fun input => (hspells.binary 1 input).led) fun input => (spells_settle input).led
  intro input hinput
  unfold choice ifAt
  split
  · exact covered_wrap test _ rfl input hinput
  · exact covered_keep htest input hinput

theorem covered_link (level : Level) (receiver : List Tree) : (level.link receiver).Covered := by
  have hnode : ∀ kind ∈ linkKinds, kind.isToken = false := by decide
  intro input hinput
  obtain ⟨kind, body, hkind, heq⟩ := link_eq_wrap level receiver input
  rw [heq]
  exact covered_wrap receiver body (hnode kind hkind) input hinput

theorem covered_keep_tooDeep {left : List Tree} (hleft : ∀ tree ∈ left, tree.IsCovered) :
    (keep left ++ tooDeep).Covered :=
  (covered_keep hleft).andThen covered_tooDeep fun _ hinput => hinput

theorem covered_above {below : Option Level} (hspells : ∀ level ∈ below, level.Spells)
    (h : ∀ level ∈ below, level.Covered) : (above below).Covered := by
  have hlinks : ∀ receiver, (∀ tree ∈ receiver, tree.IsCovered) →
      ((above below).links receiver).Covered := by
    intro receiver hreceiver input hinput
    rw [links_above]
    split
    · cases below with
      | none => exact covered_keep_tooDeep hreceiver input hinput
      | some level =>
          exact Rule.Covered.into (covered_link level receiver) (h level rfl).links (fun input =>
            ((hspells level rfl).link receiver input).led) input hinput
    · exact covered_keep hreceiver input hinput
  have hall := spells_above hspells
  have hchain : (above below).chain.Covered :=
    covered_settle.andThen (Rule.Covered.into (covered_primary _) hlinks fun input =>
      (spells_primary hall.expr input).led) fun input => (spells_settle input).led
  refine ⟨?_, fun input hinput => ?_, hlinks, fun least left hleft input hinput => ?_⟩
  · cases below with
    | none => exact covered_tooDeep
    | some level => exact (h level rfl).ternary (hspells level rfl)
  · rw [unary_above]
    split
    · cases below with
      | none => exact covered_tooDeep input hinput
      | some level => exact covered_node _ rfl input hinput
    · exact hchain input hinput
  · rw [operators_above]
    split
    · exact covered_keep hleft input hinput
    · rename_i precedence _
      split
      · exact covered_keep hleft input hinput
      · cases below with
        | none => exact covered_keep_tooDeep hleft input hinput
        | some level =>
            refine Rule.Covered.into (covered_wrap left _ rfl) ((h level rfl).operators least)
              (fun input => ?_) input hinput
            exact (spells_wrap .binaryExpr left (spells_andThen (spells_take input)
              ((hspells level rfl).binary _ _))).led

end Level

theorem covered_level (budget : Nat) : (level budget).Covered :=
  level_induction (fun _ hbelow known => Level.covered_above (known spells_level) hbelow) budget

end Rule

end Caret
