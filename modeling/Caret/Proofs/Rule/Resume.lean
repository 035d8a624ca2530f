import Caret.Proofs.Document.Lossless
import Caret.Proofs.Rule.Kinds
import Caret.Proofs.Rule.Swallow
import Caret.Proofs.Tree.Leaf

/-!
# A declaration behind some lines

Read with the end of the file behind them, the lines of a document end in a tree that goes on behind
the last token or in one that does not. In the second case, a declaration that stands there instead
is read as one: its keyword is the first token that the document takes of it.
-/

namespace Caret

open Tree (leavesAll swallowsAll)

namespace Rule

variable {fin stop pre input : List Lexeme}

section

variable (hfollows : Follows fin stop)

include hfollows

theorem splits_expr : Splits fin stop expr := (splits_level hfollows maxDepth).expr

theorem parts_expr (hpre : Lines pre) :
    Parts fin stop (swallowsAll · = false) (swallowsAll · = true) (expr (pre ++ fin))
      (expr (pre ++ stop)) := (splits_expr hfollows).quiet hpre

/-! Decorators -/

/-- A decorator that takes the end of a line takes what comes behind it. -/
theorem parts_decorator (hpre : Lines pre) (hat : kind pre = .atSign) :
    Parts fin stop (swallowsAll · = false) (swallowsAll · = true) (decorator (pre ++ fin))
      (decorator (pre ++ stop)) := by
  have hlevel := splits_level hfollows maxDepth
  have hnode : Parts fin stop (swallowsAll · = true) (swallowsAll · = true)
      (node .decorator (take ++ ifAt .ident outermost.chain (absent .decoratorName)) (pre ++ fin))
      (node .decorator (take ++ ifAt .ident outermost.chain (absent .decoratorName))
        (pre ++ stop)) := by
    refine Parts.settle_grows (local_swallowsAll _).prepend (local_swallowsAll _).prepend hpre
      fun post hpost hcurrent _ => ?_
    have hline : kind post ≠ .newline := by
      rw [kind, hcurrent, ← kind, hat]
      decide
    have hbody : Parts fin stop (fun _ => True) (fun _ => True)
        ((take ++ ifAt .ident outermost.chain (absent .decoratorName)) (post ++ fin))
        ((take ++ ifAt .ident outermost.chain (absent .decoratorName)) (post ++ stop)) :=
      (advances_take hpost hline).andThen_parts (local_const True) (local_const True)
        fun post hpost => parts_ifAt hpost
          (fun _ => (hlevel.chain hfollows (spells_level maxDepth) hpost).mono
            (fun _ _ _ => trivial) fun _ _ _ => trivial)
          fun _ => (advances_absent _ hpost).parts
    exact hbody.wrap_of (fun _ _ _ => rfl) fun _ _ _ => rfl
  exact hnode.seq_takes hfollows (local_swallowsAll _).prepend (local_swallowsAll _).prepend
    (fun post hpost _ => (advances_unlessAt _ hpost fun _ =>
      advances_skipTo _ .afterDecorator List.mem_cons_self hpost).parts)
    (fun input => spells_unlessAt _ (spells_skipTo _ _ _))
    (hfollows.length_skipTo_lt (by decide) (by decide))
    (fun trees hleaves h => (local_swallowsAll true).append _ hleaves (hfollows.nothing
      (spells_unlessAt _ (spells_skipTo _ _ _))).2 h)
    fun trees hleaves h => (local_swallowsAll true).append _ hleaves (hfollows.nothing
      (spells_unlessAt _ (spells_skipTo _ _ _))).2 h

theorem parts_decorators (hpre : Lines pre) :
    Parts fin stop (swallowsAll · = false) (swallowsAll · = true) (loop decoratorStep (pre ++ fin))
      (loop decoratorStep (pre ++ stop)) := by
  refine parts_loop hfollows progresses_decoratorStep spells_decoratorStep (fun pre hpre right => ?_)
    (fun pre hpre => ?_) ?_ hpre
  · rw [decoratorStep, decoratorStep, hpre.kind_append]
  · unfold decoratorStep
    split
    · rename_i hat
      exact (parts_decorator hfollows hpre hat).andThen hfollows (local_swallowsAll _)
        (local_swallowsAll _) (fun post hpost _ => (parts_takeNewlines hfollows hpost).mono
          (fun _ _ htokens => htokens.elim fun tokens htrees => htrees ▸ swallowsAll_tokens tokens)
          fun _ _ h => h)
        spells_takeNewlines hfollows.rest_takeNewlines
    · exact .before pre hpre rfl rfl
  · have hchoose : decoratorStep stop = .last done := by
      rw [decoratorStep, if_neg (by rw [hfollows.kind_stop]; decide)]
    rw [loop_of_last progresses_decoratorStep hchoose]
    rfl

/-! Declarations -/

omit hfollows in
theorem advances_name (hpre : Lines pre) : name.Advances pre :=
  advances_ifAt hpre
    (fun hkind => advances_node hpre fun _ hpost hsame =>
      advances_take hpost (by rw [hsame, hkind]; decide))
    fun _ => advances_absent _ hpre

omit hfollows in
theorem advances_typeName (hpre : Lines pre) : typeName.Advances pre :=
  advances_ifAt hpre
    (fun hkind => advances_node hpre fun _ hpost hsame =>
      advances_take hpost (by rw [hsame, hkind]; decide))
    fun _ => advances_absent _ hpre

omit hfollows in
/-- There are no strings on the lines. -/
theorem advances_quoted (kind : Kind) (expected : Expected) (hpre : Lines pre) :
    (quoted kind expected).Advances pre :=
  advances_ifAt hpre (fun hkind => absurd hkind hpre.kind_ne_stringStart)
    fun _ => advances_absent _ hpre

omit hfollows in
theorem advances_existing (hpre : Lines pre) : existing.Advances pre := by
  by_cases h : isWordAt pre "existing" = true
  · refine ⟨pre.tail, hpre.tail (by rw [kind_eq_of_isWordAt h]; decide), fun right => ?_⟩
    rw [existing, hpre.isWordAt_append, if_pos h]
    exact (hpre.takeAs _ _).1
  · refine ⟨pre, hpre, fun right => ?_⟩
    rw [existing, hpre.isWordAt_append, if_neg h]
    rfl

theorem parts_value {rule : Rule} (h : rule.Advances pre) :
    Parts fin stop (swallowsAll · = false) (swallowsAll · = true) ((rule ++ expr) (pre ++ fin))
      ((rule ++ expr) (pre ++ stop)) :=
  h.andThen_parts (local_swallowsAll _) (local_swallowsAll _) fun _ hpost =>
    parts_expr hfollows hpost

theorem parts_header (kind : Kind) (hpre : Lines pre) :
    Parts fin stop (swallowsAll · = false) (swallowsAll · = true) (header kind (pre ++ fin))
      (header kind (pre ++ stop)) := by
  have hname := advances_name hpre
  have heq : ∀ post, Lines post → (expect .eq).Advances post := fun _ hpost =>
    advances_expect _ (by decide) hpost
  have htyped := hname.andThen fun _ hpost => advances_typeName hpost
  have hquoted (kind : Kind) (expected : Expected) := hname.andThen fun _ hpost =>
    advances_quoted kind expected hpost
  cases kind with
  | targetScopeDecl => exact parts_value hfollows (heq pre hpre)
  | paramDecl =>
      exact htyped.andThen_parts (local_swallowsAll _) (local_swallowsAll _) fun post hpost =>
        parts_ifAt hpost
          (fun hkind => parts_value hfollows (advances_take hpost (by rw [hkind]; decide)))
          fun _ => .before post hpost rfl rfl
  | varDecl => exact parts_value hfollows (hname.andThen heq)
  | outputDecl => exact parts_value hfollows (htyped.andThen heq)
  | resourceDecl =>
      exact parts_value hfollows (((hquoted .resourceType .resourceType).andThen fun _ hpost =>
        advances_existing hpost).andThen heq)
  | moduleDecl => exact parts_value hfollows ((hquoted .modulePath .modulePath).andThen heq)
  | _ => exact .before pre hpre rfl rfl

omit hfollows in
theorem advances_endDeclaration (hpre : Lines pre) : endDeclaration.Advances pre := by
  by_cases h : startsDeclaration pre = true
  · refine ⟨pre, hpre, fun right => ?_⟩
    rw [endDeclaration, hpre.startsDeclaration_append, if_pos h]
    rfl
  · obtain ⟨post, hpost, hrest⟩ : (unlessAt [.newline, .eof, .atSign]
        (skipTo [.newline] .afterDeclaration)).Advances pre :=
      advances_unlessAt _ hpre fun _ => advances_skipTo _ _ List.mem_cons_self hpre
    refine ⟨post, hpost, fun right => ?_⟩
    rw [endDeclaration, hpre.startsDeclaration_append, if_neg h, hrest]

theorem rest_endDeclaration : (endDeclaration stop).rest = stop := by
  rw [endDeclaration, if_pos hfollows.starts]
  rfl

theorem parts_undecorated (left left' : List Tree) (hpre : Lines pre) :
    Parts fin stop (swallowsAll · = false) (swallowsAll · = true) (undecorated left (pre ++ fin))
      (undecorated left' (pre ++ stop)) := by
  unfold undecorated
  rw [hpre.declarationWord_append, hpre.declarationWord_append, hpre.kind_append,
    hpre.kind_append]
  split
  · rename_i kind keyword hword
    obtain ⟨hident, -, hdeclaration⟩ := declarationWord_eq_some hword
    have hbody := (advances_takeAs keyword hpre (by rw [hident]; decide)).andThen_parts
      (local_swallowsAll _) (local_swallowsAll _) fun post hpost => parts_header hfollows kind hpost
    have hnode : Parts fin stop (swallowsAll · = false) (swallowsAll · = true)
        (wrap kind left (takeAs keyword ++ header kind) (pre ++ fin))
        (wrap kind left' (takeAs keyword ++ header kind) (pre ++ stop)) := by
      refine (hbody.wrap_quiet ?_ ?_).mono (fun _ _ h => h.1) fun _ _ h => h
      · rintro rfl
        cases hdeclaration
      · intro children
        cases kind <;> first | rfl | cases hdeclaration
    exact hnode.andThen hfollows (local_swallowsAll _) (local_swallowsAll _)
      (fun _ hpost _ => (advances_endDeclaration hpost).parts) spells_endDeclaration
      (rest_endDeclaration hfollows)
  · obtain ⟨post, hpost, hrest⟩ := advances_skipTo _ .notADeclaration
      (List.mem_singleton_self Kind.newline) hpre
    rw [if_neg (by simp [hpre.kind_ne_eof]), if_neg (by simp [hpre.kind_ne_eof])]
    exact .before post hpost (hrest fin) (hrest stop)

end

/-! The bytes that rules take -/

/-- The number of bytes of some lexemes. -/
def width (input : List Lexeme) : Nat := ((input.flatMap Lexeme.tokens).map Token.size).sum

theorem width_append (left right : List Lexeme) : width (left ++ right) = width left + width right := by
  simp [width]

theorem width_cons (lexeme : Lexeme) (rest : List Lexeme) :
    width (lexeme :: rest) = (lexeme.lead.map Token.size).sum + lexeme.token.size + width rest := by
  simp [width, Lexeme.tokens, Nat.add_assoc]

theorem Reads.width {leaves : List (Kind × String)} {rest : List Lexeme}
    (h : Reads input leaves rest) :
    (leaves.map (·.2.utf8ByteSize)).sum + Rule.width rest = Rule.width input := by
  induction h with
  | done input => simp
  | settle lead token rest =>
      rw [width_cons, width_cons, List.map_map, List.map_nil, List.sum_nil, Nat.zero_add,
        Nat.add_assoc]
      rfl
  | take lead rest _ _ =>
      rw [width_cons, List.map_append, List.map_map, List.sum_append, List.map_singleton,
        List.sum_singleton]
      rfl
  | trans _ _ ihfirst ihsecond =>
      rw [List.map_append, List.sum_append, Nat.add_assoc, ihsecond, ihfirst]

end Rule

/-- The trees that a rule leaves have the bytes that it takes. -/
theorem Outcome.Spells.width {outcome : Outcome} {left : List Tree} {input : List Lexeme}
    (h : outcome.Spells left input) :
    Tree.sizeAll outcome.trees + Rule.width outcome.rest = Tree.sizeAll left + Rule.width input := by
  obtain ⟨leaves, hreads, hleaves⟩ := h
  rw [← Tree.sum_leavesAll, hleaves, List.map_append, List.sum_append, Tree.sum_leavesAll,
    Nat.add_assoc, hreads.width]

theorem Outcome.Spells.trans {first second : Outcome} {left : List Tree} {input : List Lexeme}
    (h : first.Spells left input) (hmore : second.Spells first.trees first.rest) :
    second.Spells left input := by
  obtain ⟨leaves, hreads, hleaves⟩ := h
  obtain ⟨more, hreads', hleaves'⟩ := hmore
  exact ⟨leaves ++ more, hreads.trans hreads', by rw [hleaves', hleaves, List.append_assoc]⟩

namespace Rule

variable {fin stop pre input : List Lexeme}

/-- What is left is a part at the end of the input, its first lexeme perhaps without the trivia in
front. -/
theorem Reads.exists_suffix {leaves : List (Kind × String)} {rest : List Lexeme}
    (h : Reads input leaves rest) :
    ∃ front tail, input = front ++ tail ∧ (rest = tail ∨ ∃ lexeme more, tail = lexeme :: more ∧
      rest = ⟨[], lexeme.token⟩ :: more) := by
  induction h with
  | done input => exact ⟨[], input, rfl, .inl rfl⟩
  | settle lead token rest => exact ⟨[], _, rfl, .inr ⟨_, _, rfl, rfl⟩⟩
  | @take lead token kind rest _ _ => exact ⟨[⟨lead, token⟩], rest, rfl, .inl rfl⟩
  | trans _ _ ihfirst ihsecond =>
      obtain ⟨front, tail, rfl, hmiddle⟩ := ihfirst
      obtain ⟨front', tail', hmiddle', hrest⟩ := ihsecond
      rcases hmiddle with rfl | ⟨lexeme, more, rfl, rfl⟩
      · exact ⟨front ++ front', tail', by rw [hmiddle', List.append_assoc], hrest⟩
      · cases front' with
        | nil =>
            subst hmiddle'
            refine ⟨front, _, rfl, .inr ⟨lexeme, more, rfl, ?_⟩⟩
            rcases hrest with rfl | ⟨first, others, hfirst, rfl⟩
            · rfl
            · cases hfirst
              rfl
        | cons first front' =>
            obtain ⟨rfl, rfl⟩ := List.cons.inj hmiddle'
            exact ⟨front ++ lexeme :: front', tail', by simp, hrest⟩

theorem Lines.width_pos (h : Lines pre) : 0 < width pre := by
  induction h with
  | newline lexeme hkind htext =>
      have hpos : lexeme.token.size ≠ 0 := fun hzero =>
        htext (String.utf8ByteSize_eq_zero_iff.1 hzero)
      rw [width_cons]
      omega
  | cons lexeme heof hstring hrest ih =>
      rw [width_cons]
      omega

/-! Where a declaration has its keyword -/

/-- One of the trees is the declaration of a variable with these children, and its keyword has so
many bytes in front of it. -/
def Declares (count : Nat) (children trees : List Tree) : Prop :=
  ∃ before after left keyword right, trees = before ++ .node .varDecl children :: after ∧
    children = left ++ keyword :: right ∧ (∃ word, keyword = .leaf .varKw word) ∧
    Tree.sizeAll before + Tree.sizeAll left = count

variable {children left right trees : List Tree} {count : Nat}

theorem declares_append :
    Declares count children (left ++ right) ↔ Declares count children left ∨
      ∃ more, Declares more children right ∧ count = Tree.sizeAll left + more := by
  constructor
  · rintro ⟨before, after, inner, keyword, rest, hsplit, hchildren, hkeyword, hcount⟩
    rcases List.append_eq_append_iff.1 hsplit with ⟨middle, rfl, hright⟩ | ⟨middle, hleft, hafter⟩
    · refine .inr ⟨Tree.sizeAll middle + Tree.sizeAll inner,
        ⟨middle, after, inner, keyword, rest, hright, hchildren, hkeyword, rfl⟩, ?_⟩
      rw [← hcount, Tree.sizeAll_append, Nat.add_assoc]
    · cases middle with
      | nil =>
          obtain rfl : left = before := by simpa using hleft
          exact .inr ⟨Tree.sizeAll inner, ⟨[], after, inner, keyword, rest, by simpa using hafter.symm,
            hchildren, hkeyword, by simp [Tree.sizeAll]⟩, hcount.symm⟩
      | cons first middle =>
          obtain ⟨rfl, -⟩ := List.cons.inj hafter
          exact .inl ⟨before, middle, inner, keyword, rest, hleft, hchildren, hkeyword, hcount⟩
  · rintro (⟨before, after, inner, keyword, rest, rfl, hrest⟩ |
      ⟨more, ⟨before, after, inner, keyword, rest, rfl, hchildren, hkeyword, rfl⟩, rfl⟩)
    · exact ⟨before, after ++ right, inner, keyword, rest, by simp, hrest⟩
    · exact ⟨left ++ before, after, inner, keyword, rest, by simp, hchildren, hkeyword, by
        rw [Tree.sizeAll_append, Nat.add_assoc]⟩

/-- The keyword is one of the bytes of the trees. -/
theorem Declares.le (h : Declares count children trees) : count ≤ Tree.sizeAll trees := by
  obtain ⟨before, after, left, keyword, right, rfl, rfl, -, rfl⟩ := h
  simp only [Tree.sizeAll_append, Tree.sizeAll, Tree.size]
  omega

/-- Trees none of which is the declaration of a variable. -/
theorem not_declares (h : ∀ tree ∈ trees, tree.kind ≠ .varDecl) : ¬Declares count children trees := by
  rintro ⟨before, after, left, keyword, right, rfl, -⟩
  exact h _ (List.mem_append_right _ List.mem_cons_self) rfl

/-! The kinds of the trees that a rule leaves -/

/-- What stands in front of the keyword of a declaration. -/
def IsFringe (kind : Kind) : Prop :=
  kind.isTrivia = true ∨ kind = .decorator ∨ kind = .error ∨ kind = .newline

instance (kind : Kind) : Decidable (IsFringe kind) :=
  inferInstanceAs (Decidable (_ ∨ _ ∨ _ ∨ _))

theorem IsFringe.ne {kind other : Kind} (h : IsFringe kind) (hother : ¬IsFringe other) :
    kind ≠ other := fun heq => hother (heq ▸ h)

theorem only_decorators : (loop decoratorStep).Only IsFringe := by
  have htrivia : ∀ kind : Kind, kind.isTrivia = true → IsFringe kind := fun _ => .inl
  refine only_loop fun input hinput => ?_
  unfold decoratorStep
  split
  · refine Only.andThen (Only.andThen (only_node htrivia (fun input => ?_) (.inr (.inl rfl)))
      ((only_skipTo _ _ htrivia (.inr (.inr (.inl rfl)))).unlessAt _))
      (only_takeNewlines htrivia (.inr (.inr (.inr rfl)))) input hinput
    exact spells_node _ (spells_andThen (spells_take _) (spells_ifAt
      (fun _ => (spells_level maxDepth).chain _) fun _ => spells_absent _ _))
  · exact only_done input hinput

theorem only_skipTo_varDecl (stop : List Kind) (cause : SyntaxError.Cause) :
    (skipTo stop cause).Only (· ≠ .varDecl) :=
  only_skipTo _ _ (fun _ => ne_of_isTrivia rfl) (by decide)

theorem only_endDeclaration : endDeclaration.Only (· ≠ .varDecl) := by
  intro input hinput
  unfold endDeclaration
  split
  · exact only_done (p := (· ≠ .varDecl)) input hinput
  · exact (only_skipTo_varDecl _ _).unlessAt _ input hinput

section Header

theorem only_optional {wanted tag : Kind} {expected : Expected}
    (hspells : ∀ input, (body input).Spells [] input) (htag : tag ≠ .varKw) :
    (ifAt wanted (node tag body) (absent expected)).Only (· ≠ .varKw) := fun input hinput =>
  only_ifAt (p := (· ≠ .varKw)) hinput
    (fun _ => only_node (p := (· ≠ .varKw)) (fun _ => ne_of_isTrivia rfl)
      (fun _ => spells_node _ (hspells _)) htag input hinput)
    (only_absent _ (fun _ => ne_of_isTrivia rfl) (by decide))

theorem only_eq : (expect .eq).Only (· ≠ .varKw) :=
  only_expect (fun _ => ne_of_isTrivia rfl) (by decide) (by decide)

theorem only_expr : expr.Only (· ≠ .varKw) :=
  (covered_level maxDepth).expr.only spells_expr fun kind h heq => by
    rw [heq] at h
    rcases h with h | h <;> cases h

theorem only_existing : existing.Only (· ≠ .varKw) := by
  intro input hinput
  have hled := (spells_existing input).led hinput
  unfold existing at hled ⊢
  split
  · rename_i hword
    rw [if_pos hword] at hled
    exact ⟨only_takeAs (p := (· ≠ .varKw)) (fun _ => ne_of_isTrivia rfl) (by decide) hinput, hled⟩
  · exact only_done (p := (· ≠ .varKw)) input hinput

/-- A declaration has its keyword in front of its header alone. -/
theorem only_header (kind : Kind) : (header kind).Only (· ≠ .varKw) := by
  refine header_induction (motive := fun rule => rule.Only (· ≠ .varKw)) (fun hpart => ?_) .andThen
  cases hpart with
  | name | typeName => exact only_optional spells_take (by decide)
  | resourceType | modulePath => exact only_optional (spells_string spells_expr) (by decide)
  | existing => exact only_existing
  | equals => exact only_eq
  | value => exact only_expr
  | default =>
      refine fun input hinput =>
        only_ifAt (p := (· ≠ .varKw)) hinput (fun hkind => ?_) only_done
      have htake : (take ++ expr) input = (expect .eq ++ expr) input := by
        rw [andThen_apply, andThen_apply, expect, ifAt, if_pos hkind]
      rw [htake]
      exact only_eq.andThen only_expr input hinput
  | done => exact only_done

end Header

theorem sizeAll_map_ofToken (tokens : List Token) :
    Tree.sizeAll (tokens.map Tree.ofToken) = (tokens.map Token.size).sum := by
  induction tokens with
  | nil => rfl
  | cons token tokens ih =>
      rw [List.map_cons, Tree.sizeAll, ih]
      rfl

/-- The keyword of a declaration is the first one in it, in front of its name and its value. -/
theorem eq_of_declares_wrap {lexeme : Lexeme} {rest : List Lexeme} {node keyword : Kind}
    (hfringe : ∀ tree ∈ left, tree.kind ≠ .varKw) (hled : Led (lexeme :: rest))
    (heof : lexeme.kind ≠ .eof) (h : Declares count children
      (wrap node left (takeAs keyword ++ header node) (lexeme :: rest)).trees) :
    count = Tree.sizeAll left + (lexeme.lead.map Token.size).sum := by
  obtain ⟨before, after, inner, token, right, hsplit, hchildren, ⟨word, rfl⟩, rfl⟩ := h
  obtain ⟨rfl, hnode⟩ : before = [] ∧
      Tree.node node (left ++ ((takeAs keyword ++ header node) (lexeme :: rest)).trees) =
        .node .varDecl children := by
    cases before with
    | nil => exact ⟨rfl, (List.cons.inj hsplit).1⟩
    | cons first before => simp [wrap] at hsplit
  have hsame : (left ++ lexeme.lead.map Tree.ofToken) ++ .leaf keyword lexeme.token.text ::
      (header node rest).trees = inner ++ .leaf .varKw word :: right := by
    rw [← hchildren, ← (Tree.node.inj hnode).2, andThen_apply, takeAs_cons heof]
    simp
  have hlead : Tree.leaf .varKw word ∉ left ++ lexeme.lead.map Tree.ofToken := by
    intro hmem
    rcases List.mem_append.1 hmem with hmem | hmem
    · exact hfringe _ hmem rfl
    · exact (Tree.isCovered_of_mem_lead (hled lexeme List.mem_cons_self).1 hmem).kind_ne rfl rfl rfl
  have hheader : Tree.leaf .varKw word ∉ (header node rest).trees := fun hmem =>
    (only_header node rest hled.tail).1 _ hmem rfl
  obtain ⟨hinner, -⟩ := (List.append_cons_inj_of_notMem hlead hheader).1 hsame
  rw [← hinner, Tree.sizeAll_append, sizeAll_map_ofToken, Tree.sizeAll, Nat.zero_add]

/-- Behind its decorators, a declaration has its keyword where the next token is. -/
theorem declares_undecorated (hleft : ∀ tree ∈ left, IsFringe tree.kind) (hled : Led input)
    (h : Declares count children (undecorated left input).trees) :
    ∃ lexeme rest, input = lexeme :: rest ∧
      count = Tree.sizeAll left + (lexeme.lead.map Token.size).sum := by
  have halone : ¬Declares count children left :=
    not_declares fun tree hmem => (hleft tree hmem).ne (by decide)
  obtain ⟨rule, hrule, heq⟩ := exists_undecorated left input
  rw [heq] at h
  cases hrule with
  | @declaration node keyword hword hident =>
      obtain ⟨lexeme, rest, rfl⟩ : ∃ lexeme rest, input = lexeme :: rest := by
        cases input with
        | nil => cases hident
        | cons lexeme rest => exact ⟨lexeme, rest, rfl⟩
      have heof : lexeme.kind ≠ .eof := by
        rw [kind_cons] at hident
        rw [hident]
        decide
      have hrest : Led (wrap node left (takeAs keyword ++ header node) (lexeme :: rest)).rest := by
        refine (spells_header node _).led ?_
        rw [takeAs_cons heof]
        exact hled.tail
      rw [andThen_apply, declares_append] at h
      rcases h with h | ⟨more, hmore, -⟩
      · exact ⟨lexeme, rest, rfl,
          eq_of_declares_wrap (fun tree hmem => (hleft tree hmem).ne (by decide)) hled heof h⟩
      · exact absurd hmore (not_declares (only_endDeclaration _ hrest).1)
  | alone => exact absurd h halone
  | stray =>
      rw [andThen_apply, declares_append] at h
      rcases h with h | ⟨more, hmore, -⟩
      · exact absurd h halone
      · exact absurd hmore (not_declares (only_skipTo_varDecl _ _ _ hled).1)

/-- A declaration of a variable with the given name. -/
def Introduces (name : String) (stop : List Lexeme) : Prop :=
  ∃ head next rest, stop = head :: next :: rest ∧ head.lead = [] ∧ head.kind = .ident ∧
    head.token.text = "var" ∧ next.kind = .ident ∧ next.token.text = name

/-- The first name among the children of a declaration. -/
def HasName (name : String) (children : List Tree) : Prop :=
  ∃ before after, children = before ++ .node .name [.leaf .ident name] :: after ∧
    ∀ tree ∈ before, tree.kind ≠ .name

/-- A name is read where an identifier stands. -/
theorem trees_name {lexeme : Lexeme} (rest : List Lexeme) (h : lexeme.kind = .ident) :
    (name (lexeme :: rest)).trees =
      lexeme.lead.map Tree.ofToken ++ [.node .name [.leaf .ident lexeme.token.text]] := by
  have hident : (Lexeme.mk [] lexeme.token).kind = .ident := h
  have htake : take (⟨[], lexeme.token⟩ :: rest) = ⟨[.leaf .ident lexeme.token.text], [], rest⟩ := by
    rw [take, takeAs_cons (by rw [hident]; decide), kind_cons, hident]
    rfl
  rw [name, ifAt, if_pos (kind_cons lexeme rest ▸ h), node, andThen_apply, settle, wrap, htake]
  rfl

theorem exists_declares_undecorated {name : String} (hstop : Introduces name stop) (hled : Led stop)
    (hleft : ∀ tree ∈ left, IsFringe tree.kind) :
    ∃ children, Declares (Tree.sizeAll left) children (undecorated left stop).trees ∧
      HasName name children := by
  obtain ⟨head, next, rest, rfl, hlead, hkind, htext, hnext, rfl⟩ := hstop
  have hword : declarationWord (head :: next :: rest) = some (.varDecl, .varKw) := by
    rw [declarationWord, kind_cons, if_pos hkind, current, htext]
    rfl
  have hlast : Led (next :: rest) := hled.tail
  have htake : takeAs .varKw (head :: next :: rest) = ⟨[.leaf .varKw "var"], [], next :: rest⟩ := by
    rw [takeAs_cons (by rw [hkind]; decide), hlead, htext]
    rfl
  obtain ⟨more, hmore⟩ : ∃ more, (header .varDecl (next :: rest)).trees =
      next.lead.map Tree.ofToken ++ .node .name [.leaf .ident next.token.text] :: more := by
    have hname := trees_name rest hnext
    exact ⟨_, by
      rw [header, andThen_assoc, andThen_apply, hname, List.append_assoc, List.singleton_append]⟩
  have hbody : ((takeAs .varKw ++ header .varDecl) (head :: next :: rest)).trees =
      .leaf .varKw "var" :: (next.lead.map Tree.ofToken ++
        .node .name [.leaf .ident next.token.text] :: more) := by
    rw [andThen_apply, htake]
    dsimp only
    rw [hmore]
    rfl
  refine ⟨left ++ ((takeAs .varKw ++ header .varDecl) (head :: next :: rest)).trees, ?_, ?_⟩
  · unfold undecorated
    rw [hword]
    refine declares_append.2 (.inl ⟨[], [], left, .leaf .varKw "var", _, rfl,
      congrArg (left ++ ·) hbody, ⟨_, rfl⟩, ?_⟩)
    rw [Tree.sizeAll, Nat.zero_add]
  · refine ⟨left ++ .leaf .varKw "var" :: next.lead.map Tree.ofToken, more, ?_, fun tree hmem => ?_⟩
    · rw [hbody]
      simp
    · rcases List.mem_append.1 hmem with hmem | hmem
      · exact (hleft tree hmem).ne (by decide)
      · rcases List.mem_cons.1 hmem with rfl | hmem
        · decide
        · obtain ⟨token, htoken, rfl⟩ := List.mem_map.1 hmem
          exact ne_of_isTrivia rfl ((hlast next List.mem_cons_self).1 token htoken)

theorem Introduces.follows {name : String} (hstop : Introduces name stop)
    (hfin : ∃ eof : Token, eof.kind = .eof ∧ fin = [⟨[], eof⟩]) : Follows fin stop := by
  obtain ⟨head, next, rest, rfl, hlead, hkind, htext, hnext, -⟩ := hstop
  have hword : ∀ word, isWordAt (head :: next :: rest) word = decide ("var" = word) := by
    intro word
    simp [isWordAt, kind_cons, hkind, current, htext]
  refine ⟨hfin, ?_, ?_, by simp [hword]⟩
  · rw [settle, ← hlead]
  · have hdeclaration : (declarationWord (head :: next :: rest)).isSome = true := by
      rw [declarationWord, kind_cons, if_pos hkind, current, htext]
      rfl
    rw [startsDeclaration, hword, hdeclaration, nextKind, List.tail_cons, kind_cons, hnext]
    rfl

/-! Documents -/

/-- What a round of a document does on lines with the end of the file and with a declaration behind
them: it leaves some, it stops behind them, it makes a node of the declaration, or it takes the
keyword of the declaration for something else. -/
inductive Meets (fin stop : List Lexeme) (name : String) (pre : List Lexeme) (a b : Outcome) :
    Prop where
  | before (post : List Lexeme) : Lines post → a.rest = post ++ fin → b.rest = post ++ stop →
      Meets fin stop name pre a b
  | at : a.rest = fin → b.rest = stop → leavesAll a.trees ≠ [] → swallowsAll a.trees = false →
      Meets fin stop name pre a b
  | starts (children : List Tree) : a.rest = fin → leavesAll a.trees ≠ [] →
      swallowsAll a.trees = false → Declares (width pre) children b.trees →
      HasName name children → Meets fin stop name pre a b
  | past : a.rest = fin → leavesAll a.trees ≠ [] → swallowsAll a.trees = true →
      width pre < Tree.sizeAll b.trees → (∀ children, ¬Declares (width pre) children b.trees) →
      Meets fin stop name pre a b

variable {name : String}

theorem meets_take (hpre : Lines pre) :
    Meets fin stop name pre (take (pre ++ fin)) (take (pre ++ stop)) := by
  have hparts : Parts fin stop (swallowsAll · = false) (fun _ => False) (take (pre ++ fin))
      (take (pre ++ stop)) := parts_take hpre
  cases hparts with
  | before post hpost ha hb => exact .before post hpost ha hb
  | «at» ha hb hleaves h => exact .at ha hb hleaves h
  | past _ _ _ h => exact h.elim

/-- Where a token of a declaration is taken, fewer bytes than those of it are left. -/
theorem width_rest_lt (hstop : Introduces name stop) {outcome : Outcome}
    (hspells : outcome.Spells left (pre ++ stop)) (hlength : outcome.rest.length < stop.length) :
    width outcome.rest < width stop := by
  obtain ⟨leaves, hreads, -⟩ := hspells
  obtain ⟨front, tail, hinput, htail⟩ := hreads.exists_suffix
  have hrest : outcome.rest.length = tail.length ∧ width outcome.rest ≤ width tail := by
    rcases htail with htail | ⟨lexeme, more, rfl, hrest⟩
    · rw [htail]
      exact ⟨rfl, Nat.le_refl _⟩
    · rw [hrest, width_cons, width_cons]
      refine ⟨rfl, ?_⟩
      simp only [List.map_nil, List.sum_nil]
      omega
  obtain ⟨head, next, others, rfl, -, -, htext, -⟩ := hstop
  have htoken : 0 < head.token.size := by
    rw [Token.size, htext]
    decide
  obtain ⟨middle, hmiddle⟩ : ∃ middle, next :: others = middle ++ tail := by
    rcases List.append_eq_append_iff.1 hinput with ⟨middle, -, hstop⟩ | ⟨middle, -, htail'⟩
    · cases middle with
      | nil =>
          rw [List.nil_append] at hstop
          rw [← hstop] at hrest
          omega
      | cons first middle => exact ⟨middle, (List.cons.inj hstop).2⟩
    · have hlong : tail.length = middle.length + (head :: next :: others).length := by
        rw [htail', List.length_append]
      omega
  rw [width_cons, hmiddle, width_append]
  omega

/-- On lines, less than their bytes comes in front of the first token. -/
theorem Lines.sum_lead_lt {lexeme : Lexeme} {rest right : List Lexeme} (h : Lines pre)
    (hsplit : pre ++ right = lexeme :: rest) : (lexeme.lead.map Token.size).sum < width pre := by
  cases h with
  | newline first hkind htext =>
      obtain ⟨rfl, -⟩ := List.cons.inj hsplit
      have hpos : first.token.size ≠ 0 := fun hzero =>
        htext (String.utf8ByteSize_eq_zero_iff.1 hzero)
      rw [width_cons]
      omega
  | cons first heof hstring hrest =>
      obtain ⟨rfl, -⟩ := List.cons.inj hsplit
      have hpos := hrest.width_pos
      rw [width_cons]
      omega

/-- Trivia in front of a declaration does not make one. -/
theorem declares_settle_append {rest : List Tree} (hled : Led input)
    (h : Declares count children ((settle input).trees ++ rest)) :
    ∃ more, Declares more children rest ∧ count = Tree.sizeAll (settle input).trees + more := by
  rcases declares_append.1 h with h | h
  · have htrivia := (only_settle (p := fun kind => kind.isTrivia = true) (fun _ h => h) _ hled).1
    exact absurd h (not_declares fun tree hmem => ne_of_isTrivia rfl (htrivia tree hmem))
  · exact h

/-- Decorators at the end of the file stand alone. -/
theorem undecorated_fin (hfollows : Follows fin stop) (hleft : leavesAll left ≠ []) :
    undecorated left fin = keep left fin := by
  have hkind := hfollows.kind_fin
  have hword : declarationWord fin = none := by
    rw [declarationWord, if_neg (by rw [hkind]; decide)]
  have hne : left ≠ [] := by
    rintro rfl
    exact hleft rfl
  unfold undecorated
  rw [hword, hkind]
  exact if_pos (by simp [hne])

/-- What follows some decorators. -/
theorem meets_undecorated (hstop : Introduces name stop) (hfollows : Follows fin stop)
    {a b : Outcome} (hparts : Parts fin stop (swallowsAll · = false) (swallowsAll · = true) a b)
    (hspells : b.Spells [] (pre ++ stop)) (hfringe : ∀ tree ∈ b.trees, IsFringe tree.kind)
    (hled : Led b.rest) :
    Meets fin stop name pre (undecorated a.trees a.rest) (undecorated b.trees b.rest) := by
  have hbytes := hspells.width
  have hmore := spells_undecorated b.trees b.rest
  have hwidth := hmore.width
  rw [width_append, Tree.sizeAll, Nat.zero_add] at hbytes
  have hless := fun hlength => width_rest_lt hstop (hspells.trans hmore) hlength
  have hdeclares := fun {count : Nat} {children : List Tree}
    (h : Declares count children (undecorated b.trees b.rest).trees) =>
      declares_undecorated hfringe hled h
  cases hparts with
  | before post hpost ha hb =>
      rw [hb] at hbytes hdeclares hwidth hless ⊢
      rw [width_append] at hbytes hwidth
      rw [ha]
      cases parts_undecorated hfollows a.trees b.trees hpost with
      | before last hlast ha hb => exact .before last hlast ha hb
      | «at» ha hb hleaves h => exact .at ha hb hleaves h
      | past ha hb hleaves h =>
          refine .past ha hleaves h ?_ fun children hchildren => ?_
          · have := hless hb
            omega
          · obtain ⟨lexeme, rest, hsplit, hcount⟩ := hdeclares hchildren
            have := hpost.sum_lead_lt hsplit
            omega
  | «at» ha hb hleaves h =>
      rw [hb] at hbytes hled ⊢
      obtain ⟨children, hchildren, hname⟩ := exists_declares_undecorated hstop hled hfringe
      rw [ha, undecorated_fin hfollows hleaves]
      refine .starts children rfl hleaves h ?_ hname
      rwa [show width pre = Tree.sizeAll b.trees by omega]
  | past ha hb hleaves h =>
      have hrest := width_rest_lt hstop hspells hb
      rw [ha, undecorated_fin hfollows hleaves]
      refine .past rfl hleaves h ?_ fun children hchildren => ?_
      · have := hmore.length_le
        have := hless (by omega)
        omega
      · obtain ⟨lexeme, rest, -, hcount⟩ := hdeclares hchildren
        omega

theorem meets_declaration (hstop : Introduces name stop) (hfollows : Follows fin stop)
    (hpre : Lines pre) (hled : Led (pre ++ stop)) :
    Meets fin stop name pre (declaration (pre ++ fin)) (declaration (pre ++ stop)) := by
  obtain ⟨post, hpost, -, -, hsettle⟩ := hpre.settle
  have hlead := (spells_settle (pre ++ stop)).width
  have hled' := (spells_settle (pre ++ stop)).led hled
  rw [hsettle, width_append, width_append, Tree.sizeAll, Nat.zero_add] at hlead
  rw [hsettle] at hled'
  obtain ⟨hfringe, hled''⟩ := only_decorators _ hled'
  have hmeets := meets_undecorated hstop hfollows (parts_decorators hfollows hpost)
    (spells_loop spells_decoratorStep (post ++ stop)) hfringe hled''
  rw [declaration, andThen_apply, andThen_apply, into_apply, into_apply, hsettle, hsettle]
  have hleaf : ∀ {right : List Tree}, leavesAll right ≠ [] →
      leavesAll ((settle (pre ++ fin)).trees ++ right) ≠ [] ∧
        swallowsAll ((settle (pre ++ fin)).trees ++ right) = swallowsAll right := fun hright =>
    ⟨by simp [Tree.leavesAll_append, hright], Tree.swallowsAll_append_of_leaves _ hright⟩
  cases hmeets with
  | before last hlast ha hb => exact .before last hlast ha hb
  | «at» ha hb hleaves h => exact .at ha hb (hleaf hleaves).1 ((hleaf hleaves).2.trans h)
  | starts children ha hleaves h hdeclares hname =>
      exact .starts children ha (hleaf hleaves).1 ((hleaf hleaves).2.trans h)
        (declares_append.2 (.inr ⟨_, hdeclares, by omega⟩)) hname
  | past ha hleaves h hless hnot =>
      refine .past ha (hleaf hleaves).1 ((hleaf hleaves).2.trans h) ?_ fun children hdeclares => ?_
      · dsimp only
        rw [Tree.sizeAll_append]
        omega
      · obtain ⟨more, hmore, hcount⟩ := declares_settle_append hled hdeclares
        obtain rfl : more = width post := by omega
        exact hnot children hmore

theorem exists_declares_stop (hstop : Introduces name stop) (hfollows : Follows fin stop)
    (hled : Led stop) :
    ∃ children, Declares 0 children (loop documentStep stop).trees ∧ HasName name children := by
  have hdecorators : loop decoratorStep stop = done stop :=
    loop_of_last progresses_decoratorStep (by
      rw [decoratorStep, if_neg (by rw [hfollows.kind_stop]; decide)])
  have hsettle : settle stop = ⟨[], [], stop⟩ := by
    obtain ⟨⟨lead, token⟩, next, rest, rfl, hlead, -⟩ := hstop
    obtain rfl : lead = [] := hlead
    rfl
  have hfringe : ∀ tree ∈ ([] : List Tree), IsFringe tree.kind := by simp
  obtain ⟨children, hdeclares, hname⟩ := exists_declares_undecorated hstop hled hfringe
  have hagain : documentStep stop = .again declaration := by
    rw [documentStep, hfollows.kind_stop]
  refine ⟨children, ?_, hname⟩
  rw [loop_of_again progresses_documentStep hagain, andThen_apply, declaration, andThen_apply,
    hsettle, into_apply, hdecorators]
  exact declares_append.2 (.inl hdeclares)

theorem documentStep_append (hpre : Lines pre) (right : List Lexeme) :
    documentStep (pre ++ right) = .again (if kind pre = .newline then take else declaration) := by
  rw [documentStep, hpre.kind_append]
  split
  · exact absurd ‹_› hpre.kind_ne_eof
  · rename_i hline
    rw [if_pos hline]
  · rename_i hline
    rw [if_neg hline]

/-- A document takes a declaration behind some lines for one, unless the tree of the lines goes on
behind them. -/
def Resumes (fin stop : List Lexeme) (name : String) (pre : List Lexeme) : Prop :=
  (swallowsAll (loop documentStep (pre ++ fin)).trees = false ∧
    ∃ children, Declares (width pre) children (loop documentStep (pre ++ stop)).trees ∧
      HasName name children) ∨
  (swallowsAll (loop documentStep (pre ++ fin)).trees = true ∧
    ∀ children, ¬Declares (width pre) children (loop documentStep (pre ++ stop)).trees)

/-- The trees of some lines go on behind them exactly if a declaration there does not become one. -/
theorem resumes (hstop : Introduces name stop) (hfollows : Follows fin stop) (hpre : Lines pre)
    (hled : Led (pre ++ stop)) :
    leavesAll (loop documentStep (pre ++ fin)).trees ≠ [] ∧ Resumes fin stop name pre := by
  induction hlength : pre.length using Nat.strongRecOn generalizing pre with
  | ind length ih =>
      have hround := documentStep_append hpre
      have hspells := spells_documentStep (pre ++ stop)
      have hless := progresses_documentStep _ _ (hround fin)
      have hmeets : Meets fin stop name pre
          ((if kind pre = .newline then take else declaration) (pre ++ fin))
          ((if kind pre = .newline then take else declaration) (pre ++ stop)) := by
        split
        · exact meets_take hpre
        · exact meets_declaration hstop hfollows hpre hled
      rw [hround] at hspells
      have hloop := fun right => loop_of_again progresses_documentStep (hround right)
      unfold Resumes
      rw [hloop, hloop, andThen_apply, andThen_apply]
      generalize (if kind pre = .newline then take else declaration) = round at *
      have hbytes := hspells.width
      have hrest := hspells.led hled
      rw [Step.rule, width_append, Tree.sizeAll, Nat.zero_add] at hbytes
      rw [Step.rule] at hrest
      have hbare := (hfollows.nothing (spells_loop spells_documentStep fin)).2
      have hstays : ∀ {trees : List Tree}, leavesAll trees ≠ [] →
          leavesAll (trees ++ (loop documentStep fin).trees) ≠ [] ∧
            swallowsAll (trees ++ (loop documentStep fin).trees) = swallowsAll trees := fun hne =>
        ⟨by simp [Tree.leavesAll_append, hne], Tree.swallowsAll_append_of_bare hne hbare⟩
      cases hmeets with
      | before post hpost ha hb =>
          rw [ha, List.length_append, List.length_append] at hless
          rw [hb] at hbytes hrest
          rw [width_append] at hbytes
          have hpos := hpost.width_pos
          obtain ⟨hne, hresumes⟩ := ih post.length (by omega) hpost hrest rfl
          rw [ha, hb, Tree.swallowsAll_append_of_leaves _ hne]
          refine ⟨by simp [Tree.leavesAll_append, hne], ?_⟩
          rcases hresumes with ⟨hstay, children, hdeclares, hname⟩ | ⟨hswallow, hnot⟩
          · exact .inl ⟨hstay, children,
              declares_append.2 (.inr ⟨_, hdeclares, by omega⟩), hname⟩
          · refine .inr ⟨hswallow, fun children hdeclares => ?_⟩
            rcases declares_append.1 hdeclares with hdeclares | ⟨more, hmore, hcount⟩
            · have := hdeclares.le
              omega
            · obtain rfl : more = width post := by omega
              exact hnot children hmore
      | «at» ha hb hleaves h =>
          rw [hb] at hbytes hrest
          obtain ⟨children, hdeclares, hname⟩ := exists_declares_stop hstop hfollows hrest
          rw [ha, hb]
          refine ⟨(hstays hleaves).1, .inl ⟨(hstays hleaves).2.trans h, children, ?_, hname⟩⟩
          exact declares_append.2 (.inr ⟨0, hdeclares, by omega⟩)
      | starts children ha hleaves h hdeclares hname =>
          rw [ha]
          exact ⟨(hstays hleaves).1, .inl ⟨(hstays hleaves).2.trans h, children,
            declares_append.2 (.inl hdeclares), hname⟩⟩
      | past ha hleaves h hgreater hnot =>
          rw [ha]
          refine ⟨(hstays hleaves).1, .inr ⟨(hstays hleaves).2.trans h, fun children hdeclares => ?_⟩⟩
          rcases declares_append.1 hdeclares with hdeclares | ⟨more, hmore, hcount⟩
          · exact hnot children hdeclares
          · omega

end Rule

end Caret
