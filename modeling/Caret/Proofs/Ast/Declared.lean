import Caret.Proofs.Ast.Reads

/-!
# Reading a program back

Each declaration is read up to the end of its line, with its decorators in front of it.
-/

namespace Caret

open Rule

namespace Ast

variable {following : Kind × String} {after rest : List (Kind × String)}

/-- What stands behind a declaration. -/
def endsLine (kind : Kind) : Prop := kind = .newline ∨ kind = .eof

theorem goesOn_of_endsLine {kind : Kind} (h : endsLine kind) : Level.goesOn kind = false := by
  obtain rfl | rfl := h <;> rfl

theorem gives_outermost {expr : Expr} (hwritable : expr.grouped.isWritable ["in"] = true)
    (hnesting : expr.grouped.nesting < maxDepth) (hend : endsLine following.1) :
    Rule.expr.Gives (expr.grouped.words ++ following :: after) [expr.grouped.tree]
      (following :: after) :=
  (expr.isRead_grouped hwritable).whole hnesting (goesOn_of_endsLine hend)

/-- The type of a resource or the path of a module. -/
theorem gives_outermost_quoted {multiline : Bool} {parts : Parts}
    (hwritable : parts.grouped.isWritable ["in"] multiline = true)
    (hnesting : parts.grouped.nesting ≤ maxDepth) (kind : Kind) (expected : Expected)
    (rest : List (Kind × String)) :
    (quoted kind expected).Gives
      ((.stringStart, quotes multiline) :: (parts.grouped.words multiline ++ rest))
      [.node kind [.node .string
        (.leaf .stringStart (quotes multiline) :: parts.grouped.trees multiline)]] rest := by
  have hall : parts.All fun _ => True := Parts.all_of_step (fun _ _ => trivial) parts
  have hread : parts.grouped.All Expr.ReadsExpr := Parts.all_grouped
    (fun {expr} _ hinner => (expr.isRead_grouped hinner).whole) multiline hall hwritable
  exact gives_quoted (parts.grouped.gives multiline rest hread hnesting) (quotes multiline) kind
    expected

/-! Decorators -/

theorem Expr.exists_name {expr : Expr} (h : expr.startsWithName = true) :
    ∃ text rest, expr.words = (.ident, text) :: rest := by
  have hmore : ∀ {words : List (Kind × String)} (more : List (Kind × String)),
      (∃ text rest, words = (.ident, text) :: rest) →
      ∃ text rest, words ++ more = (.ident, text) :: rest := by
    rintro _ more ⟨text, rest, rfl⟩
    exact ⟨text, rest ++ more, rfl⟩
  induction expr using Expr.induction with
  | step expr ih =>
      cases expr with
      | access => exact ⟨_, _, rfl⟩
      | member => exact hmore _ (ih h)
      | index | call => exact hmore _ (ih.1 h)
      | _ => cases h

theorem Decorator.gives_chain {decorator : Decorator}
    (hwritable : decorator.grouped.chain.isWritable ["in"] = true)
    (hnesting : decorator.grouped.nesting ≤ maxDepth) (after : List (Kind × String)) :
    outermost.chain.Gives (decorator.grouped.chain.words ++ (.newline, "\n") :: after)
      [decorator.grouped.chain.tree] ((.newline, "\n") :: after) := by
  have hread := decorator.chain.isRead_grouped hwritable
  have htight := Expr.tightness_of_startsWithName decorator.grouped.startsWithName
  have hlinks : ((level (maxDepth - decorator.grouped.chain.links)).links
      [decorator.grouped.chain.tree]).Gives ((.newline, "\n") :: after)
      [decorator.grouped.chain.tree] ((.newline, "\n") :: after) := gives_links_keep rfl
  exact (hread.links (Nat.le_of_eq htight.symm) hnesting hlinks).settled

theorem gives_decorators {word : Kind × String} (hsign : word.1 ≠ .atSign)
    (hline : word.1 ≠ .newline) (rest : List (Kind × String)) (decorators : List Decorator)
    (hwritable : ∀ decorator ∈ decorators, decorator.grouped.chain.isWritable ["in"] = true)
    (hnesting : ∀ decorator ∈ decorators, decorator.grouped.nesting ≤ maxDepth) :
    (loop decoratorStep).Gives
      ((decorators.map Decorator.grouped).flatMap Decorator.words ++ word :: rest)
      ((decorators.map Decorator.grouped).flatMap Decorator.trees) (word :: rest) := by
  induction decorators with
  | nil => exact gives_noDecorators hsign
  | cons decorator decorators ih =>
      obtain ⟨hhead, htail⟩ := List.forall_mem_cons.1 hwritable
      obtain ⟨hheadNesting, htailNesting⟩ := List.forall_mem_cons.1 hnesting
      have hrest := ih htail htailNesting
      have hstart : ∀ first ∈ ((decorators.map Decorator.grouped).flatMap Decorator.words ++
          word :: rest).head?, first.1 ≠ .newline := by
        cases decorators with
        | nil => simpa using hline
        | cons => simp [Decorator.words]
      have hchain := Decorator.gives_chain hhead hheadNesting
        ((decorators.map Decorator.grouped).flatMap Decorator.words ++ word :: rest)
      obtain ⟨text, more, hwords⟩ := Expr.exists_name decorator.grouped.startsWithName
      simp only [List.map_cons, List.flatMap_cons, Decorator.words, Decorator.trees,
        List.cons_append, List.append_assoc, List.nil_append]
      rw [hwords] at hchain ⊢
      exact hchain.decorators rfl hstart hrest

/-! Declarations -/

namespace Declaration

theorem lookup_word (declaration : Declaration) :
    declarationWords.lookup declaration.word = some (declaration.kind, declaration.keyword) := by
  cases declaration <;> rfl

theorem gives_header {declaration : Declaration}
    (hwritable : declaration.grouped.isWritable ["in"] = true)
    (hnesting : declaration.grouped.nesting ≤ maxDepth) (hend : endsLine following.1) :
    (header declaration.grouped.kind).Gives
      (declaration.grouped.headerWords ++ following :: after) declaration.grouped.headerTrees
      (following :: after) := by
  have hnameType : ∀ (name type : Name) (rest : List (Kind × String)),
      (Rule.name ++ typeName).Gives (name.leaf :: type.leaf :: rest)
        [.node .name [.leaf .ident name.text], .node .typeName [.leaf .ident type.text]] rest :=
    fun name type rest => (gives_name name.text).andThen (gives_typeName type.text)
  cases declaration with
  | targetScope value => exact gives_value (gives_outermost hwritable hnesting hend)
  | param name type default =>
      cases default with
      | none =>
          have hend : (ifAt .eq (take ++ Rule.expr) done).Gives (following :: after) []
              (following :: after) :=
            gives_done.ifAt_neg (by obtain h | h := hend <;> simp [h])
          exact (hnameType name type _).andThen hend
      | some value =>
          have hsign : take.Gives ((.eq, "=") :: (value.grouped.words ++ following :: after))
              [.leaf .eq "="] (value.grouped.words ++ following :: after) := gives_take (by simp)
          exact (hnameType name type _).andThen
            ((hsign.andThen (gives_outermost hwritable hnesting hend)).ifAt_pos rfl)
  | var name value =>
      exact (gives_name name.text).value (gives_outermost hwritable hnesting hend)
  | output name type value =>
      exact (hnameType name type _).value (gives_outermost hwritable hnesting hend)
  | resource name multiline type existing value =>
      simp only [grouped, isWritable, nesting, Bool.and_eq_true, Nat.max_le] at hwritable hnesting
      have hexisting : Rule.existing.Gives
          ((if existing then [(.ident, "existing")] else []) ++
            (.eq, "=") :: (value.grouped.words ++ following :: after))
          (if existing then [.leaf .existingKw "existing"] else [])
          ((.eq, "=") :: (value.grouped.words ++ following :: after)) := by
        cases existing
        · exact gives_existing_none (by simp)
        · exact gives_existing
      have htype := gives_outermost_quoted hwritable.1 hnesting.1 .resourceType .resourceType
      have hall := (((gives_name name.text).andThen (htype _)).andThen hexisting).value
        (gives_outermost hwritable.2 hnesting.2 hend)
      simp only [grouped, headerWords, headerTrees, List.cons_append, List.append_assoc]
      exact hall
  | module name multiline path value =>
      simp only [grouped, isWritable, nesting, Bool.and_eq_true, Nat.max_le] at hwritable hnesting
      have hpath := gives_outermost_quoted hwritable.1 hnesting.1 .modulePath .modulePath
      have hvalue : Rule.expr.Gives (value.grouped.words ++ following :: after)
          [value.grouped.tree] (following :: after) :=
        gives_outermost hwritable.2 hnesting.2 hend
      have hall := ((gives_name name.text).andThen (hpath _)).value hvalue
      simp only [grouped, headerWords, headerTrees, List.cons_append, List.append_assoc]
      exact hall

end Declaration

theorem Decorated.gives {decorated : Decorated}
    (hwritable : decorated.grouped.isWritable ["in"] = true)
    (hnesting : decorated.grouped.nestsWithin maxDepth = true) (hend : endsLine following.1) :
    Rule.declaration.Gives (decorated.grouped.words ++ following :: after)
      [decorated.grouped.tree] (following :: after) := by
  simp only [isWritable, nestsWithin, grouped, Bool.and_eq_true, List.all_map,
    List.all_eq_true, Function.comp_apply, decide_eq_true_eq] at hwritable hnesting
  have hdeclaration : ∀ decorators, (undecorated decorators).Gives
      ((.ident, decorated.declaration.grouped.word) ::
        (decorated.declaration.grouped.headerWords ++ following :: after))
      [.node decorated.declaration.grouped.kind (decorators ++
        .leaf decorated.declaration.grouped.keyword decorated.declaration.grouped.word ::
          decorated.declaration.grouped.headerTrees)] (following :: after) :=
    Gives.undecorated decorated.declaration.grouped.lookup_word
      (Declaration.gives_header hwritable.2 (of_decide_eq_true hnesting.2) hend) hend
  have hdecorators : ∀ rest, (loop decoratorStep).Gives
      ((decorated.decorators.map Decorator.grouped).flatMap Decorator.words ++
        (.ident, decorated.declaration.grouped.word) :: rest)
      ((decorated.decorators.map Decorator.grouped).flatMap Decorator.trees)
      ((.ident, decorated.declaration.grouped.word) :: rest) := fun rest =>
    gives_decorators (by simp) (by simp) rest decorated.decorators hwritable.1 hnesting.1
  rw [words, List.append_assoc, List.cons_append]
  exact ((hdecorators _).into (hdeclaration _)).settled

theorem Decorated.exists_words (decorated : Decorated) (rest : List (Kind × String)) :
    ∃ word more, decorated.words ++ rest = word :: more ∧ word.1 ≠ .newline ∧ word.1 ≠ .eof := by
  rw [words]
  cases decorated.decorators with
  | nil => exact ⟨_, _, rfl, by simp, by simp⟩
  | cons => exact ⟨_, _, rfl, by simp, by simp⟩

theorem Decorated.gives_document {decorated : Decorated} {trees : List Tree}
    {after' : List (Kind × String)} (hend : endsLine following.1)
    (hwritable : decorated.grouped.isWritable ["in"] = true)
    (hnesting : decorated.grouped.nestsWithin maxDepth = true)
    (hloop : (loop documentStep).Gives (following :: after) trees after') :
    (loop documentStep).Gives (decorated.grouped.words ++ following :: after)
      (decorated.grouped.tree :: trees) after' := by
  have hdeclaration : Rule.declaration.Gives (decorated.grouped.words ++ following :: after)
      [decorated.grouped.tree] (following :: after) := Decorated.gives hwritable hnesting hend
  obtain ⟨word, more, hwords, hline, heof⟩ :=
    decorated.grouped.exists_words (following :: after)
  rw [hwords] at hdeclaration ⊢
  exact gives_documentDeclaration hdeclaration hloop hline heof

namespace Program

variable {decorated second : Decorated} {declarations : List Decorated}

theorem words_singleton : words ⟨[decorated]⟩ = decorated.words := by
  simp [words, List.intercalate]

theorem words_cons : words ⟨decorated :: second :: declarations⟩ =
    decorated.words ++ (.newline, "\n") :: words ⟨second :: declarations⟩ := by
  simp [words, List.intercalate]

theorem trees_singleton : trees ⟨[decorated]⟩ = [decorated.tree] := rfl

theorem trees_cons : trees ⟨decorated :: second :: declarations⟩ =
    decorated.tree :: .leaf .newline "\n" :: trees ⟨second :: declarations⟩ := rfl

end Program

/-- All declarations of a program are read as they are meant. -/
theorem Program.gives {program : Program} (hwritable : program.grouped.isWritable ["in"] = true)
    (hnesting : program.grouped.nestsWithin maxDepth = true) :
    (loop documentStep).Gives (program.grouped.words ++ [(.eof, "")]) program.grouped.trees
      [(.eof, "")] := by
  obtain ⟨declarations⟩ := program
  induction declarations with
  | nil => exact gives_documentEnd
  | cons decorated declarations ih =>
      simp only [grouped, isWritable, nestsWithin, List.map_cons, List.all_cons,
        Bool.and_eq_true] at hwritable hnesting ih
      cases declarations with
      | nil =>
          simp only [grouped, List.map_cons, List.map_nil, words_singleton, trees_singleton]
          exact Decorated.gives_document (.inr rfl) hwritable.1 hnesting.1 gives_documentEnd
      | cons second declarations =>
          simp only [grouped, List.map_cons, words_cons, trees_cons, List.append_assoc,
            List.cons_append]
          exact Decorated.gives_document (.inl rfl) hwritable.1 hnesting.1
            (gives_documentNewline (ih hwritable.2 hnesting.2))

end Ast

end Caret
