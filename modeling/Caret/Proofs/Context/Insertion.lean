import Caret.Proofs.Context.Behind

/-!
# Writing a name where an expression is offered

A name that is put in place of what a completion replaces stands behind the token that awaits an
expression, with nothing but trivia between them. It becomes the expression that is expected there.
The cursor may stand inside the token, though: then the name comes behind the first character of it,
and where this is no such token itself, the name can be lost in an error node.
-/

namespace Caret

open Lexer (endsInCode)

/-- The kinds of the tokens that an expression comes after. -/
def Kind.inviting : List Kind :=
  [eq, bang, minus, question, colon, inKw, lParen, comma, newline, lBrack, interpStart,
   questionQuestion, pipePipe, ampAmp, eqEq, bangEq, lt, ltEq, gt, gtEq, plus, star, slash, percent]

theorem Kind.mem_inviting_of_awaits {kind home : Kind} (h : kind.awaits home = true) :
    kind ∈ inviting := by
  unfold awaits at h
  split at h <;> first
    | decide
    | (cases kind <;> first | decide | cases h)

theorem Leaf.mem_inviting_of_invites {leaf : Leaf} (h : leaf.invites = true) :
    leaf.kind ∈ Kind.inviting := by
  rcases Bool.or_eq_true_iff.1 h with hawaits | hloop
  · exact Kind.mem_inviting_of_awaits hawaits
  · have hbracket : leaf.kind = .lBrack := by simpa using (Bool.and_eq_true_iff.1 hloop).1
    rw [hbracket]
    decide

/-- Code can go on behind a token that an expression comes after. -/
theorem Leaf.endsInCode_of_invites {leaf : Leaf} (h : leaf.invites = true) :
    endsInCode leaf.kind = true :=
  (by decide : ∀ kind ∈ Kind.inviting, endsInCode kind = true) _ (leaf.mem_inviting_of_invites h)

/-- A token that an expression comes after is a sign, an operator of two characters or a newline,
but for the keyword of a loop and the opening of a hole. -/
theorem Leaf.shape_of_invites {leaf : Leaf} (h : leaf.invites = true) :
    leaf.kind.isSign = true ∨ leaf.kind.splits = true ∨ leaf.kind = .inKw ∨
      leaf.kind = .interpStart :=
  (by decide : ∀ kind ∈ Kind.inviting, kind.isSign = true ∨ kind.splits = true ∨ kind = .inKw ∨
    kind = .interpStart) _ (leaf.mem_inviting_of_invites h)

namespace Document

variable {text inserted name : String} {offset : Nat} {replacement : Span}
  {last : Locus} {left right : List Locus} {start : Nat}

/-- Code goes on behind a token that awaits an expression, and the cursor is inside it only where the
token is an operator of two characters or a newline. -/
theorem Awaits.behind (h : Awaits text offset replacement last) :
    Behind text offset replacement last := by
  refine ⟨h.mem, h.trivia, Leaf.endsInCode_of_invites h.invites, h.before, h.front, h.between, h.word,
    h.comment, ?_⟩
  rcases Leaf.shape_of_invites h.invites with hsign | hsplits | hin | hopen
  · exact .inl hsign
  · exact .inr (.inl hsplits)
  · have hword : last.leaf.kind.isWord = true := by
      rw [hin]
      rfl
    exact .inr (.inr (.inl hword))
  · exact .inr (.inr (.inr (h.hole hopen)))

/-- Inside an operator of two characters whose first one is no binary operator. -/
def SplitsOperator (text : String) (offset : Nat) : Prop :=
  ∃ leaf ∈ (locus text).leaves, leaf.kind ∈ [Kind.eqEq, .bangEq, .ampAmp, .pipePipe] ∧
    leaf.span.start < offset ∧ offset < leaf.span.stop

/-- The token that ends at an offset is in an error node. -/
def Strands (text : String) (offset : Nat) : Prop :=
  ∃ leaf ∈ (locus text).leaves, leaf.span.stop = offset ∧
    ∃ parent ∈ leaf.parent, parent.kind = .error

/-- Behind the first character of any other operator an expression is expected just as well. -/
theorem Joint.twins (joint : Joint text inserted name offset start last)
    (h : joint.part' = joint.part ∨ last.kind ∉ [Kind.eqEq, .bangEq, .ampAmp, .pipePipe]) :
    joint.part.1.Twins joint.part'.1 := by
  rcases joint.whole_or_half with hwhole | ⟨hsplits, hhalf, hkind, -⟩
  · rw [hwhole]
    exact .same _
  · rcases h with hwhole | hother
    · rw [hwhole]
      exact .same _
    · rw [hhalf, hkind]
      rw [hkind] at hsplits
      cases htag : last.kind <;> rw [htag] at hsplits hother <;> first
        | exact absurd hsplits (by decide)
        | exact absurd (by decide) hother
        | exact .same _
        | exact .lt
        | exact .gt
        | exact .question

/-- A name behind a token that an expression comes after becomes one, and a name behind a token of an
error node is one of its tokens. -/
theorem home_of_name {gap : List Locus} {named : Locus} (hname : Identifier.isValid name = true)
    (hfresh : name ∉ contextualWords)
    (hdeep : ∀ error ∈ (parse text).errors, error.cause ≠ .nestingTooDeep)
    (hleaves : (locus text).leaves = left ++ last :: (gap ++ named :: right))
    (hgap : ∀ other ∈ gap, other.kind.isTrivia = true) (hlast : last.kind.isTrivia = false)
    (hnamed : named.leaf.Takes (.ident, name)) :
    (last.kind.awaits last.leaf.home = true →
      named.leaf.home = .variableAccess ∧ named.kind = .ident) ∧
    (last.leaf.home = .error → named.leaf.home = .error) := by
  have hword : named.kind.isWord = true := hnamed.1.isWord_eq
  have htrivia : named.kind.isTrivia = false := hnamed.1.isTrivia_eq
  have hfalse : ∀ error ∈ (parse text).errors, error.cause = .nestingTooDeep → False := hdeep
  obtain ⟨-, hplaced, hanswers⟩ := follows_of_leaves hname hfresh hfalse hleaves hgap hlast htrivia
  refine ⟨fun hawaits => ?_, fun herror => ?_⟩
  · have hhome : named.leaf.home = .variableAccess := by
      rcases hanswers _ (.access hawaits hword hnamed.2) with hhome | ⟨-, hfalse⟩
      · exact hhome
      · exact hfalse.elim
    exact ⟨hhome, hplaced.access hhome⟩
  · rcases hanswers _ (.error herror hword hnamed.2) with hhome | ⟨-, hfalse⟩
    · exact hhome
    · exact hfalse.elim

/-- The token that an expression comes after in the one text has one come after it in the other. -/
theorem Joint.awaits_last {left' right' : List Locus} {last' : Locus}
    (joint : Joint text inserted name offset start last) (h : Awaits text offset replacement last)
    (hname : Identifier.isValid name = true) (hfresh : name ∉ contextualWords)
    (htwins : joint.part' = joint.part ∨ last.kind ∉ [Kind.eqEq, .bangEq, .ampAmp, .pipePipe])
    (hleaves' : (locus inserted).leaves = left' ++ last' :: right')
    (hleft' : List.Forall₂ (fun locus part => locus.leaf.Takes part) left' joint.before)
    (hlast' : last'.kind.isTrivia = false) : last'.kind.awaits last'.leaf.home = true := by
  have hin : joint.part.1 = .ident → joint.part.2 = "in" ∧ joint.part'.2 = "in" := by
    intro hident
    have hword : last.kind.isWord = true := by
      rw [show last.kind.isWord = joint.part.1.isWord from joint.takes.1.isWord_eq, hident]
      rfl
    have hlast : last.kind = .inKw := by
      rcases Leaf.shape_of_invites h.invites with hsign | hsplits | hin | hopen
      · change last.kind.isSign = true at hsign
        cases hkind : last.kind <;> rw [hkind] at hword hsign <;> first
          | exact absurd hword (by decide)
          | exact absurd hsign (by decide)
      · change last.kind.splits = true at hsplits
        cases hkind : last.kind <;> rw [hkind] at hword hsplits <;> first
          | exact absurd hword (by decide)
          | exact absurd hsplits (by decide)
      · exact hin
      · change last.kind = .interpStart at hopen
        rw [hopen] at hword
        cases hword
    have htext : last.text = "in" := by
      rcases (placed_leaf hname hfresh h.mem h.trivia).inKw hlast with herror | htext
      · have hinvites := h.invites
        rw [show last.leaf = ⟨.error, last.kind, last.text⟩ from by rw [← herror]; rfl,
          Rule.invites_error] at hinvites
        cases hinvites
      · exact htext
    have hpart : joint.part.2 = "in" := joint.takes.2.symm.trans htext
    refine ⟨hpart, ?_⟩
    rcases joint.whole_or_half with hwhole | ⟨hsplits, -⟩
    · rw [hwhole, hpart]
    · rw [hident] at hsplits
      cases hsplits
  obtain ⟨leaf, hmark, hpasses⟩ := passes_marks hfresh joint.parts joint.parts' joint.gap_trivia
    (joint.takes.1.isTrivia_eq.symm.trans h.trivia) (joint.isTrivia_half h.trivia)
    (joint.twins htwins) hin
  rw [marks_getElem joint.leaves joint.takes_left h.trivia] at hmark
  obtain rfl := Option.some.inj hmark
  obtain ⟨other, hmark', hawaits⟩ := hpasses h.invites
  rw [marks_getElem hleaves' hleft' hlast'] at hmark'
  obtain rfl := Option.some.inj hmark'
  exact hawaits

/-- What is left of an operator whose first character is none awaits an expression by itself, or it
is in an error node. -/
theorem Joint.home_last {left' right' : List Locus} {last' : Locus}
    (joint : Joint text inserted name offset start last) (hname : Identifier.isValid name = true)
    (hfresh : name ∉ contextualWords) (hhalf : joint.part' ≠ joint.part)
    (hkind : last.kind ∈ [Kind.eqEq, .bangEq, .ampAmp, .pipePipe])
    (hleaves' : (locus inserted).leaves = left' ++ last' :: right')
    (hlast' : last'.leaf.Takes joint.part') (htrivia : last'.kind.isTrivia = false) :
    last'.leaf.home = .error ∨ last'.kind.awaits last'.leaf.home = true := by
  obtain ⟨-, hsplit, hsame, -⟩ := joint.whole_or_half.resolve_left hhalf
  have hpart : joint.part'.1 ∈ [Kind.eq, .bang, .errorToken] := by
    rw [hsplit, hsame]
    simp only [List.mem_cons, List.not_mem_nil, or_false] at hkind
    rcases hkind with hkind | hkind | hkind | hkind <;> rw [hkind] <;> decide
  simp only [List.mem_cons, List.not_mem_nil, or_false] at hpart
  have hword : last'.kind.isWord = false := by
    rw [show last'.kind.isWord = joint.part'.1.isWord from hlast'.1.isWord_eq]
    rcases hpart with hpart | hpart | hpart <;> rw [hpart] <;> rfl
  rw [hlast'.kind_eq hword] at hpart
  have hmem : last' ∈ (locus inserted).leaves := by simp [hleaves']
  exact (placed_leaf hname hfresh hmem htrivia).awaits hpart

/-- The name in the text with it becomes an expression, unless it comes behind the first character
of an operator that is in an error node now. -/
theorem Joint.exists_named (joint : Joint text inserted name offset start last)
    (h : Awaits text offset replacement last) (hname : Identifier.isValid name = true)
    (hfresh : name ∉ contextualWords)
    (hdeep : ∀ error ∈ (parse inserted).errors, error.cause ≠ .nestingTooDeep) :
    ∃ named ∈ (locus inserted).leaves,
      named.text = name ∧ named.span = ⟨start + 1, start + 1 + name.utf8ByteSize⟩ ∧
      (named.leaf.home = .variableAccess ∧ named.kind = .ident ∨
        named.leaf.home = .error ∧ SplitsOperator text offset ∧ Strands inserted start) := by
  obtain ⟨left', last', right', hleaves', hleft', hlast', hright'⟩ :=
    exists_leaves_of_parts joint.parts'
  obtain ⟨gap, named, rest, rfl, hgap, hnamed, -⟩ := exists_leaves_of_takes hright'
  have hmem : named ∈ (locus inserted).leaves := by simp [hleaves']
  have htext : named.text = name := hnamed.2
  have hspan : named.span = ⟨start + 1, start + 1 + name.utf8ByteSize⟩ := by
    have hsplit : (locus inserted).leaves = (left' ++ last' :: gap) ++ named :: rest := by
      simp [hleaves']
    have hsum := sum_of_takes (List.rel_append hleft' (List.Forall₂.cons hlast' hgap))
    rw [span_of_leaves hsplit, hsum, joint.size, htext]
  have htrivia : last'.kind.isTrivia = false :=
    hlast'.1.isTrivia_eq.trans (joint.isTrivia_half h.trivia)
  obtain ⟨hhome, herror⟩ := home_of_name hname hfresh hdeep hleaves'
    ((forall_isTrivia_iff hgap).2 joint.gap_trivia) htrivia hnamed
  refine ⟨named, hmem, htext, hspan, ?_⟩
  by_cases htwins : joint.part' = joint.part ∨
      last.kind ∉ [Kind.eqEq, .bangEq, .ampAmp, .pipePipe]
  · exact .inl (hhome (joint.awaits_last h hname hfresh htwins hleaves' hleft' htrivia))
  · rw [not_or, not_not] at htwins
    obtain ⟨hhalf, hkind⟩ := htwins
    rcases joint.home_last hname hfresh hhalf hkind hleaves' hlast' htrivia with hlost | hawaits
    · obtain ⟨-, -, -, hbefore, hafter, hsize⟩ := joint.whole_or_half.resolve_left hhalf
      refine .inr ⟨herror hlost, ⟨last, h.mem, hkind, hbefore, hafter⟩, last', by simp [hleaves'],
        ?_, ?_⟩
      · have hsum := sum_of_takes (List.rel_append hleft' (List.Forall₂.cons hlast' .nil))
        rw [hsize] at hsum
        rw [span_of_leaves hleaves', ← hsum]
        simp
      · obtain ⟨parent, hparent, hkind⟩ := exists_parent_of_home hlost (by decide)
        exact ⟨parent, hparent, hkind⟩
    · exact .inl (hhome hawaits)

end Document

/-- A name that is put between blanks in place of what a completion of an expression replaces becomes
a variable, where nothing nests too deeply. Only inside one of the operators `==`, `!=`, `&&` and
`||` it can get lost, in one error node with the first character of the operator. -/
theorem exists_variable_of_isExpr {text name : String} {offset : Nat} {context : Context}
    (hoffset : Bytes.isBoundary offset text = true)
    (hcontext : Context.at? (Document.locus text) text offset = some context)
    (hkind : context.kind.isExpr = true) (hname : Identifier.isValid name = true)
    (hfresh : name ∉ contextualWords) :
    ∃ inserted, Bytes.replace text context.replacement.start context.replacement.stop
        (" " ++ name ++ " ") = some inserted ∧
      ((∀ error ∈ (Document.parse inserted).errors, error.cause ≠ .nestingTooDeep) →
        ∃ named ∈ (Document.locus inserted).leaves, named.text = name ∧
          named.span = ⟨context.replacement.start + 1,
            context.replacement.start + 1 + name.utf8ByteSize⟩ ∧
          ∃ parent, named.parent = some parent ∧
            (named.kind = .ident ∧ parent.kind = .variableAccess ∨
              parent.kind = .error ∧ Document.SplitsOperator text offset ∧
                Document.Strands inserted context.replacement.start)) := by
  obtain ⟨last, hawaits⟩ := Document.exists_awaits hname hfresh hcontext hkind
  obtain ⟨inserted, hreplace⟩ := hawaits.behind.exists_replace hoffset (" " ++ name ++ " ")
  obtain ⟨joint⟩ :=
    hawaits.behind.joint_of_replace hname (rfl : " ".toList = [' ']) (by decide) hreplace
  refine ⟨inserted, hreplace, fun hdeep => ?_⟩
  obtain ⟨named, hmem, htext, hspan, hhome⟩ := joint.exists_named hawaits hname hfresh hdeep
  refine ⟨named, hmem, htext, hspan, ?_⟩
  rcases hhome with ⟨haccess, hident⟩ | ⟨herror, hsplits, hstrands⟩
  · obtain ⟨parent, hparent, hkind⟩ := Document.exists_parent_of_home haccess (by decide)
    exact ⟨parent, hparent, .inl ⟨hident, hkind⟩⟩
  · obtain ⟨parent, hparent, hkind⟩ := Document.exists_parent_of_home herror (by decide)
    exact ⟨parent, hparent, .inr ⟨hkind, hsplits, hstrands⟩⟩

/-- A cut-off array, with the cursor behind its comma. -/
theorem exists_variable_in_array :
    ∃ context, Bytes.isBoundary 12 "var x = [a, " = true ∧
      Context.at? (Document.locus "var x = [a, ") "var x = [a, " 12 = some context ∧
      context.kind.isExpr = true ∧ Identifier.isValid "z" = true ∧ "z" ∉ contextualWords ∧
      ∃ inserted, Bytes.replace "var x = [a, " context.replacement.start context.replacement.stop
          (" " ++ "z" ++ " ") = some inserted ∧
        ((∀ error ∈ (Document.parse inserted).errors, error.cause ≠ .nestingTooDeep) →
          ∃ named ∈ (Document.locus inserted).leaves, named.text = "z" ∧
            named.span = ⟨context.replacement.start + 1,
              context.replacement.start + 1 + "z".utf8ByteSize⟩ ∧
            ∃ parent, named.parent = some parent ∧
              (named.kind = .ident ∧ parent.kind = .variableAccess ∨
                parent.kind = .error ∧ Document.SplitsOperator "var x = [a, " 12 ∧
                  Document.Strands inserted context.replacement.start)) := by
  have hoffset : Bytes.isBoundary 12 "var x = [a, " = true := by decide +kernel
  have hsome : (Context.at? (Document.locus "var x = [a, ") "var x = [a, " 12).map
      (fun context => context.kind.isExpr) = some true := by decide +kernel
  obtain ⟨context, hcontext, hkind⟩ := Option.map_eq_some_iff.1 hsome
  have hname : Identifier.isValid "z" = true := by decide +kernel
  have hfresh : "z" ∉ contextualWords := by decide
  exact ⟨context, hoffset, hcontext, hkind, hname, hfresh,
    exists_variable_of_isExpr hoffset hcontext hkind hname hfresh⟩

/-- Inside an operator whose first character is none, an expression is offered and none can be
written. -/
theorem not_variable_inside_operator :
    ∃ context, Context.at? (Document.locus "var x = a == b") "var x = a == b" 11 = some context ∧
      context.kind = .expression false ∧
      Bytes.replace "var x = a == b" context.replacement.start context.replacement.stop " z " =
        some "var x = a = z = b" ∧
      (∀ error ∈ (Document.parse "var x = a = z = b").errors, error.cause ≠ .nestingTooDeep) ∧
      ∀ named ∈ (Document.locus "var x = a = z = b").leaves, named.text = "z" →
        ∀ parent ∈ named.parent, parent.kind ≠ .variableAccess := by
  have hsome : (Context.at? (Document.locus "var x = a == b") "var x = a == b" 11).map
      (fun context => (context.kind, context.replacement)) =
        some (.expression false, .empty 11) := by decide +kernel
  obtain ⟨context, hcontext, hpair⟩ := Option.map_eq_some_iff.1 hsome
  obtain ⟨hkind, hreplacement⟩ := Prod.mk.inj hpair
  have hreplace : Bytes.replace "var x = a == b" 11 11 " z " = some "var x = a = z = b" := by decide +kernel
  have herrors : ((Document.parse "var x = a = z = b").errors.all fun error =>
      error.cause ≠ .nestingTooDeep) = true := by decide +kernel
  have hleaves : ((Document.locus "var x = a = z = b").leaves.all fun named =>
      named.text ≠ "z" || named.parent.all fun parent => parent.kind ≠ .variableAccess) = true := by
    decide +kernel
  refine ⟨context, hcontext, hkind, ?_, by simpa using herrors, fun named hmem htext parent h => ?_⟩
  · rw [hreplacement]
    exact hreplace
  · have hnamed := List.all_eq_true.1 hleaves named hmem
    simp only [htext, ne_eq, not_true_eq_false, decide_false, Bool.false_or] at hnamed
    rw [Option.mem_def.1 h] at hnamed
    simpa using hnamed

end Caret
