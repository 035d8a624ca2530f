import Caret.Proofs.Context.Behind
import Caret.Proofs.Context.Keys
import Caret.Proofs.Document.Forks

/-!
# Writing a key where one is offered

A name with a colon and a value behind it, put in place of what the completion of a key replaces,
becomes a property of the object that the key is offered for. The text in front of the cursor is
read as before, and what comes behind it does not matter.
-/

namespace Caret

namespace Document

variable {text inserted name : String} {offset start : Nat} {last object : Locus}
  {context : Context}

/-- Code goes on behind a token that a key can come behind, and the cursor is inside it only where
it is a newline. -/
theorem exists_behind_of_propertyKey
    (hcontext : Context.at? (locus text) text offset = some context)
    (hkind : context.kind = .propertyKey) :
    ∃ last, Behind text offset context.replacement last ∧ last.kind.precedesKey = true ∧
      last ∈ context.node.children := by
  obtain ⟨last, honLine, hlast, hchild, -, -, hreplacement⟩ :=
    exists_token_of_propertyKey hcontext hkind
  obtain ⟨hmem, htrivia, hstart, hfront, hbetween⟩ := of_beforeOnLine honLine
  have hshape : Lexer.endsInCode last.kind = true ∧ last.kind.precedesKey = true ∧
      (last.kind.isSign = true ∨ last.kind.splits = true) := by
    rcases hlast with hkind | hkind | hkind <;> rw [hkind] <;> decide
  obtain ⟨hcode, hprecedes, hwhole⟩ := hshape
  rw [hreplacement]
  exact ⟨last, ⟨hmem, htrivia, hcode, hstart, hfront, hbetween, replaced_cases text offset,
    isCommentAt_of_context hcontext, hwhole.imp id .inl⟩, hprecedes, hchild⟩

/-- An object with the token in front of a name has a counterpart with the name as a key. -/
theorem Joint.exists_object (joint : Joint text inserted name offset start last)
    (hfresh : name ∉ contextualWords) (hprecedes : last.kind.precedesKey = true)
    (hobject : Locus.Under (locus text) object) (hkind : object.kind = .object)
    (hchild : last ∈ object.children) :
    ∃ object', Locus.Under (locus inserted) object' ∧ object'.kind = .object ∧
      object'.span.start = object.span.start ∧ object'.HasKeyAt name (start + 1) := by
  have hlast : last ∈ (locus text).leaves := by simp [joint.leaves]
  have hword : last.kind.isWord = false := by
    cases hlast : last.kind <;> rw [hlast] at hprecedes <;> first | rfl | cases hprecedes
  have hpart : joint.part.1 = last.kind := joint.takes.kind_eq hword
  have hsame : joint.part.1 = joint.part'.1 := by
    rcases joint.whole_or_half with hwhole | ⟨-, hhalf, -⟩
    · rw [hwhole]
    · rw [hhalf, hpart]
      cases hlast : last.kind <;> rw [hlast] at hprecedes <;> first | rfl | cases hprecedes
  obtain ⟨hbefore, hbehind⟩ := size_of_leaves joint.leaves joint.takes_left joint.takes
  have hne : joint.part.2 ≠ "" := by
    intro hempty
    have hlt := start_lt_stop hlast
    rw [hbefore, hbehind, hempty] at hlt
    simp at hlt
  have hgains := gains_parse hfresh joint.parts joint.parts' joint.gap_trivia hsame
    (by rwa [hpart]) hne
  rw [← hbefore] at hgains
  obtain ⟨object', hunder, hkind', hstart, hkey⟩ := exists_object_of_gains hgains hobject hkind
    hchild hlast (Kind.not_isTrivia_of_precedesKey hprecedes)
  have hplace : last.span.start + (String.ofList (Lexer.spelling
      (joint.part' :: joint.gap))).utf8ByteSize = start + 1 := by
    rw [hbefore, ← joint.size, ← Bytes.utf8ByteSize_append]
    simp [Lexer.spelling]
  exact ⟨object', hunder, hkind', hstart, hplace ▸ hkey⟩

end Document

/-- A property with a name for its key that is put in place of what the completion of a key replaces
becomes one of the object that the key is offered for: in the tree of the new text an object that
starts at the same byte has it. It can be put there unless the offset is inside a character. -/
theorem exists_object_of_propertyKey {text name : String} {offset : Nat} {context : Context}
    (hcontext : Context.at? (Document.locus text) text offset = some context)
    (hkind : context.kind = .propertyKey) (hname : Identifier.isValid name = true)
    (hfresh : name ∉ contextualWords) :
    (Bytes.isBoundary offset text = true → ∃ inserted, Bytes.replace text context.replacement.start
        context.replacement.stop (" " ++ name ++ ": 0 ") = some inserted) ∧
      ∀ inserted, Bytes.replace text context.replacement.start context.replacement.stop
          (" " ++ name ++ ": 0 ") = some inserted →
        ∃ object, Locus.Under (Document.locus inserted) object ∧ object.kind = .object ∧
          object.span.start = context.node.span.start ∧
          object.HasKeyAt name (context.replacement.start + 1) := by
  obtain ⟨last, hbehind, hprecedes, hchild⟩ := Document.exists_behind_of_propertyKey hcontext hkind
  obtain ⟨hobject, hobjectKind, -⟩ := Document.object_of_propertyKey hcontext hkind
  refine ⟨fun hoffset => hbehind.exists_replace hoffset _, fun inserted hreplace => ?_⟩
  obtain ⟨joint⟩ := hbehind.joint_of_replace hname (rfl : ": 0 ".toList = [':', ' ', '0', ' '])
    (by decide) hreplace
  exact joint.exists_object hfresh hprecedes hobject hobjectKind hchild

/-- With the cursor in the keyword of the declaration behind it, an object that is not closed gets a
key. -/
theorem exists_object_above_param :
    ∃ context, Context.at? (Document.locus "var o = \x7b\nparam x int")
        "var o = \x7b\nparam x int" 12 = some context ∧
      context.kind = .propertyKey ∧ Identifier.isValid "z" = true ∧ "z" ∉ contextualWords ∧
      Bytes.replace "var o = \x7b\nparam x int" context.replacement.start context.replacement.stop
        (" " ++ "z" ++ ": 0 ") = some "var o = \x7b\n z: 0  x int" ∧
      ∃ object, Locus.Under (Document.locus "var o = \x7b\n z: 0  x int") object ∧
        object.kind = .object ∧ object.span.start = 8 ∧ object.HasKeyAt "z" 11 := by
  have hname : Identifier.isValid "z" = true := by decide +kernel
  have hfresh : "z" ∉ contextualWords := by decide
  have hsome : (Context.at? (Document.locus "var o = \x7b\nparam x int") "var o = \x7b\nparam x int"
      12).map (fun context => (context.kind, context.replacement, context.node.span.start)) =
        some (.propertyKey, ⟨10, 15⟩, 8) := by decide +kernel
  obtain ⟨context, hcontext, heq⟩ := Option.map_eq_some_iff.1 hsome
  simp only [Prod.mk.injEq] at heq
  obtain ⟨hkind, hreplacement, hstart⟩ := heq
  have hreplace : Bytes.replace "var o = \x7b\nparam x int" context.replacement.start
      context.replacement.stop (" " ++ "z" ++ ": 0 ") = some "var o = \x7b\n z: 0  x int" := by
    rw [hreplacement]
    decide +kernel
  obtain ⟨object, hunder, hobject, hspan, hkey⟩ :=
    (exists_object_of_propertyKey hcontext hkind hname hfresh).2 _ hreplace
  rw [hstart] at hspan
  rw [hreplacement] at hkey
  exact ⟨context, hcontext, hkind, hname, hfresh, hreplace, object, hunder, hobject, hspan, hkey⟩

end Caret
