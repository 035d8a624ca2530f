import Caret.Proofs.Rule.Made
import Caret.Proofs.Tree.Order
import Mathlib.Data.List.Chain

/-!
# Tokens and placeholders in a row

A placeholder is put right behind the last token that was taken, before the trivia in front of the
next one. So in the row of the tokens and placeholders of a tree, no trivia comes right behind a
placeholder.
-/

namespace Caret

namespace Tree

mutual

/-- The kinds of the tokens and placeholders of a tree in the order of the text. -/
def beads : Tree → List Kind
  | leaf kind _ => [kind]
  | node kind children => (if kind = .missing then [.missing] else []) ++ beadsAll children

def beadsAll : List Tree → List Kind
  | [] => []
  | tree :: trees => tree.beads ++ beadsAll trees

end

theorem beadsAll_append (left right : List Tree) :
    beadsAll (left ++ right) = beadsAll left ++ beadsAll right := by
  induction left with
  | nil => rfl
  | cons tree trees ih => simp [beadsAll, ih]

theorem beadsAll_map_ofToken (tokens : List Token) :
    beadsAll (tokens.map ofToken) = tokens.map Token.kind := by
  induction tokens with
  | nil => rfl
  | cons token tokens ih =>
      rw [List.map_cons, beadsAll, ih]
      rfl

theorem beadsAll_leaf (kind : Kind) (text : String) : beadsAll [leaf kind text] = [kind] := rfl

theorem beadsAll_node {kind : Kind} (hkind : kind ≠ .missing) (children : List Tree) :
    beadsAll [node kind children] = beadsAll children := by
  simp [beadsAll, beads, hkind]

end Tree

/-- Kinds in a row in which no trivia comes right behind a placeholder. -/
def Tight (kinds : List Kind) : Prop :=
  kinds.IsChain fun first second => first = .missing → second.isTrivia = false

variable {before kinds : List Kind}

theorem Tight.append_trivia (h : Tight before) (htrivia : ∀ kind ∈ kinds, kind.isTrivia = true)
    (hlast : .missing ∈ before.getLast? → kinds = []) : Tight (before ++ kinds) := by
  refine List.isChain_append.2 ⟨h, ?_, fun last hmem first hfirst hmissing => ?_⟩
  · refine (List.pairwise_of_forall_mem_list fun first hmem second _ hmissing => ?_).isChain
    have hkind := htrivia first hmem
    rw [hmissing] at hkind
    cases hkind
  · rw [hlast (hmissing ▸ hmem)] at hfirst
    cases hfirst

theorem Tight.concat (h : Tight before) {kind : Kind} (hkind : kind.isTrivia = false) :
    Tight (before ++ [kind]) := by
  refine List.isChain_append.2 ⟨h, List.isChain_singleton _, fun last _ first hfirst _ => ?_⟩
  obtain rfl : kind = first := by simpa using hfirst
  exact hkind

namespace Rule

variable {left trees : List Tree} {input rest : List Lexeme}

/-- The trees behind which nothing but trivia is still to be put are tight, and they end with a
placeholder only while there is no trivia. -/
def TightBefore (kinds : List Kind) (input : List Lexeme) : Prop :=
  Tight kinds ∧ (.missing ∈ kinds.getLast? → Clean input)

theorem TightBefore.append_lead {lead : List Token} {token : Token}
    (h : TightBefore before (⟨lead, token⟩ :: input)) (hled : Led (⟨lead, token⟩ :: input)) :
    TightBefore (before ++ lead.map Token.kind) (⟨[], token⟩ :: input) := by
  have htrivia : ∀ kind ∈ lead.map Token.kind, kind.isTrivia = true := by
    intro kind hmem
    obtain ⟨other, hother, rfl⟩ := List.mem_map.1 hmem
    exact (hled _ List.mem_cons_self).1 other hother
  refine ⟨h.1.append_trivia htrivia fun hlast => ?_, fun _ => by simp [Clean]⟩
  have hlead : lead = [] := h.2 hlast _ rfl
  rw [hlead, List.map_nil]

theorem Derives.tightBefore (h : Derives Tree.Fits left input trees rest) (hinput : Sound input) :
    TightBefore (before ++ Tree.beadsAll left) input →
      TightBefore (before ++ Tree.beadsAll trees) rest := by
  induction h generalizing before with
  | done trees input => exact id
  | settle trees lead token rest =>
      intro hleft
      rw [Tree.beadsAll_append, Tree.beadsAll_map_ofToken, ← List.append_assoc]
      exact hleft.append_lead hinput.led
  | @take trees lead token kind rest hkind hbecomes =>
      intro hleft
      have hlead := (hleft.append_lead hinput.led).1
      have htrivia : kind.isTrivia = false := by
        rw [hbecomes.isTrivia_eq]
        exact (hinput.led _ List.mem_cons_self).2
      rw [Tree.beadsAll_append, Tree.beadsAll_append, Tree.beadsAll_map_ofToken, Tree.beadsAll_leaf,
        ← List.append_assoc, ← List.append_assoc]
      refine ⟨hlead.concat htrivia, fun hlast => ?_⟩
      rw [List.getLast?_concat] at hlast
      have hmissing : Kind.Becomes token.kind .missing := Option.some.inj hlast ▸ hbecomes
      exact absurd (hmissing.eq_of_not_isWord hmissing.isWord_eq.symm).symm
        (hinput.present token List.mem_cons_self)
  | absent trees hclean =>
      intro hleft
      rw [Tree.beadsAll_append, ← List.append_assoc]
      exact ⟨hleft.1.concat rfl, fun _ => hclean⟩
  | @wrap trees left children input rest kind hderives hfits ih =>
      intro hleft
      rw [Tree.beadsAll_append, ← List.append_assoc] at hleft
      rw [Tree.beadsAll_append, Tree.beadsAll_node hfits.isNode.2.2, ← List.append_assoc]
      exact ih hinput hleft
  | trans hfirst _ ihfirst ihsecond =>
      intro hleft
      exact ihsecond (hfirst.sound hinput) (ihfirst hinput hleft)

end Rule

end Caret
