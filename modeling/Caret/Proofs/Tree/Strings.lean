import Caret.Proofs.Lexer.Constructs
import Caret.Proofs.Tree.Located

/-!
# Strings and holes in trees

In a tree of a text a string has its opening quote, parts of its text, holes, and the quote that
closes it unless the next token is no part of a string. A hole has the token that opens it, what
stands outside of strings, and the token that closes it unless the text ends. This says nothing of
the tokens in error nodes, which can close more than they open. Where they do not, each string and
each hole has the token that closes it in the text, or is open at its end.
-/

namespace Caret

/-- The kinds of what stands outside of the bodies of strings. -/
def Kind.isApart : Kind → Bool
  | stringStart | stringText | stringEnd | interpStart | interpEnd | interpolation => false
  | _ => true

namespace Construct

/-- Some tokens that close nothing but what they open, and that leave something open only at the
end of the text. -/
def Settles (kinds after : List Kind) : Prop :=
  ∃ inner, unwind [] kinds = some inner ∧ (inner ≠ [] → after = [])

variable {kinds left right after : List Kind}

theorem Balanced.settles (h : Balanced kinds) (after : List Kind) : Settles kinds after :=
  ⟨[], h, fun hne => absurd rfl hne⟩

theorem Settles.balanced (h : Settles kinds after) (hafter : after ≠ []) : Balanced kinds := by
  obtain ⟨inner, hinner, hend⟩ := h
  by_cases hne : inner = []
  · rwa [hne] at hinner
  · exact absurd (hend hne) hafter

theorem Settles.append (hleft : Settles left (right ++ after)) (hright : Settles right after) :
    Settles (left ++ right) after := by
  obtain ⟨inner, hinner, hend⟩ := hleft
  by_cases hne : inner = []
  · obtain ⟨inner', hinner', hend'⟩ := hright
    exact ⟨inner', by rw [unwind_append, hinner, hne, Option.bind_some, hinner'], hend'⟩
  · obtain ⟨rfl, hafter⟩ := List.append_eq_nil_iff.1 (hend hne)
    exact ⟨inner, by rw [List.append_nil, hinner], fun _ => hafter⟩

theorem balanced_singleton {kind : Kind} (h : kind.isApart = true ∨ kind = .stringText) :
    Balanced [kind] := by
  rcases h with h | rfl
  · cases kind <;> first | rfl | cases h
  · rfl

/-- What is opened in front of tokens is open behind them if they leave it open. -/
theorem settles_open {opening : Kind} {construct : Construct}
    (hopens : opening.opens = some construct) (h : Settles kinds []) :
    Settles (opening :: kinds) [] := by
  obtain ⟨inner, hinner, -⟩ := h
  have hnone : opening.closes = none := by
    cases opening <;> first | rfl | cases hopens
  have hframe := unwind_frame [construct] hinner
  refine ⟨inner ++ [construct], ?_, fun _ => rfl⟩
  rw [unwind, hnone, hopens]
  exact hframe

end Construct

namespace Tree

open Construct (inString Admits Settles behind)

/-- What stands in the body of a string: parts of its text and holes. Trivia is in front of every
token that the grammar takes, and only the lexer tells that there is none in a string. -/
def IsBody : Tree → Prop
  | leaf kind _ => kind.isTrivia = true ∨ kind = .stringText
  | node kind _ => kind = .interpolation

/-- The children of a string that has the given leaves behind it. -/
def IsString (children : List Tree) (after : List (Kind × String)) : Prop :=
  ∃ quote body, (∀ tree ∈ body, tree.IsBody) ∧
    ((∃ closing, children = leaf .stringStart quote :: (body ++ [leaf .stringEnd closing])) ∨
      children = leaf .stringStart quote :: body ∧ ∀ next ∈ after.head?, next.1.isBodyPart = false)

/-- The children of a hole that has the given leaves behind it. -/
def IsHole (children : List Tree) (after : List (Kind × String)) : Prop :=
  ∃ opening middle, (∀ tree ∈ middle, tree.kind.isApart = true) ∧
    ((∃ closing, children = leaf .interpStart opening :: (middle ++ [leaf .interpEnd closing])) ∨
      children = leaf .interpStart opening :: (middle ++ [node .missing []]) ∧ after = [])

/-- Whether some trees can be the children of a node with the given leaves behind it. -/
def Holds (kind : Kind) (children : List Tree) (after : List (Kind × String)) : Prop :=
  match kind with
  | .string => IsString children after
  | .interpolation => IsHole children after
  | .error => True
  | _ => ∀ tree ∈ children, tree.kind.isApart = true

mutual

/-- A tree in which strings and holes have their own tokens, with the given leaves behind it. -/
def Strung (after : List (Kind × String)) : Tree → Prop
  | leaf _ _ => True
  | node kind children => Holds kind children after ∧ StrungAll after children

def StrungAll (after : List (Kind × String)) : List Tree → Prop
  | [] => True
  | tree :: trees => tree.Strung (leavesAll trees ++ after) ∧ StrungAll after trees

end

mutual

/-- A tree whose error nodes close what they open and nothing else. -/
def Recovers : Tree → Prop
  | leaf _ _ => True
  | node kind children =>
    (kind = .error → Construct.Balanced ((leavesAll children).map Prod.fst)) ∧ RecoversAll children

def RecoversAll : List Tree → Prop
  | [] => True
  | tree :: trees => tree.Recovers ∧ RecoversAll trees

end

variable {after : List (Kind × String)} {outer : List Construct} {left right trees : List Tree}

theorem strungAll_append :
    StrungAll after (left ++ right) ↔ StrungAll (leavesAll right ++ after) left ∧
      StrungAll after right := by
  induction left with
  | nil => simp [StrungAll]
  | cons tree trees ih =>
      rw [List.cons_append, StrungAll, StrungAll, ih, leavesAll_append, List.append_assoc, and_assoc]

theorem recoversAll_append :
    RecoversAll (left ++ right) ↔ RecoversAll left ∧ RecoversAll right := by
  induction left with
  | nil => simp [RecoversAll]
  | cons tree trees ih => rw [List.cons_append, RecoversAll, RecoversAll, ih, and_assoc]

theorem strungAll_map_ofToken (after : List (Kind × String)) (tokens : List Token) :
    StrungAll after (tokens.map ofToken) := by
  induction tokens with
  | nil => trivial
  | cons token tokens ih => exact ⟨trivial, ih⟩

/-- What stands where a string or nothing but a hole is the innermost construct. -/
def Suits (outer : List Construct) (tree : Tree) : Prop :=
  if inString outer then tree.IsBody else tree.kind.isApart = true

def kinds (leaves : List (Kind × String)) : List Kind := leaves.map Prod.fst

theorem kinds_append (left right : List (Kind × String)) :
    kinds (left ++ right) = kinds left ++ kinds right := List.map_append

theorem kinds_eq_nil {leaves : List (Kind × String)} : kinds leaves = [] ↔ leaves = [] :=
  List.map_eq_nil_iff

/-- A tree that closes what it opens where it stands, unless the text ends in it. -/
def SettlesAnywhere (tree : Tree) : Prop :=
  ∀ (outer : List Construct) (after : List (Kind × String)), tree.Suits outer → tree.Strung after →
    tree.Recovers → Admits outer (kinds tree.leaves ++ kinds after) →
      Settles (kinds tree.leaves) (kinds after)

theorem settlesAll (h : ∀ tree ∈ trees, tree.SettlesAnywhere)
    (hsuits : ∀ tree ∈ trees, tree.Suits outer) (hstrung : StrungAll after trees)
    (hrecovers : RecoversAll trees)
    (hadmits : Admits outer (kinds (leavesAll trees) ++ kinds after)) :
    Settles (kinds (leavesAll trees)) (kinds after) := by
  induction trees with
  | nil => exact Construct.balanced_nil.settles _
  | cons tree trees ih =>
      obtain ⟨htree, htrees⟩ := List.forall_mem_cons.1 h
      obtain ⟨hsuit, hsuits⟩ := List.forall_mem_cons.1 hsuits
      rw [leavesAll, kinds_append, List.append_assoc] at hadmits
      have hsettles : Settles (kinds tree.leaves) (kinds (leavesAll trees) ++ kinds after) := by
        rw [← kinds_append] at hadmits ⊢
        exact htree outer _ hsuit hstrung.1 hrecovers.1 hadmits
      rw [leavesAll, kinds_append]
      refine hsettles.append ?_
      by_cases hmore : kinds (leavesAll trees) ++ kinds after = []
      · rw [(List.append_eq_nil_iff.1 hmore).1]
        exact Construct.balanced_nil.settles _
      · have hbehind := Construct.behind_frame outer (hsettles.balanced hmore)
        rw [Construct.admits_append, ← List.nil_append outer, hbehind] at hadmits
        exact ih htrees hsuits hstrung.2 hrecovers.2 hadmits.2

/-- Trees between a token that opens something and the one that closes it. -/
def Closed (opening closing : Kind) (children : List Tree) : Prop :=
  ∃ first middle last, children = leaf opening first :: (middle ++ [leaf closing last]) ∧
    Construct.Balanced (kinds (leavesAll middle))

/-- Trees behind a token that opens something that the rest of them does not close. -/
def Open (opening : Kind) (children : List Tree) : Prop :=
  ∃ first rest, leavesAll children = (opening, first) :: rest ∧ Settles (kinds rest) []

theorem leavesAll_between (opening closing : Kind) (first last : String) (middle : List Tree) :
    kinds (leavesAll (leaf opening first :: (middle ++ [leaf closing last]))) =
      opening :: (kinds (leavesAll middle) ++ [closing]) := by
  simp [kinds, leavesAll, leaves, leavesAll_append]

theorem Closed.settles {opening closing : Kind} {construct : Construct} {children : List Tree}
    (h : Closed opening closing children) (hopens : opening.opens = some construct)
    (hcloses : closing.closes = some construct) (after : List Kind) :
    Settles (kinds (leavesAll children)) after := by
  obtain ⟨first, middle, last, rfl, hbalanced⟩ := h
  rw [leavesAll_between]
  exact (Construct.balanced_between hopens hcloses hbalanced).settles after

theorem Open.settles {opening : Kind} {construct : Construct} {children : List Tree}
    (h : Open opening children) (hopens : opening.opens = some construct) :
    Settles (kinds (leavesAll children)) [] := by
  obtain ⟨first, rest, hleaves, hsettles⟩ := h
  rw [hleaves]
  exact Construct.settles_open hopens hsettles

/-- What is opened is closed by the last of the trees, or the text ends. -/
theorem closed_or_open {opening closing : Kind} {construct : Construct} {first : String}
    {middle tail : List Tree} (hopens : opening.opens = some construct)
    (h : ∀ tree ∈ middle, tree.SettlesAnywhere)
    (hsuits : ∀ tree ∈ middle, tree.Suits (construct :: outer))
    (hstrung : StrungAll (leavesAll tail ++ after) middle) (hrecovers : RecoversAll middle)
    (hadmits : Admits outer
      (kinds (leavesAll (leaf opening first :: (middle ++ tail))) ++ kinds after))
    (htail : (∃ last, tail = [leaf closing last]) ∨
      leavesAll tail = [] ∧ (Admits (construct :: outer) (kinds after) → after = [])) :
    Closed opening closing (leaf opening first :: (middle ++ tail)) ∨
      Open opening (leaf opening first :: (middle ++ tail)) ∧ after = [] := by
  have hleaves : kinds (leavesAll (leaf opening first :: (middle ++ tail))) =
      opening :: (kinds (leavesAll middle) ++ kinds (leavesAll tail)) := by
    simp [kinds, leavesAll, leaves, leavesAll_append]
  have hopen : opening.leavesOpen outer = construct :: outer := by
    cases opening <;> cases hopens <;> rfl
  rw [hleaves, List.cons_append, List.append_assoc, ← kinds_append] at hadmits
  have hadmits := hadmits.2
  rw [hopen] at hadmits
  have hsettles := settlesAll h hsuits hstrung hrecovers hadmits
  rcases htail with ⟨last, rfl⟩ | ⟨hnone, hend⟩
  · exact .inl ⟨first, middle, last, rfl, hsettles.balanced (by simp [kinds, leavesAll, leaves])⟩
  · rw [hnone, List.nil_append] at hsettles hadmits
    have hafter : after = [] := by
      by_contra hne
      have hbalanced := hsettles.balanced (kinds_eq_nil.not.2 hne)
      have hbehind := Construct.behind_frame (construct :: outer) hbalanced
      rw [Construct.admits_append, ← List.nil_append (construct :: outer), hbehind] at hadmits
      exact hne (hend hadmits.2)
    rw [hafter] at hsettles
    refine .inr ⟨⟨first, leavesAll middle, ?_, hsettles⟩, hafter⟩
    rw [leavesAll, leavesAll_append, hnone, List.append_nil]
    rfl

theorem closed_or_open_string {children : List Tree} (h : ∀ tree ∈ children, tree.SettlesAnywhere)
    (hchildren : IsString children after) (hstrung : StrungAll after children)
    (hrecovers : RecoversAll children)
    (hadmits : Admits outer (kinds (leavesAll children) ++ kinds after)) :
    Closed .stringStart .stringEnd children ∨ Open .stringStart children ∧ after = [] := by
  obtain ⟨quote, body, hbody, hchildren⟩ := hchildren
  obtain ⟨tail, rfl, htail⟩ : ∃ tail, children = leaf .stringStart quote :: (body ++ tail) ∧
      ((∃ closing, tail = [leaf .stringEnd closing]) ∨
        tail = [] ∧ ∀ next ∈ after.head?, next.1.isBodyPart = false) := by
    rcases hchildren with ⟨closing, rfl⟩ | ⟨rfl, hnext⟩
    · exact ⟨_, rfl, .inl ⟨closing, rfl⟩⟩
    · exact ⟨[], by simp, .inr ⟨rfl, hnext⟩⟩
  refine closed_or_open rfl (fun tree hmem => h tree (by simp [hmem])) ?_
    (strungAll_append.1 hstrung.2).1 (recoversAll_append.1 hrecovers.2).1 hadmits ?_
  · exact fun tree hmem => hbody tree hmem
  · rcases htail with hclosing | ⟨rfl, hnext⟩
    · exact .inl hclosing
    · refine .inr ⟨rfl, fun hbody => ?_⟩
      cases after with
      | nil => rfl
      | cons next after =>
          have hpart : next.1.isBodyPart = true := hbody.1
          rw [hnext next rfl] at hpart
          cases hpart

theorem closed_or_open_hole {children : List Tree} (h : ∀ tree ∈ children, tree.SettlesAnywhere)
    (hchildren : IsHole children after) (hstrung : StrungAll after children)
    (hrecovers : RecoversAll children)
    (hadmits : Admits outer (kinds (leavesAll children) ++ kinds after)) :
    Closed .interpStart .interpEnd children ∨ Open .interpStart children ∧ after = [] := by
  obtain ⟨opening, middle, hmiddle, hchildren⟩ := hchildren
  obtain ⟨tail, rfl, htail⟩ : ∃ tail, children = leaf .interpStart opening :: (middle ++ tail) ∧
      ((∃ closing, tail = [leaf .interpEnd closing]) ∨ leavesAll tail = [] ∧ after = []) := by
    rcases hchildren with ⟨closing, rfl⟩ | ⟨rfl, hafter⟩
    · exact ⟨_, rfl, .inl ⟨closing, rfl⟩⟩
    · exact ⟨_, rfl, .inr ⟨rfl, hafter⟩⟩
  refine closed_or_open rfl (fun tree hmem => h tree (by simp [hmem])) ?_
    (strungAll_append.1 hstrung.2).1 (recoversAll_append.1 hrecovers.2).1 hadmits ?_
  · exact fun tree hmem => hmiddle tree hmem
  · exact htail.imp id fun htail => ⟨htail.1, fun _ => htail.2⟩

/-- In a text in which errors close what they open, so does every tree, unless the text ends. -/
theorem settlesAnywhere : ∀ tree : Tree, tree.SettlesAnywhere
  | leaf kind text => by
      intro outer after hsuits hstrung hrecovers hadmits
      refine (Construct.balanced_singleton ?_).settles _
      unfold Suits at hsuits
      split at hsuits
      · rcases hsuits with htrivia | rfl
        · left
          cases kind <;> first | rfl | cases htrivia
        · exact .inr rfl
      · exact .inl hsuits
  | node kind children => by
      intro outer after hsuits hstrung hrecovers hadmits
      have ih : ∀ tree ∈ children, tree.SettlesAnywhere := fun tree hmem => settlesAnywhere tree
      obtain ⟨hholds, hstrung⟩ := hstrung
      obtain ⟨herror, hrecovers⟩ := hrecovers
      rw [leaves] at hadmits ⊢
      unfold Holds at hholds
      split at hholds
      · rcases closed_or_open_string ih hholds hstrung hrecovers hadmits with h | ⟨h, rfl⟩
        · exact h.settles rfl rfl _
        · exact h.settles rfl
      · rcases closed_or_open_hole ih hholds hstrung hrecovers hadmits with h | ⟨h, rfl⟩
        · exact h.settles rfl rfl _
        · exact h.settles rfl
      · exact (herror rfl).settles _
      · refine settlesAll ih ?_ hstrung hrecovers hadmits
        rename_i hne _
        have hcode : inString outer = false := by
          by_contra hstring
          rw [Bool.not_eq_false] at hstring
          rw [Suits, if_pos hstring] at hsuits
          exact hne hsuits
        intro tree hmem
        rw [Suits, hcode]
        exact hholds tree hmem

end Tree

end Caret
