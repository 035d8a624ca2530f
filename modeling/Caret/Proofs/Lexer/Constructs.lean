import Caret.Proofs.Lexer.Lengths

/-!
# Strings and holes in the tokens

The kinds of the tokens alone tell which strings and holes are open between them. The characters
that are still to be cut and the braces in a hole do not matter: behind each token as many strings
and holes are open as the lexer keeps, and a token is a part of the body of a string exactly if a
string is the innermost of them.

Tokens are balanced if each of them that closes a string or a hole closes one that they have opened,
and none is left open. A token that closes what one before it opened is then known by the balanced
tokens between the two.
-/

namespace Caret

/-- What can be open between tokens. -/
inductive Construct where
  | string
  | hole
  deriving DecidableEq, Repr

namespace Kind

/-- The tokens that are cut in the body of a string. -/
def isBodyPart : Kind → Bool
  | stringText | stringEnd | interpStart => true
  | _ => false

/-- What a token opens. -/
def opens : Kind → Option Construct
  | stringStart => some .string
  | interpStart => some .hole
  | _ => none

/-- What a token closes. -/
def closes : Kind → Option Construct
  | stringEnd => some .string
  | interpEnd => some .hole
  | _ => none

/-- What is open behind a token with something open in front of it, the innermost first. -/
def leavesOpen (kind : Kind) (outer : List Construct) : List Construct :=
  match kind.closes with
  | some _ => outer.tail
  | none => kind.opens.toList ++ outer

theorem leavesOpen_of_none {kind : Kind} (hcloses : kind.closes = none) (hopens : kind.opens = none)
    (outer : List Construct) : kind.leavesOpen outer = outer := by
  rw [leavesOpen, hcloses, hopens]
  rfl

end Kind

namespace Construct

def inString (outer : List Construct) : Bool := outer.head? = some .string

/-- Whether tokens can follow where something is open: those in the body of a string are parts of
it, and all others are not. -/
def Admits : List Construct → List Kind → Prop
  | _, [] => True
  | outer, kind :: kinds => kind.isBodyPart = inString outer ∧ Admits (kind.leavesOpen outer) kinds

/-- What some tokens leave open. -/
def behind (outer : List Construct) (kinds : List Kind) : List Construct :=
  kinds.foldl (fun outer kind => kind.leavesOpen outer) outer

/-- What some tokens leave open of what they open, unless they close anything else. -/
def unwind : List Construct → List Kind → Option (List Construct)
  | outer, [] => some outer
  | outer, kind :: kinds =>
    match kind.closes with
    | some construct => if outer.head? = some construct then unwind outer.tail kinds else none
    | none => unwind (kind.opens.toList ++ outer) kinds

/-- Tokens that close what they open and nothing else. -/
def Balanced (kinds : List Kind) : Prop := unwind [] kinds = some []

instance (kinds : List Kind) : Decidable (Balanced kinds) := inferInstanceAs (Decidable (_ = _))

variable {outer inner : List Construct} {kind : Kind} {left right kinds : List Kind}

theorem behind_append (outer : List Construct) (left right : List Kind) :
    behind outer (left ++ right) = behind (behind outer left) right := List.foldl_append

theorem admits_append :
    Admits outer (left ++ right) ↔ Admits outer left ∧ Admits (behind outer left) right := by
  induction left generalizing outer with
  | nil => simp [Admits, behind]
  | cons kind kinds ih => simp [Admits, ih, behind, and_assoc]

theorem unwind_append (outer : List Construct) (left right : List Kind) :
    unwind outer (left ++ right) = (unwind outer left).bind fun inner => unwind inner right := by
  induction left generalizing outer with
  | nil => rfl
  | cons kind kinds ih =>
      rw [List.cons_append, unwind, unwind]
      split
      · split
        · exact ih _
        · rfl
      · exact ih _

/-- What is open around the tokens stays open. -/
theorem unwind_frame (more : List Construct) (h : unwind outer kinds = some inner) :
    unwind (outer ++ more) kinds = some (inner ++ more) := by
  induction kinds generalizing outer with
  | nil =>
      obtain rfl : outer = inner := by simpa [unwind] using h
      rfl
  | cons kind kinds ih =>
      rw [unwind] at h ⊢
      split at h
      · split at h
        · rename_i construct hcloses hhead
          obtain ⟨outer, rfl⟩ := List.head?_eq_some_iff.1 hhead
          rw [List.cons_append, List.head?_cons, if_pos rfl]
          exact ih h
        · cases h
      · rw [← List.append_assoc]
        exact ih h

/-- What is opened and not closed is open behind the tokens. -/
theorem behind_of_unwind (h : unwind outer kinds = some inner) : behind outer kinds = inner := by
  induction kinds generalizing outer with
  | nil => simpa [unwind, behind] using h
  | cons kind kinds ih =>
      have hopen : behind outer (kind :: kinds) = behind (kind.leavesOpen outer) kinds := rfl
      rw [unwind] at h
      rw [hopen, Kind.leavesOpen]
      split at h
      · split at h
        · exact ih h
        · cases h
      · exact ih h

theorem behind_frame (more : List Construct) (h : unwind outer kinds = some inner) :
    behind (outer ++ more) kinds = inner ++ more := behind_of_unwind (unwind_frame more h)

theorem balanced_nil : Balanced [] := rfl

theorem Balanced.append (hleft : Balanced left) (hright : Balanced right) :
    Balanced (left ++ right) := by
  rw [Balanced, unwind_append, hleft, Option.bind_some]
  exact hright

/-- What balanced tokens stand between is opened and closed. -/
theorem balanced_between {opening closing : Kind} {construct : Construct}
    (hopens : opening.opens = some construct) (hcloses : closing.closes = some construct)
    (h : Balanced kinds) : Balanced (opening :: (kinds ++ [closing])) := by
  have hnone : opening.closes = none := by
    cases opening <;> first | rfl | cases hopens
  have hinner := unwind_frame [construct] h
  rw [Balanced, unwind, hnone, hopens]
  change unwind ([] ++ [construct]) (kinds ++ [closing]) = some []
  rw [unwind_append, hinner, Option.bind_some, unwind, hcloses]
  simp [unwind]

/-- Balanced tokens have no token that closes anything else behind them. -/
theorem Balanced.unwind_cons (h : Balanced kinds) (hcloses : kind.closes.isSome = true)
    (rest : List Kind) : unwind [] (kinds ++ kind :: rest) = none := by
  obtain ⟨construct, hconstruct⟩ := Option.isSome_iff_exists.1 hcloses
  rw [unwind_append, h, Option.bind_some, unwind, hconstruct]
  rfl

/-- What closes the construct that balanced tokens stand in is the first token that does. -/
theorem Balanced.eq_of_append_cons {kind' : Kind} {rest rest' : List Kind} (hleft : Balanced left)
    (hright : Balanced right) (hcloses : kind.closes.isSome = true)
    (hcloses' : kind'.closes.isSome = true) (h : left ++ kind :: rest = right ++ kind' :: rest') :
    left = right := by
  rcases List.append_eq_append_iff.1 h with ⟨middle, rfl, hmiddle⟩ | ⟨middle, rfl, hmiddle⟩
  · cases middle with
    | nil => simp
    | cons first middle =>
        obtain rfl : kind = first := (List.cons.inj hmiddle).1
        rw [Balanced, hleft.unwind_cons hcloses] at hright
        cases hright
  · cases middle with
    | nil => simp
    | cons first middle =>
        obtain rfl : kind' = first := (List.cons.inj hmiddle).1
        rw [Balanced, hright.unwind_cons hcloses'] at hleft
        cases hleft

end Construct

namespace Lexer

open Construct (inString Admits behind)

def Mode.construct : Mode → Construct
  | .body _ => .string
  | .hole _ => .hole

theorem inString_map_construct (modes : List Mode) :
    inString (modes.map Mode.construct) = isInBody modes := by
  rcases modes with - | ⟨mode, modes⟩
  · rfl
  · cases mode <;> rfl

theorem construct_openBrace (modes : List Mode) :
    (openBrace modes).map Mode.construct = modes.map Mode.construct := by
  unfold openBrace
  split <;> rfl

variable {modes : List Mode} {c : Char} {cs : List Char} {next : Cut}

theorem CodeCut.construct (h : CodeCut modes c cs next) :
    next.modes.map Mode.construct = next.kind.leavesOpen (modes.map Mode.construct) := by
  cases h with
  | symbol h =>
      obtain ⟨hcloses, hopens⟩ := (by decide : ∀ kind ∈ symbolKinds,
        kind.closes = none ∧ kind.opens = none) _ h.mem_symbolKinds
      exact (Kind.leavesOpen_of_none hcloses hopens _).symm
  | word =>
      obtain ⟨hcloses, hopens⟩ := (by decide : ∀ kind ∈ wordKinds,
        kind.closes = none ∧ kind.opens = none) _ (mem_wordKinds _)
      exact (Kind.leavesOpen_of_none hcloses hopens _).symm
  | openBrace => exact construct_openBrace modes
  | _ => rfl

/-- What a token leaves open is told by its kind. -/
theorem TokenCut.construct (h : TokenCut modes c cs next) :
    next.modes.map Mode.construct = next.kind.leavesOpen (modes.map Mode.construct) := by
  cases h with
  | body h => cases h <;> rfl
  | code _ h => exact h.construct

theorem CodeCut.isBodyPart (h : CodeCut modes c cs next) : next.kind.isBodyPart = false := by
  cases h with
  | symbol h =>
      exact (by decide : ∀ kind ∈ symbolKinds, kind.isBodyPart = false) _ h.mem_symbolKinds
  | word => exact (by decide : ∀ kind ∈ wordKinds, kind.isBodyPart = false) _ (mem_wordKinds _)
  | _ => rfl

theorem TokenCut.isBodyPart (h : TokenCut modes c cs next) :
    next.kind.isBodyPart = isInBody modes := by
  cases h with
  | body h => cases h <;> rfl
  | code hcode h => rw [h.isBodyPart, hcode]

/-- Tokens follow each other as strings and holes ask for it. -/
theorem admits_scan (modes : List Mode) (start : Nat) (cs : List Char) :
    Admits (modes.map Mode.construct) ((scan modes start cs).1.map Token.kind) := by
  fun_induction scan modes start cs with
  | case1 => trivial
  | case2 modes start c cs next text after ih =>
      refine ⟨?_, ?_⟩
      · rw [inString_map_construct]
        exact (tokenCut modes c cs).isBodyPart
      · rw [← (tokenCut modes c cs).construct]
        exact ih

/-- What some tokens leave open is what the lexer keeps once they are cut. -/
theorem construct_openAfter (modes : List Mode) (start : Nat) (cs : List Char) (count : Nat) :
    (openAfter modes count cs).map Mode.construct =
      behind (modes.map Mode.construct) (((scan modes start cs).1.take count).map Token.kind) := by
  fun_induction scan modes start cs generalizing count with
  | case1 => cases count <;> rfl
  | case2 modes start c cs next text after ih =>
      cases count with
      | zero => rfl
      | succ count =>
          rw [openAfter, ih, (tokenCut modes c cs).construct]
          rfl

/-- What all tokens leave open is told by their kinds. -/
theorem construct_scan (modes : List Mode) (start : Nat) (cs : List Char) :
    (scan modes start cs).2.map Mode.construct =
      behind (modes.map Mode.construct) ((scan modes start cs).1.map Token.kind) := by
  fun_induction scan modes start cs with
  | case1 => rfl
  | case2 modes start c cs next text after ih =>
      rw [List.map_cons, behind, List.foldl_cons, ← (tokenCut modes c cs).construct]
      exact ih

end Lexer

end Caret
