import Caret.Completion
import Caret.Proofs.Text.Quoted

/-!
# Tab stops

A dollar sign in a snippet starts a tab stop unless an odd number of backslashes stands right in
front of it. A key that is written down has no tab stop, as each dollar sign in it is escaped, and it
hides none behind it, as its backslashes come in pairs with what they escape. So a skeleton has the
tab stops that are put into it and no others.
-/

namespace Caret

namespace Snippet

/-- The digits of each tab stop, and the characters that are in none. The number counts the
backslashes that stand right in front, and the flag says whether the digits of a tab stop go on. -/
def scan (backslashes : Nat) (inStop : Bool) : List Char → List String × List Char
  | [] => ([], [])
  | c :: cs =>
    if c = '$' && backslashes % 2 = 0 then
      let (stops, kept) := scan 0 true cs
      (String.ofList (cs.takeWhile Char.isDigit) :: stops, kept)
    else
      let goesOn := inStop && c.isDigit
      let (stops, kept) := scan (if c = '\\' then backslashes + 1 else 0) goesOn cs
      (stops, if goesOn then kept else c :: kept)

def tabStops (snippet : String) : List String := (scan 0 false snippet.toList).1

/-- A snippet with its tab stops left out. -/
def withoutStops (snippet : String) : String := String.ofList (scan 0 false snippet.toList).2

variable {cs left right digits rest : List Char} {c : Char} {backslashes : Nat} {inStop : Bool}

/-- Only the parity of the backslashes counts. -/
theorem scan_add_two (backslashes : Nat) (inStop : Bool) (cs : List Char) :
    scan (backslashes + 2) inStop cs = scan backslashes inStop cs := by
  induction cs generalizing backslashes inStop with
  | nil => rfl
  | cons c cs ih =>
      have hstep : scan (if c = '\\' then backslashes + 2 + 1 else 0) (inStop && c.isDigit) cs =
          scan (if c = '\\' then backslashes + 1 else 0) (inStop && c.isDigit) cs := by
        by_cases hbackslash : c = '\\'
        · rw [if_pos hbackslash, if_pos hbackslash]
          exact ih (backslashes + 1) _
        · rw [if_neg hbackslash, if_neg hbackslash]
      simp only [scan, Nat.add_mod_right, hstep]

/-- A character that starts no tab stop is kept. -/
theorem scan_cons_kept (h : c ≠ '$' ∨ backslashes % 2 = 1) (cs : List Char) :
    scan backslashes false (c :: cs) =
      ((scan (if c = '\\' then backslashes + 1 else 0) false cs).1,
        c :: (scan (if c = '\\' then backslashes + 1 else 0) false cs).2) := by
  have hplain : ¬(c = '$' && backslashes % 2 = 0) = true := by
    rw [Bool.and_eq_true, decide_eq_true_eq, decide_eq_true_eq]
    rintro ⟨hdollar, heven⟩
    rcases h with hne | hodd
    · exact hne hdollar
    · omega
  rw [scan, if_neg hplain]
  rfl

/-! ### Texts without tab stops -/

/-- Characters with no tab stop that leave those behind them as they are. -/
def IsPlain (cs : List Char) : Prop :=
  ∀ rest, scan 0 false (cs ++ rest) = ((scan 0 false rest).1, cs ++ (scan 0 false rest).2)

theorem isPlain_nil : IsPlain [] := fun _ => rfl

theorem IsPlain.append (hleft : IsPlain left) (hright : IsPlain right) :
    IsPlain (left ++ right) := by
  intro rest
  rw [List.append_assoc, hleft, hright, List.append_assoc]

theorem isPlain_singleton (hdollar : c ≠ '$') (hbackslash : c ≠ '\\') : IsPlain [c] := by
  intro rest
  rw [List.singleton_append, scan_cons_kept (Or.inl hdollar), if_neg hbackslash]
  rfl

theorem isPlain_of_forall (h : ∀ c ∈ cs, c ≠ '$' ∧ c ≠ '\\') : IsPlain cs := by
  induction cs with
  | nil => exact isPlain_nil
  | cons c cs ih =>
      obtain ⟨hc, hcs⟩ := List.forall_mem_cons.1 h
      exact (isPlain_singleton hc.1 hc.2).append (ih hcs)

/-- A backslash and the character that it escapes. -/
theorem isPlain_pair (c : Char) : IsPlain ['\\', c] := by
  intro rest
  have hscan : scan (if c = '\\' then 0 + 1 + 1 else 0) false rest = scan 0 false rest := by
    by_cases hbackslash : c = '\\'
    · rw [if_pos hbackslash]
      exact scan_add_two 0 false rest
    · rw [if_neg hbackslash]
  rw [List.cons_append, List.singleton_append, scan_cons_kept (Or.inl (by decide)), if_pos rfl,
    scan_cons_kept (Or.inr rfl), hscan]
  rfl

theorem isPlain_escape (c : Char) : IsPlain (Quoted.escape c) := by
  rcases Quoted.escape_cases c with ⟨hescape, hbackslash, -, hdollar⟩ | ⟨d, hescape, -⟩
  · rw [hescape]
    exact isPlain_singleton hdollar hbackslash
  · rw [hescape]
    exact isPlain_pair d

theorem isPlain_flatMap_escape (cs : List Char) : IsPlain (cs.flatMap Quoted.escape) := by
  induction cs with
  | nil => exact isPlain_nil
  | cons c cs ih => exact (isPlain_escape c).append ih

theorem isPlain_quote (text : String) : IsPlain (quote text).toList := by
  have hquote : IsPlain ['\x27'] := isPlain_singleton (by decide) (by decide)
  have hbody : IsPlain (Quoted.body text).toList := by
    rw [Quoted.body, String.toList_ofList]
    exact isPlain_flatMap_escape _
  rw [Quoted.toList_quote]
  exact hquote.append (hbody.append hquote)

theorem isPlain_of_isValid {name : String} (h : Identifier.isValid name = true) :
    IsPlain name.toList := by
  have hplain : ∀ c, Identifier.continuesWith c = true → c ≠ '$' ∧ c ≠ '\\' := by
    intro c hc
    constructor
    · rintro rfl
      cases hc
    · rintro rfl
      cases hc
  unfold Identifier.isValid at h
  rw [Bool.and_eq_true] at h
  cases hlist : name.toList with
  | nil => exact isPlain_nil
  | cons c cs =>
      have hchars := h.1
      rw [hlist] at hchars
      obtain ⟨hfirst, hmore⟩ := Bool.and_eq_true_iff.1 hchars
      rw [List.all_eq_true] at hmore
      apply isPlain_of_forall
      exact List.forall_mem_cons.2
        ⟨hplain c (Identifier.continuesWith_of_startsWith hfirst), fun d hd => hplain d (hmore d hd)⟩

theorem isPlain_keyText (name : String) : IsPlain (keyText name).toList := by
  unfold keyText
  by_cases hvalid : Identifier.isValid name = true
  · rw [if_pos hvalid]
    exact isPlain_of_isValid hvalid
  · rw [if_neg hvalid]
    exact isPlain_quote name

/-! ### Numbered tab stops -/

theorem scan_digits (hdigits : ∀ c ∈ digits, c.isDigit = true)
    (hrest : ∀ c ∈ rest.head?, c.isDigit = false) :
    scan 0 true (digits ++ rest) = scan 0 false rest := by
  induction digits with
  | nil =>
      cases rest with
      | nil => rfl
      | cons c cs =>
          have hdigit : c.isDigit = false := hrest c rfl
          rw [List.nil_append, scan, scan, hdigit, Bool.and_false, Bool.and_false]
  | cons c digits ih =>
      obtain ⟨hc, hmore⟩ := List.forall_mem_cons.1 hdigits
      have hdollar : c ≠ '$' := fun hsame => by
        rw [hsame] at hc
        cases hc
      have hbackslash : c ≠ '\\' := fun hsame => by
        rw [hsame] at hc
        cases hc
      have hplain : ¬(c = '$' && 0 % 2 = 0) = true := by simp [hdollar]
      rw [List.cons_append, scan, if_neg hplain, if_neg hbackslash, Bool.true_and, hc]
      dsimp only
      rw [if_pos rfl, ih hmore]

/-- A dollar sign and the digits behind it are a tab stop. -/
theorem scan_stop (hdigits : ∀ c ∈ digits, c.isDigit = true)
    (hrest : ∀ c ∈ rest.head?, c.isDigit = false) :
    scan 0 false ('$' :: (digits ++ rest)) =
      (String.ofList digits :: (scan 0 false rest).1, (scan 0 false rest).2) := by
  have htake : (digits ++ rest).takeWhile Char.isDigit = digits := by
    rw [List.takeWhile_append_of_pos hdigits]
    cases rest with
    | nil => exact List.append_nil _
    | cons c cs =>
        rw [List.takeWhile_cons_of_neg (by simp [hrest c rfl]), List.append_nil]
  rw [scan, if_pos (by decide), scan_digits hdigits hrest, htake]

theorem scan_number (stop : Nat) (hrest : ∀ c ∈ rest.head?, c.isDigit = false) :
    scan 0 false ('$' :: ((toString stop).toList ++ rest)) =
      (toString stop :: (scan 0 false rest).1, (scan 0 false rest).2) := by
  have hdigits : ∀ c ∈ (toString stop).toList, c.isDigit = true := by
    intro c hc
    change c ∈ stop.repr.toList at hc
    rw [Nat.toList_repr] at hc
    exact Nat.isDigit_of_mem_toDigits (by decide) (by decide) hc
  rw [scan_stop hdigits hrest, String.ofList_toList]

/-! ### Skeletons -/

end Snippet

namespace Shape

open Snippet

/-- The line of a required member without its tab stop. -/
def bareLine (name : String) : List Char := '\t' :: ((keyText name).toList ++ [':', ' ', '\n'])

/-- A skeleton without its tab stops. -/
def bareSkeleton (names : List String) : String :=
  String.ofList ('\x7b' :: '\n' ::
    ((if names = [] then ['\t', '\n'] else names.flatMap bareLine) ++ ['\x7d']))

theorem intercalate_skeletonLines {names : List String} (hne : names ≠ []) (stop : Nat) :
    "\n".intercalate (skeletonLines stop names) ++ "\n" =
      String.join ((skeletonLines stop names).map fun line => line ++ "\n") := by
  induction names generalizing stop with
  | nil => exact absurd rfl hne
  | cons name names ih =>
      by_cases hlast : names = []
      · rw [hlast, skeletonLines, skeletonLines, String.intercalate_singleton]
        simp
      · have hlines : skeletonLines (stop + 1) names ≠ [] := by
          obtain ⟨second, rest, rfl⟩ := List.exists_cons_of_ne_nil hlast
          rw [skeletonLines]
          exact List.cons_ne_nil _ _
        rw [skeletonLines, String.intercalate_cons_of_ne_nil hlines, String.append_assoc,
          ih hlast]
        simp [String.append_assoc]

/-- A line has the tab stop at its end and no other. -/
theorem scan_line (name : String) (stop : Nat) (rest : List Char) :
    scan 0 false (("\t" ++ keyText name ++ ": $" ++ toString stop ++ "\n").toList ++ rest) =
      (toString stop :: (scan 0 false rest).1, bareLine name ++ (scan 0 false rest).2) := by
  have htab : IsPlain ['\t'] := isPlain_singleton (by decide) (by decide)
  have hcolon : IsPlain [':', ' '] := isPlain_of_forall (by simp)
  have hfront : IsPlain (['\t'] ++ ((keyText name).toList ++ [':', ' '])) :=
    htab.append ((isPlain_keyText name).append hcolon)
  have hbreak : IsPlain ['\n'] := isPlain_singleton (by decide) (by decide)
  have hchars : ("\t" ++ keyText name ++ ": $" ++ toString stop ++ "\n").toList ++ rest =
      (['\t'] ++ ((keyText name).toList ++ [':', ' '])) ++
        '$' :: ((toString stop).toList ++ (['\n'] ++ rest)) := by simp
  rw [hchars, hfront, scan_number stop (by simp), hbreak]
  simp [bareLine]

/-- The lines of a skeleton have one tab stop each, in turn. -/
theorem scan_skeletonLines (names : List String) (stop : Nat) (rest : List Char) :
    scan 0 false ((String.join ((skeletonLines stop names).map fun line => line ++ "\n")).toList ++
        rest) =
      ((List.range' stop names.length).map toString ++ (scan 0 false rest).1,
        names.flatMap bareLine ++ (scan 0 false rest).2) := by
  induction names generalizing stop with
  | nil => simp [skeletonLines]
  | cons name names ih =>
      rw [skeletonLines, List.map_cons, String.join_cons, String.toList_append, List.append_assoc,
        scan_line, ih, List.length_cons, List.range'_succ]
      simp

theorem scan_objectSkeleton (shape : Shape) :
    scan 0 false shape.objectSkeleton.toList =
      ((List.range' 1 shape.requiredNames.length).map toString ++ ["0"],
        (bareSkeleton shape.requiredNames).toList) := by
  have hopening : IsPlain ['\x7b', '\n'] := isPlain_of_forall (by simp)
  have hclosing : scan 0 false ['\x7d', '$', '0'] = (["0"], ['\x7d']) := by decide +kernel
  cases hnames : shape.requiredNames with
  | nil =>
      rw [objectSkeleton, hnames]
      decide +kernel
  | cons name names =>
      have hchars : shape.objectSkeleton.toList = ['\x7b', '\n'] ++
          ((String.join ((skeletonLines 1 (name :: names)).map fun line => line ++ "\n")).toList ++
            ['\x7d', '$', '0']) := by
        rw [← intercalate_skeletonLines (List.cons_ne_nil name names), objectSkeleton, hnames]
        simp
      rw [hchars, hopening, scan_skeletonLines, hclosing, bareSkeleton,
        if_neg (List.cons_ne_nil name names)]
      simp

end Shape

end Caret
