import Caret.Proofs.Lexer.Leaves
import Caret.Proofs.Lexer.Modes

/-!
# How far tokens reach

A token takes no more characters than there are, and its kind tells how many it takes: a sign is a
single one, a word or a comment goes on as far as its characters do.
-/

namespace Caret

/-- The kinds of the tokens of a single character. -/
def Kind.isSign : Kind → Bool
  | lBrace | rBrace | lBrack | rBrack | lParen | rParen | comma | dot | colon | question | eq | bang
  | lt | gt | plus | minus | star | slash | percent | atSign | interpEnd | errorToken => true
  | _ => false

/-- The character of a sign that is written in one way. -/
def Kind.sign : Kind → Option Char
  | dot => some '.'
  | interpEnd => some '\x7d'
  | _ => none

namespace Lexer

variable {modes : List Mode} {c : Char} {cs left right : List Char}

theorem countWhile_le (test : Char → Bool) (cs : List Char) : countWhile test cs ≤ cs.length := by
  induction cs with
  | nil => exact Nat.le_refl 0
  | cons c cs ih =>
      unfold countWhile
      split
      · exact Nat.succ_le_succ ih
      · exact Nat.zero_le _

theorem countWhile_of_append {test : Char → Bool}
    (h : countWhile test (left ++ right) = left.length) :
    (∀ c ∈ left, test c = true) ∧ ∀ c ∈ right.head?, test c = false := by
  induction left with
  | nil =>
      cases right with
      | nil => simp
      | cons c cs =>
          rw [List.nil_append, countWhile] at h
          split at h
          · simp at h
          · rename_i htest
            simpa using htest
  | cons c cs ih =>
      rw [List.cons_append, countWhile] at h
      split at h
      · rename_i htest
        obtain ⟨hall, hnext⟩ := ih (by simpa using h)
        refine ⟨fun d hd => ?_, hnext⟩
        rcases List.mem_cons.1 hd with rfl | hd
        · exact htest
        · exact hall d hd
      · simp at h

theorem beforeCommentEnd_le {count : Nat} (h : beforeCommentEnd cs = some count) :
    count + 2 ≤ cs.length := by
  fun_induction beforeCommentEnd cs generalizing count with
  | case1 => cases h
  | case2 => cases h
  | case3 c d cs hend =>
    cases h
    simp
  | case4 c d cs hend ih =>
    obtain ⟨before, hbefore, rfl⟩ := Option.map_eq_some_iff.1 h
    have hle := ih hbefore
    simp only [List.length_cons] at hle ⊢
    omega

theorem textLength_le (multiline : Bool) (cs : List Char) : textLength multiline cs ≤ cs.length := by
  fun_induction textLength multiline cs with
  | case1 => exact Nat.le_refl 0
  | case2 => exact Nat.zero_le _
  | case3 => simp
  | case4 c d rest hend hescape ih =>
    simp only [List.length_cons]
    omega
  | case5 c cs hend hescape ih => exact Nat.succ_le_succ ih

theorem BodyCut.extra_le {multiline : Bool} {outer : List Mode} {next : Cut}
    (h : BodyCut multiline outer c cs next) : next.extra ≤ cs.length := by
  cases h with
  | quote => exact Nat.zero_le _
  | quotes => exact Nat.le_add_left _ _
  | hole => exact Nat.le_add_left _ _
  | text =>
      have hle := textLength_le multiline (c :: cs)
      simp only [List.length_cons] at hle ⊢
      omega

theorem Symbol.extra_le {kind : Kind} {extra : Nat} (h : Symbol c cs kind extra) :
    extra ≤ cs.length := by
  cases h with
  | sign => exact Nat.zero_le _
  | pair => exact Nat.le_add_left _ _
  | alone => exact Nat.zero_le _

theorem CodeCut.extra_le {next : Cut} (h : CodeCut modes c cs next) : next.extra ≤ cs.length := by
  cases h with
  | blanks => exact countWhile_le _ _
  | symbol h => exact h.extra_le
  | lineComment => exact countWhile_le _ _
  | blockComment hend => exact Nat.succ_le_succ (beforeCommentEnd_le hend)
  | openComment => exact Nat.le_refl _
  | quotes => exact Nat.le_add_left _ _
  | digits => exact countWhile_le _ _
  | word => exact countWhile_le _ _
  | _ => exact Nat.zero_le _

/-- A token takes no more characters than there are. -/
theorem extra_cut_le (modes : List Mode) (c : Char) (cs : List Char) :
    (cut modes c cs).extra ≤ cs.length := by
  cases tokenCut modes c cs with
  | body h => exact h.extra_le
  | code _ h => exact h.extra_le

/-- White space is blanks. -/
theorem CodeCut.of_whitespace {next : Cut} (h : CodeCut modes c cs next)
    (hkind : next.kind = .whitespace) :
    isBlank c = true ∧ next.extra = countWhile isBlank cs := by
  cases h with
  | blanks hblank => exact ⟨hblank, rfl⟩
  | symbol h =>
      exact absurd hkind
        ((by decide : ∀ kind ∈ symbolKinds, kind ≠ .whitespace) _ h.mem_symbolKinds)
  | word =>
      exact absurd hkind ((by decide : ∀ kind ∈ wordKinds, kind ≠ .whitespace) _ (mem_wordKinds _))
  | _ => cases hkind

theorem TokenCut.of_whitespace {next : Cut} (h : TokenCut modes c cs next)
    (hkind : next.kind = .whitespace) :
    isInBody modes = false ∧ isBlank c = true ∧ next.extra = countWhile isBlank cs := by
  cases h with
  | body h => cases h <;> cases hkind
  | code hcode h => exact ⟨hcode, h.of_whitespace hkind⟩

/-- Code opens no holes. -/
theorem CodeCut.kind_ne_interpStart {next : Cut} (h : CodeCut modes c cs next) :
    next.kind ≠ .interpStart := by
  cases h with
  | symbol h => exact (by decide : ∀ kind ∈ symbolKinds, kind ≠ .interpStart) _ h.mem_symbolKinds
  | word => exact (by decide : ∀ kind ∈ wordKinds, kind ≠ .interpStart) _ (mem_wordKinds _)
  | _ => nofun

theorem TokenCut.extra_of_interpStart {next : Cut} (h : TokenCut modes c cs next)
    (hkind : next.kind = .interpStart) : next.extra = 1 := by
  cases h with
  | body h =>
      cases h with
      | hole => rfl
      | _ => cases hkind
  | code _ h => exact absurd hkind h.kind_ne_interpStart

/-- The characters that some leaves spell. -/
def spelling (leaves : List (Kind × String)) : List Char := leaves.flatMap fun leaf => leaf.2.toList

theorem cutLeaves_eq_cons {all : List Char} {kind : Kind} {text : String}
    {after : List (Kind × String)} (h : cutLeaves modes all = (kind, text) :: after) :
    ∃ c cs right, all = c :: (cs ++ right) ∧ text.toList = c :: cs ∧
      (cut modes c (cs ++ right)).extra = cs.length ∧ (cut modes c (cs ++ right)).kind = kind ∧
      cutLeaves (cut modes c (cs ++ right)).modes right = after := by
  cases all with
  | nil => simp [cutLeaves_nil] at h
  | cons c cs =>
      rw [cutLeaves_cons] at h
      obtain ⟨hfirst, hafter⟩ := List.cons.inj h
      obtain ⟨hkind, htext⟩ := Prod.mk.inj hfirst
      refine ⟨c, cs.take (cut modes c cs).extra, cs.drop (cut modes c cs).extra, ?_⟩
      rw [List.take_append_drop]
      refine ⟨rfl, ?_, ?_, hkind, hafter⟩
      · rw [← htext, String.toList_ofList]
      · rw [List.length_take_of_le (extra_cut_le modes c cs)]

/-- The tokens of some characters spell them. -/
theorem spelling_cutLeaves (modes : List Mode) (cs : List Char) :
    spelling (cutLeaves modes cs) = cs := by
  rw [spelling, cutLeaves, List.flatMap_map]
  exact flatMap_text_scan modes 0 cs

/-- Words are what starts with a character of words. -/
theorem CodeCut.of_isWord {next : Cut} (h : CodeCut modes c cs next)
    (hword : next.kind.isWord = true) :
    Identifier.startsWith c = true ∧ next.extra = countWhile Identifier.continuesWith cs ∧
      next.kind = (Kind.ofReserved (String.ofList (c :: cs.take next.extra))).getD .ident := by
  cases h with
  | symbol h =>
      exact absurd hword
        ((by decide : ∀ kind ∈ symbolKinds, ¬kind.isWord = true) _ h.mem_symbolKinds)
  | word hstart => exact ⟨hstart, rfl, rfl⟩
  | _ => cases hword

theorem forall_mem_take_countWhile (test : Char → Bool) (cs : List Char) :
    ∀ c ∈ cs.take (countWhile test cs), test c = true := by
  induction cs with
  | nil => simp
  | cons c cs ih =>
      unfold countWhile
      split
      · rename_i hc
        rw [List.take_succ_cons]
        exact List.forall_mem_cons.2 ⟨hc, ih⟩
      · simp

/-- An identifier is spelled like one. -/
theorem CodeCut.isValid_of_ident {next : Cut} (h : CodeCut modes c cs next)
    (hident : next.kind = .ident) :
    Identifier.isValid (String.ofList (c :: cs.take next.extra)) = true := by
  obtain ⟨hstart, hextra, hkind⟩ := h.of_isWord (by rw [hident]; rfl)
  rw [hident] at hkind
  unfold Identifier.isValid
  rw [String.toList_ofList, Bool.and_eq_true, Bool.and_eq_true, Option.isNone_iff_eq_none,
    List.all_eq_true]
  refine ⟨⟨hstart, by rw [hextra]; exact forall_mem_take_countWhile _ _⟩, ?_⟩
  cases hreserved : Kind.ofReserved (String.ofList (c :: cs.take next.extra)) with
  | none => rfl
  | some kind =>
      rw [hreserved] at hkind
      obtain rfl : .ident = kind := hkind
      unfold Kind.ofReserved at hreserved
      split at hreserved <;> cases hreserved

/-- What holds of each token that can come next holds of all of them. -/
theorem forall_cutLeaves {motive : Kind × String → Prop}
    (h : ∀ modes c cs next, TokenCut modes c cs next →
      motive (next.kind, String.ofList (c :: cs.take next.extra)))
    (modes : List Mode) (cs : List Char) : ∀ part ∈ cutLeaves modes cs, motive part := by
  induction hlength : cs.length using Nat.strongRecOn generalizing modes cs with
  | ind count ih =>
      cases cs with
      | nil => simp [cutLeaves_nil]
      | cons c cs =>
          rw [cutLeaves_cons, List.forall_mem_cons]
          refine ⟨h _ _ _ _ (tokenCut modes c cs), ih _ ?_ _ _ rfl⟩
          rw [← hlength, List.length_drop, List.length_cons]
          omega

theorem kind_of_isWord {part : Kind × String} (hmem : part ∈ cutLeaves modes cs) :
    part.1.isWord = true → part.1 = (Kind.ofReserved part.2).getD .ident := by
  refine forall_cutLeaves (motive := fun part =>
    part.1.isWord = true → part.1 = (Kind.ofReserved part.2).getD .ident) ?_ modes cs part hmem
  intro modes c cs next h hword
  cases h with
  | body h => cases h <;> cases hword
  | code _ h => exact (h.of_isWord hword).2.2

theorem isValid_of_ident {part : Kind × String} (hmem : part ∈ cutLeaves modes cs) :
    part.1 = .ident → Identifier.isValid part.2 = true := by
  refine forall_cutLeaves (motive := fun part =>
    part.1 = .ident → Identifier.isValid part.2 = true) ?_ modes cs part hmem
  intro modes c cs next h hident
  cases h with
  | body h => cases h <;> cases hident
  | code _ h => exact h.isValid_of_ident hident

theorem CodeCut.extra_of_isSign {next : Cut} (h : CodeCut modes c cs next)
    (hsign : next.kind.isSign = true) : next.extra = 0 := by
  cases h with
  | symbol h =>
      cases h with
      | pair _ hoperator =>
          exact absurd hsign
            ((by decide : ∀ operator ∈ operators, ¬operator.pair.isSign = true) _ hoperator)
      | _ => rfl
  | word =>
      exact absurd hsign
        ((by decide : ∀ kind ∈ wordKinds, ¬kind.isSign = true) _ (mem_wordKinds _))
  | _ => first | rfl | cases hsign

theorem length_of_isSign {part : Kind × String} (hmem : part ∈ cutLeaves modes cs) :
    part.1.isSign = true → part.2.toList.length = 1 := by
  refine forall_cutLeaves (motive := fun part =>
    part.1.isSign = true → part.2.toList.length = 1) ?_ modes cs part hmem
  intro modes c cs next h hsign
  cases h with
  | body h => cases h <;> cases hsign
  | code _ h =>
      rw [h.extra_of_isSign hsign, String.toList_ofList]
      rfl

/-- A sign is written as its character. -/
theorem CodeCut.eq_of_sign {next : Cut} {d : Char} (h : CodeCut modes c cs next)
    (hsign : next.kind.sign = some d) : c = d ∧ next.extra = 0 := by
  cases h with
  | symbol h =>
      cases h with
      | sign _ hmem =>
          have hsigns : ∀ sign ∈ signs, sign.2.sign = none ∨ sign.2.sign = some sign.1 := by decide
          refine ⟨?_, rfl⟩
          rcases hsigns _ hmem with hnone | hsome
          · rw [hnone] at hsign
            cases hsign
          · exact Option.some.inj (hsome.symm.trans hsign)
      | pair _ hoperator =>
          rw [(by decide : ∀ operator ∈ operators, operator.pair.sign = none) _ hoperator] at hsign
          cases hsign
      | alone hoperator _ =>
          rw [(by decide : ∀ operator ∈ operators, operator.alone.sign = none) _ hoperator] at hsign
          cases hsign
  | word =>
      rw [(by decide : ∀ kind ∈ wordKinds, kind.sign = none) _ (mem_wordKinds _)] at hsign
      cases hsign
  | endHole => exact ⟨Option.some.inj hsign, rfl⟩
  | _ => cases hsign

theorem text_of_sign {part : Kind × String} {d : Char} (hmem : part ∈ cutLeaves modes cs) :
    part.1.sign = some d → part.2 = String.singleton d := by
  refine forall_cutLeaves (motive := fun part =>
    part.1.sign = some d → part.2 = String.singleton d) ?_ modes cs part hmem
  intro modes c cs next h hsign
  cases h with
  | body h => cases h <;> cases hsign
  | code _ h =>
      obtain ⟨rfl, hextra⟩ := h.eq_of_sign hsign
      rw [hextra]
      rfl

theorem CodeCut.of_lineComment {next : Cut} (h : CodeCut modes c cs next)
    (hkind : next.kind = .lineComment) :
    next = { kind := .lineComment, extra := countWhile (fun d => !isLineBreak d) cs,
             modes := modes } := by
  cases h with
  | symbol h =>
      exact absurd hkind
        ((by decide : ∀ kind ∈ symbolKinds, kind ≠ .lineComment) _ h.mem_symbolKinds)
  | word =>
      exact absurd hkind ((by decide : ∀ kind ∈ wordKinds, kind ≠ .lineComment) _ (mem_wordKinds _))
  | lineComment => rfl
  | _ => cases hkind

theorem TokenCut.of_lineComment {next : Cut} (h : TokenCut modes c cs next)
    (hkind : next.kind = .lineComment) :
    isInBody modes = false ∧
      next = { kind := .lineComment, extra := countWhile (fun d => !isLineBreak d) cs,
               modes := modes } := by
  cases h with
  | body h => cases h <;> cases hkind
  | code hcode h => exact ⟨hcode, h.of_lineComment hkind⟩

/-- A comment that reaches to the end of the line has nothing but a newline after it. -/
theorem kind_after_lineComment {before after : List (Kind × String)} {next : Kind × String}
    {text : String} (h : cutLeaves modes cs = before ++ (.lineComment, text) :: next :: after) :
    next.1 = .newline := by
  induction before generalizing modes cs with
  | nil =>
      obtain ⟨c, taken, right, rfl, -, hextra, hkind, hright⟩ := cutLeaves_eq_cons h
      obtain ⟨hcode, hcut⟩ := (tokenCut modes c (taken ++ right)).of_lineComment hkind
      rw [hcut] at hextra hright
      obtain ⟨d, more, rest, rfl, -, -, hnext, -⟩ := cutLeaves_eq_cons hright
      have hbreak := (countWhile_of_append hextra).2 d rfl
      rw [cut_of_not_isInBody hcode] at hnext
      rw [← hnext]
      simp only [isLineBreak, Bool.not_eq_false', Bool.or_eq_true, decide_eq_true_eq] at hbreak
      rcases hbreak with rfl | rfl
      · rfl
      · exact apply_ite Cut.kind _ _ _ |>.trans (ite_self _)
  | cons first before ih =>
      cases cs with
      | nil => simp [cutLeaves_nil] at h
      | cons c cs =>
          rw [cutLeaves_cons] at h
          exact ih (List.cons.inj h).2

end Lexer

end Caret
