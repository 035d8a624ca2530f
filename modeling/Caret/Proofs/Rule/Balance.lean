import Caret.Proofs.Rule.Seals
import Caret.Proofs.Rule.Strings

/-!
# Readings without a fault close what they open

A rule that finds no fault has read the tokens that close the strings and holes that it opened, and
no others.
-/

namespace Caret

open Construct (Balanced)

open Tree (kinds leavesAll)

namespace Rule

/-- Without a fault, a rule closes what it opens. -/
def Balances (rule : Rule) (input : List Lexeme) : Prop :=
  (rule input).errors = [] → Led input →
    Balanced (kinds (leavesAll (rule input).trees)) ∧ Led (rule input).rest

section

variable {input : List Lexeme} {first second body inner rule : Rule}

theorem balances_of_errors (h : (rule input).errors ≠ []) : rule.Balances input :=
  fun herrors => absurd herrors h

theorem Balances.congr {other : Rule} (heq : rule input = other input) (h : other.Balances input) :
    rule.Balances input := by
  rw [Balances, heq]
  exact h

theorem kinds_leavesAll_append (left right : List Tree) :
    kinds (leavesAll (left ++ right)) = kinds (leavesAll left) ++ kinds (leavesAll right) := by
  rw [Tree.leavesAll_append, Tree.kinds_append]

theorem balanced_lead {lead : List Token} (h : ∀ token ∈ lead, token.isTrivia = true) :
    Balanced (kinds (leavesAll (lead.map Tree.ofToken))) := by
  induction lead with
  | nil => exact Construct.balanced_nil
  | cons token lead ih =>
      obtain ⟨htoken, hlead⟩ := List.forall_mem_cons.1 h
      exact (Construct.balanced_singleton (.inl (isApart_of_isTrivia htoken))).append (ih hlead)

theorem Balances.andThen (hfirst : first.Balances input)
    (hsecond : second.Balances (first input).rest) : (first ++ second).Balances input := by
  intro herrors hinput
  rw [andThen_apply] at herrors ⊢
  obtain ⟨herrors, herrors'⟩ := List.append_eq_nil_iff.1 herrors
  obtain ⟨hbalanced, hled⟩ := hfirst herrors hinput
  obtain ⟨hbalanced', hled'⟩ := hsecond herrors' hled
  refine ⟨?_, hled'⟩
  rw [kinds_leavesAll_append]
  exact hbalanced.append hbalanced'

/-- A rule that goes on from balanced trees on its left. -/
def BalancesFrom (next : List Tree → Rule) : Prop :=
  ∀ left input, ((next left) input).errors = [] → Led input →
    Balanced (kinds (leavesAll left)) →
      Balanced (kinds (leavesAll (next left input).trees)) ∧ Led (next left input).rest

theorem Balances.into {next : List Tree → Rule} (hfirst : first.Balances input)
    (hnext : BalancesFrom next) : (first.into next).Balances input := by
  intro herrors hinput
  obtain ⟨herrors, herrors'⟩ := List.append_eq_nil_iff.1 herrors
  obtain ⟨hbalanced, hled⟩ := hfirst herrors hinput
  exact hnext _ _ herrors' hled hbalanced

theorem balanced_wrap {left : List Tree} (kind : Kind) (hbody : body.Balances input)
    (herrors : (body input).errors = []) (hinput : Led input) (hleft : Balanced (kinds (leavesAll left))) :
    Balanced (kinds (leavesAll (wrap kind left body input).trees)) ∧
      Led (wrap kind left body input).rest := by
  obtain ⟨hbalanced, hled⟩ := hbody herrors hinput
  refine ⟨?_, hled⟩
  change Balanced (kinds (leavesAll [.node kind (left ++ (body input).trees)]))
  rw [leavesAll, Tree.leaves, leavesAll, List.append_nil, kinds_leavesAll_append]
  exact hleft.append hbalanced

theorem balances_done (input : List Lexeme) : done.Balances input :=
  fun _ hinput => ⟨Construct.balanced_nil, hinput⟩

theorem balances_settle (input : List Lexeme) : settle.Balances input := by
  intro _ hinput
  refine ⟨?_, (spells_settle input).led hinput⟩
  cases input with
  | nil => exact Construct.balanced_nil
  | cons lexeme rest => exact balanced_lead (hinput lexeme List.mem_cons_self).1

theorem balances_node (kind : Kind) (h : body.Balances (settle input).rest) :
    (node kind body).Balances input := by
  refine (balances_settle input).andThen fun herrors hinput => ?_
  exact balanced_wrap kind h herrors hinput Construct.balanced_nil

theorem balances_absent (expected : Expected) (input : List Lexeme) :
    (absent expected).Balances input := balances_of_errors (errors_absent _ _)

theorem balances_skipTo (stop : List Kind) (cause : SyntaxError.Cause) (input : List Lexeme) :
    (skipTo stop cause).Balances input := balances_of_errors (errors_skipTo _ _ _)

/-- The kinds of the tokens that open and close nothing. -/
def isPlain (kind : Kind) : Prop := kind.isApart = true ∨ kind = .stringText

theorem kinds_takeAs (tag : Kind) (hinput : Led input) :
    ∃ lead last, kinds (leavesAll (takeAs tag input).trees) = lead ++ last ∧ Balanced lead ∧
      (last = [] ∨ last = [tag]) ∧ (kind input ≠ .eof → last = [tag]) := by
  cases input with
  | nil => exact ⟨[], [], rfl, Construct.balanced_nil, .inl rfl, fun h => absurd rfl h⟩
  | cons lexeme rest =>
      have hlead := balanced_lead (hinput lexeme List.mem_cons_self).1
      rw [takeAs]
      split
      · rename_i heof
        exact ⟨_, [], (List.append_nil _).symm, hlead, .inl rfl, fun h => absurd heof h⟩
      · refine ⟨_, [tag], ?_, hlead, .inr rfl, fun _ => rfl⟩
        rw [kinds_leavesAll_append]
        rfl

theorem balances_takeAs {tag : Kind} (hbecomes : (kind input).Becomes tag) (h : isPlain tag) :
    (takeAs tag).Balances input := by
  intro _ hinput
  refine ⟨?_, (spells_takeAs hbecomes).led hinput⟩
  obtain ⟨lead, last, hkinds, hlead, hlast, -⟩ := kinds_takeAs tag hinput
  rw [hkinds]
  rcases hlast with rfl | rfl
  · exact hlead.append Construct.balanced_nil
  · exact hlead.append (Construct.balanced_singleton h)

theorem balances_take (h : isPlain (kind input)) : take.Balances input :=
  (balances_takeAs (.same _) h).congr rfl

theorem balances_ifAt {kind : Kind} {yes no : Rule}
    (hyes : Rule.kind input = kind → yes.Balances input)
    (hno : Rule.kind input ≠ kind → no.Balances input) : (ifAt kind yes no).Balances input := by
  by_cases hkind : Rule.kind input = kind
  · exact (hyes hkind).congr (by rw [ifAt, if_pos hkind])
  · exact (hno hkind).congr (by rw [ifAt, if_neg hkind])

theorem balances_unlessAt (kinds : List Kind) (h : inner.Balances input) :
    (unlessAt kinds inner).Balances input := by
  by_cases hkind : kinds.contains (kind input) = true
  · exact (balances_done input).congr (by rw [unlessAt, if_pos hkind])
  · exact h.congr (by rw [unlessAt, if_neg hkind])

theorem balances_expect {wanted : Kind} (h : isPlain wanted) (input : List Lexeme) :
    (expect wanted).Balances input :=
  balances_ifAt (fun hkind => balances_take (hkind ▸ h)) fun _ => balances_absent _ input

theorem balances_takeNewlines (input : List Lexeme) : takeNewlines.Balances input := by
  induction input with
  | nil => exact balances_done []
  | cons lexeme rest ih =>
      by_cases hkind : lexeme.kind = .newline
      · intro herrors hinput
        rw [takeNewlines, if_pos hkind] at herrors ⊢
        obtain ⟨hbalanced, hled⟩ := ih herrors hinput.tail
        refine ⟨?_, hled⟩
        have hlead := balanced_lead (hinput lexeme List.mem_cons_self).1
        have htoken : Balanced (kinds (leavesAll [Tree.ofToken lexeme.token])) :=
          Construct.balanced_singleton (.inl (by rw [show lexeme.token.kind = .newline from hkind]; rfl))
        dsimp only
        rw [Lexeme.tokens, List.map_append, List.append_assoc, kinds_leavesAll_append,
          kinds_leavesAll_append]
        exact hlead.append (htoken.append hbalanced)
      · exact (balances_done _).congr (by rw [takeNewlines, if_neg hkind]; rfl)

theorem balances_takeNewlinesBefore (wanted : Kind) (input : List Lexeme) :
    (takeNewlinesBefore wanted).Balances input := by
  by_cases hkind : kindAfterNewlines input = wanted
  · exact (balances_takeNewlines input).congr (by rw [takeNewlinesBefore, if_pos hkind])
  · exact (balances_done input).congr (by rw [takeNewlinesBefore, if_neg hkind])

theorem balances_loop {choose : List Lexeme → Step} (hprogress : Progresses choose)
    (h : ∀ input, (choose input).rule.Balances input) (input : List Lexeme) :
    (loop choose).Balances input := by
  induction input using loop_induction hprogress with
  | last input inner hchoose =>
      have hstep := h input
      rw [hchoose] at hstep
      exact hstep.congr (by rw [loop_of_last hprogress hchoose]; rfl)
  | again input inner hchoose ih =>
      have hstep := h input
      rw [hchoose] at hstep
      exact (hstep.andThen ih).congr (by rw [loop_of_again hprogress hchoose]; rfl)

end

/-! The rules of expressions -/

section Expr

variable {expr : Rule} {input : List Lexeme} (hspells : ∀ input, (expr input).Spells [] input)
  (hexpr : ∀ input, expr.Balances input)

/-- What is read behind a token that opens something, with the token that closes it at the end. -/
def Closes (closing : Kind) (rule : Rule) (input : List Lexeme) : Prop :=
  (rule input).errors = [] → Led input →
    ∃ inner, kinds (leavesAll (rule input).trees) = inner ++ [closing] ∧ Balanced inner ∧
      Led (rule input).rest

theorem Closes.prepend {closing : Kind} {first second : Rule} (hfirst : first.Balances input)
    (hsecond : Closes closing second (first input).rest) :
    Closes closing (first ++ second) input := by
  intro herrors hinput
  rw [andThen_apply] at herrors ⊢
  obtain ⟨herrors, herrors'⟩ := List.append_eq_nil_iff.1 herrors
  obtain ⟨hbalanced, hled⟩ := hfirst herrors hinput
  obtain ⟨inner, hkinds, hinner, hled'⟩ := hsecond herrors' hled
  refine ⟨kinds (leavesAll (first input).trees) ++ inner, ?_, hbalanced.append hinner, hled'⟩
  rw [kinds_leavesAll_append, hkinds, List.append_assoc]

theorem closes_take (hkind : kind input ≠ .eof) : Closes (kind input) take input := by
  intro _ hinput
  obtain ⟨lead, last, hkinds, hlead, -, hlast⟩ := kinds_takeAs (kind input) hinput
  exact ⟨lead, by rw [take, hkinds, hlast hkind], hlead, (spells_take input).led hinput⟩

/-- A token that opens something, and what closes it. -/
theorem balances_between {opening closing : Kind} {construct : Construct} {rule : Rule}
    (hopens : opening.opens = some construct) (hcloses : closing.closes = some construct)
    (hkind : kind input = opening) (h : Closes closing rule (take input).rest) :
    (take ++ rule).Balances input := by
  intro herrors hinput
  rw [andThen_apply] at herrors ⊢
  obtain ⟨-, herrors⟩ := List.append_eq_nil_iff.1 herrors
  have heof : kind input ≠ .eof := by
    rw [hkind]
    rintro rfl
    cases hopens
  obtain ⟨lead, last, hkinds, hlead, -, hlast⟩ := kinds_takeAs (kind input) hinput
  obtain ⟨inner, hinner, hbalanced, hled⟩ := h herrors ((spells_take input).led hinput)
  refine ⟨?_, hled⟩
  rw [kinds_leavesAll_append, hinner]
  change Balanced (kinds (leavesAll (takeAs (kind input) input).trees) ++ (inner ++ [closing]))
  rw [hkinds, hlast heof, hkind, List.append_assoc]
  exact hlead.append (Construct.balanced_between hopens hcloses hbalanced)

theorem closes_expect {wanted : Kind} (hwanted : wanted ≠ .eof) (input : List Lexeme) :
    Closes wanted (expect wanted) input := by
  intro herrors hinput
  by_cases hkind : kind input = wanted
  · rw [expect, ifAt, if_pos hkind] at herrors ⊢
    have htake := closes_take (hkind ▸ hwanted) herrors hinput
    rwa [hkind] at htake
  · exact absurd herrors (errors_expect hkind)

include hexpr

theorem balances_interpolation (hkind : kind input = .interpStart) :
    (interpolation expr).Balances input := by
  unfold interpolation
  simp only [andThen_assoc]
  have hclose : ∀ input, Closes .interpEnd (expect .interpEnd) input := closes_expect (by decide)
  refine balances_node _ (balances_between rfl rfl (by rw [kind_settle, hkind])
    (.prepend (balances_takeNewlines _) (.prepend (hexpr _) (.prepend (balances_takeNewlines _)
      (.prepend (balances_unlessAt _ (balances_of_errors ?_)) (hclose _))))))
  simp [andThen_apply, report]

include hspells

theorem closes_stringBody (input : List Lexeme) :
    Closes .stringEnd (loop (stringStep expr)) input := by
  have hprogress := progresses_stringStep hspells
  induction input using loop_induction hprogress with
  | last input inner hchoose =>
      rw [Closes, loop_of_last hprogress hchoose]
      cases stringRound_of_eq hchoose with
      | close hkind =>
          rw [← hkind]
          exact closes_take (by rw [hkind]; decide)
      | unclosed => exact fun herrors => absurd herrors (by simp [report])
  | again input inner hchoose ih =>
      rw [Closes, loop_of_again hprogress hchoose]
      refine Closes.prepend ?_ ih
      cases stringRound_of_eq hchoose with
      | text hkind => exact balances_take (.inr hkind)
      | hole hkind => exact balances_interpolation hexpr hkind

theorem balances_string (hkind : kind input = .stringStart) : (string expr).Balances input :=
  balances_node _ (balances_between rfl rfl (by rw [kind_settle, hkind])
    (closes_stringBody hspells hexpr _))

theorem balances_propertyKey (hword : startsProperty (kind input) = true) :
    (propertyKey expr).Balances input := by
  rw [← kind_settle] at hword
  refine balances_node _ (balances_ifAt (balances_string hspells hexpr) fun hstart =>
    balances_takeAs (.name ?_) (.inl rfl))
  simp only [startsProperty, Bool.or_eq_true, decide_eq_true_eq] at hword
  exact hword.resolve_right hstart

omit hspells in
theorem balances_propertyValue (input : List Lexeme) : (propertyValue expr).Balances input :=
  balances_ifAt (fun hkind => (balances_take (.inl (by rw [hkind]; rfl))).andThen (hexpr _))
    fun _ => (balances_absent _ _).andThen (balances_unlessAt _ (hexpr _))

theorem balances_property (hword : startsProperty (kind input) = true) :
    (property expr).Balances input :=
  balances_node _ (((balances_propertyKey hspells hexpr (by rwa [kind_settle])).andThen
    (balances_propertyValue hexpr _)).andThen (balances_unlessAt _ (balances_skipTo _ _ _)))

omit hspells hexpr in
theorem balances_list {node close : Kind} {startsItem : Kind → Bool} {item : Rule}
    {cause : SyntaxError.Cause} (hclose : isPlain close)
    (hprogress : Progresses (listStep close startsItem item cause))
    (hitem : ∀ input, startsItem (kind input) = true → item.Balances input)
    (hkind : isPlain (kind input)) :
    (list node close startsItem item cause).Balances input := by
  refine balances_node _ ((balances_take (by rwa [kind_settle])).andThen
    (balances_loop hprogress (fun input => ?_) _))
  generalize hstep : listStep close startsItem item cause input = step
  cases listRound_of_eq hstep with
  | newline hkind | comma hkind => exact balances_take (.inl (by rw [hkind]; rfl))
  | close _ hat => exact balances_take (hat ▸ hclose)
  | unclosed => exact balances_absent _ input
  | item _ hstart => exact hitem input hstart
  | stray => exact balances_skipTo _ _ input

theorem balances_object (hkind : kind input = .lBrace) : (object expr).Balances input :=
  balances_list (.inl rfl) (progresses_property hspells)
    (fun _ hword => balances_property hspells hexpr hword) (.inl (by rw [hkind]; rfl))

variable (hless : ∀ input, startsExpr (kind input) = true →
  (expr input).rest.length < input.length)

include hless

omit hspells in
theorem balances_array (hkind : kind input = .lBrack) : (array expr).Balances input :=
  balances_list (.inl rfl) (progresses_arrayItem hless)
    (fun _ _ => balances_node _ (hexpr _)) (.inl (by rw [hkind]; rfl))

omit hspells in
theorem balances_arguments (hkind : isPlain (kind input)) : (arguments expr).Balances input :=
  balances_list (.inl rfl) (progresses_arguments hless) (fun _ _ => hexpr _) hkind

omit hspells hexpr hless in
theorem balances_loopVariable (input : List Lexeme) : loopVariable.Balances input := by
  unfold Balances loopVariable
  split
  · rename_i hname
    simp only [Bool.and_eq_true, decide_eq_true_eq] at hname
    exact balances_node _ (balances_take (.inl (by rw [kind_settle, hname.1]; rfl)))
  · exact balances_absent _ input

omit hspells hexpr hless in
theorem balances_word {tag : Kind} {word : String} (htag : tag.isContextual = true)
    (happart : tag.isApart = true) (hword : isWordAt input word = true) :
    (takeAs tag).Balances input :=
  balances_takeAs (kind_eq_of_isWordAt hword ▸ .keyword htag) (.inl happart)

omit hspells hexpr hless in
theorem balances_inKeyword (input : List Lexeme) : inKeyword.Balances input := by
  unfold Balances inKeyword
  split
  · exact balances_word rfl rfl ‹_›
  · exact balances_absent _ input

omit hspells hless in
theorem balances_forExpr (hbracket : kind input = .lBrack)
    (hfor : isWordAt input.tail "for" = true) : (forExpr expr).Balances input := by
  have htake : take.Balances (settle input).rest :=
    balances_take (.inl (by rw [kind_settle, hbracket]; rfl))
  have hkeyword := htake.andThen
    (balances_word (rfl : Kind.forKw.isContextual = true) rfl (isWordAt_rest_take hbracket hfor))
  exact balances_node _ (((((((((hkeyword.andThen (balances_loopVariable _)).andThen
    (balances_inKeyword _)).andThen (hexpr _)).andThen (balances_expect (.inl rfl) _)).andThen
    (balances_takeNewlines _)).andThen (hexpr _)).andThen
    (balances_unlessAt _ (balances_skipTo _ _ _))).andThen
    (balances_takeNewlinesBefore _ _)).andThen (balances_expect (.inl rfl) _))

omit hspells hless in
theorem balances_paren (hkind : kind input = .lParen) : (paren expr).Balances input :=
  balances_node _ (((((balances_take (.inl (by rw [kind_settle, hkind]; rfl))).andThen
    (balances_takeNewlines _)).andThen (hexpr _)).andThen
    (balances_takeNewlinesBefore _ _)).andThen (balances_expect (.inl rfl) _))

theorem balances_primary (input : List Lexeme) : (primary expr).Balances input := by
  have hliteral : ∀ kind ∈ literalKinds, kind.isApart = true := by decide
  obtain ⟨rule, hrule, heq⟩ := exists_primary expr input
  refine Balances.congr heq ?_
  cases hrule with
  | literal hkind =>
      exact balances_node _ (balances_take (.inl (by rw [kind_settle]; exact hliteral _ hkind)))
  | string hkind => exact balances_string hspells hexpr hkind
  | object hkind => exact balances_object hspells hexpr hkind
  | loop hkind hfor => exact balances_forExpr hexpr hkind hfor
  | array hkind => exact balances_array hexpr hless hkind
  | paren hkind => exact balances_paren hexpr hkind
  | word => exact balances_node _ (balances_takeAs (.name (by rwa [kind_settle])) (.inl rfl))
  | absent => exact balances_absent _ input

end Expr

/-- The rules of a level close what they open. -/
structure Level.Balances (level : Level) : Prop where
  expr (input : List Lexeme) : level.expr.Balances input
  unary (input : List Lexeme) : level.unary.Balances input
  links : BalancesFrom level.links
  operators (least : Nat) : BalancesFrom (level.operators least)

namespace Level

variable {below : Level} {input : List Lexeme}

theorem Balances.binary (h : below.Balances) (least : Nat) (input : List Lexeme) :
    (below.binary least).Balances input :=
  (balances_settle input).andThen ((h.unary _).into (h.operators least))

theorem Balances.choice (h : below.Balances) : BalancesFrom below.choice := by
  intro left input herrors hinput hleft
  unfold Level.choice at herrors ⊢
  by_cases hkind : kind input = .question
  · rw [ifAt, if_pos hkind] at herrors ⊢
    have htest := (balances_take (.inl (by rw [hkind]; rfl))).andThen (h.expr _)
    exact balanced_wrap _
      ((htest.andThen (balances_expect (.inl rfl) _)).andThen (h.expr _)) herrors hinput hleft
  · rw [ifAt, if_neg hkind] at herrors ⊢
    exact ⟨hleft, hinput⟩

theorem Balances.ternary (h : below.Balances) (input : List Lexeme) :
    below.ternary.Balances input :=
  (balances_settle input).andThen ((h.binary 1 _).into h.choice)

theorem balances_member (input : List Lexeme) : member.Balances input := by
  unfold Rule.Balances member
  split
  · exact balances_takeAs (.name ‹_›) (.inl rfl)
  · exact balances_absent _ input

/-- Where a link starts, the token in front of it opens and closes nothing. -/
theorem isPlain_of_startsLink {kind : Kind} (h : startsLink kind = true) : isPlain kind := by
  refine .inl ?_
  cases kind <;> first | rfl | cases h

theorem balanced_link (h : below.Balances) (hless : below.Progresses) {receiver : List Tree}
    (hstart : startsLink (kind input) = true) (herrors : (below.link receiver input).errors = [])
    (hinput : Led input) (hleft : Balanced (kinds (leavesAll receiver))) :
    Balanced (kinds (leavesAll (below.link receiver input).trees)) ∧
      Led (below.link receiver input).rest := by
  have htake := balances_take (isPlain_of_startsLink hstart)
  unfold link at herrors ⊢
  split at herrors
  · exact balanced_wrap _ (htake.andThen (balances_member _)) herrors hinput hleft
  · exact balanced_wrap _ ((htake.andThen (h.expr _)).andThen
      (balances_expect (.inl rfl) _)) herrors hinput hleft
  · exact balanced_wrap _ (balances_arguments h.expr hless.expr
      (isPlain_of_startsLink hstart)) herrors hinput hleft

theorem balancesFrom_links_above {below : Option Level} (h : ∀ level ∈ below, level.Balances)
    (hless : ∀ level ∈ below, level.Progresses) : BalancesFrom (above below).links := by
  intro left input herrors hinput hleft
  rw [links_above] at herrors ⊢
  split at herrors
  · rename_i hstart
    rw [if_pos hstart]
    cases below with
    | none => exact absurd (List.append_eq_nil_iff.1 herrors).2 (errors_tooDeep _)
    | some level =>
        obtain ⟨herrors, herrors'⟩ := List.append_eq_nil_iff.1 herrors
        obtain ⟨hbalanced, hled⟩ :=
          balanced_link (h level rfl) (hless level rfl) hstart herrors hinput hleft
        exact (h level rfl).links _ _ herrors' hled hbalanced
  · rename_i hstart
    rw [if_neg hstart]
    exact ⟨hleft, hinput⟩

theorem isPlain_of_precedence {kind : Kind} {precedence : Nat}
    (h : kind.precedence = some precedence) : isPlain kind := by
  refine .inl ?_
  cases kind <;> first | rfl | cases h

theorem balancesFrom_operators_above {below : Option Level} (h : ∀ level ∈ below, level.Balances)
    (least : Nat) : BalancesFrom ((above below).operators least) := by
  intro left input herrors hinput hleft
  rw [operators_above] at herrors ⊢
  cases hprecedence : (kind input).precedence with
  | none => exact ⟨hleft, hinput⟩
  | some precedence =>
      rw [hprecedence] at herrors
      dsimp only at herrors ⊢
      split at herrors
      · rename_i hle
        rw [if_pos hle]
        exact ⟨hleft, hinput⟩
      · rename_i hle
        rw [if_neg hle]
        cases below with
        | none => exact absurd (List.append_eq_nil_iff.1 herrors).2 (errors_tooDeep _)
        | some level =>
            obtain ⟨herrors, herrors'⟩ := List.append_eq_nil_iff.1 herrors
            have hbody := (balances_take (isPlain_of_precedence hprecedence)).andThen
              ((h level rfl).binary (precedence + 1) _)
            obtain ⟨hbalanced, hled⟩ := balanced_wrap .binaryExpr hbody herrors hinput hleft
            exact (h level rfl).operators least _ _ herrors' hled hbalanced

theorem balances_above {below : Option Level} (hspells : ∀ level ∈ below, level.Spells)
    (hless : ∀ level ∈ below, level.Progresses) (h : ∀ level ∈ below, level.Balances) :
    (above below).Balances := by
  have hexpr : ∀ input, (above below).expr.Balances input := by
    intro input
    cases below with
    | none => exact balances_of_errors (errors_tooDeep input)
    | some level => exact (h level rfl).ternary input
  have hlinks := balancesFrom_links_above h hless
  refine ⟨hexpr, fun input => ?_, hlinks, balancesFrom_operators_above h⟩
  by_cases hprefix : kind input = .bang ∨ kind input = .minus
  · have hplain : isPlain (kind input) := by
      rcases hprefix with hkind | hkind <;> exact .inl (by rw [hkind]; rfl)
    cases below with
    | none =>
        exact (balances_of_errors (errors_tooDeep input)).congr (by rw [unary_above, if_pos hprefix])
    | some level =>
        have hnode : (node .unaryExpr (take ++ level.unary)).Balances input :=
          balances_node _ ((balances_take (by rwa [kind_settle])).andThen ((h level rfl).unary _))
        exact hnode.congr (by rw [unary_above, if_pos hprefix])
  · refine Rule.Balances.congr (by rw [unary_above, if_neg hprefix]) ?_
    exact (balances_settle input).andThen ((balances_primary (spells_above hspells).expr hexpr
      (progresses_above hspells hless).expr _).into hlinks)

end Level

theorem balances_level (budget : Nat) : (level budget).Balances :=
  level_induction (fun _ hbelow known => Level.balances_above (known spells_level)
    (known progresses_level) hbelow) budget

/-! The rules of documents -/

section

variable {input : List Lexeme}

theorem balances_expr (input : List Lexeme) : Rule.expr.Balances input :=
  (balances_level maxDepth).expr input

theorem balances_decorator (hkind : kind input = .atSign) : decorator.Balances input := by
  have hlevel := balances_level maxDepth
  have hchain : ∀ input, outermost.chain.Balances input := fun input =>
    (balances_settle input).andThen ((balances_primary (spells_level maxDepth).expr hlevel.expr
      (progresses_level maxDepth).expr _).into hlevel.links)
  refine (balances_node _ ((balances_take (.inl (by rw [kind_settle, hkind]; rfl))).andThen
    (balances_ifAt (fun _ => hchain _) fun _ => balances_absent _ _))).andThen
    (balances_unlessAt _ (balances_skipTo _ _ _))

theorem balances_name (input : List Lexeme) : name.Balances input :=
  balances_ifAt (fun hkind => balances_node _ (balances_take (.inl (by rw [kind_settle, hkind]; rfl))))
    fun _ => balances_absent _ _

theorem balances_typeName (input : List Lexeme) : typeName.Balances input :=
  balances_ifAt (fun hkind => balances_node _ (balances_take (.inl (by rw [kind_settle, hkind]; rfl))))
    fun _ => balances_absent _ _

theorem balances_quoted (kind : Kind) (expected : Expected) (input : List Lexeme) :
    (quoted kind expected).Balances input :=
  balances_ifAt (fun hkind => balances_node _ (balances_string spells_expr balances_expr
    (by rw [kind_settle, hkind]))) fun _ => balances_absent _ _

theorem balances_existing (input : List Lexeme) : existing.Balances input := by
  unfold Balances existing
  split
  · exact balances_word rfl rfl ‹_›
  · exact balances_done input

theorem balances_header (kind : Kind) (input : List Lexeme) : (header kind).Balances input := by
  refine header_induction (motive := fun rule => ∀ input, rule.Balances input)
    (fun hpart input => ?_) (fun hfirst hsecond input => (hfirst input).andThen (hsecond _)) input
  cases hpart with
  | name => exact balances_name input
  | typeName => exact balances_typeName input
  | resourceType | modulePath => exact balances_quoted _ _ input
  | existing => exact balances_existing input
  | equals => exact balances_expect (.inl rfl) input
  | value => exact balances_expr input
  | default =>
      exact balances_ifAt (fun hkind => (balances_take (.inl (by rw [hkind]; rfl))).andThen
        (balances_expr _)) fun _ => balances_done input
  | done => exact balances_done input

theorem balances_endDeclaration (input : List Lexeme) : endDeclaration.Balances input := by
  unfold Balances endDeclaration
  split
  · exact balances_done input
  · exact balances_unlessAt _ (balances_skipTo _ _ _)

theorem balancesFrom_undecorated : BalancesFrom undecorated := by
  intro left input herrors hinput hleft
  obtain ⟨rule, hrule, heq⟩ := exists_undecorated left input
  rw [heq] at herrors ⊢
  cases hrule with
  | alone => exact ⟨hleft, hinput⟩
  | stray => exact absurd (List.append_eq_nil_iff.1 herrors).2 (errors_skipTo _ _ _)
  | @declaration node keyword _ hident hkeyword =>
      obtain ⟨herrors, herrors'⟩ := List.append_eq_nil_iff.1 herrors
      have happart : keyword.isApart = true := by
        cases keyword <;> first | rfl | cases hkeyword
      have hbecomes : (kind input).Becomes keyword := hident ▸ .keyword hkeyword
      have hbody := (balances_takeAs hbecomes (.inl happart)).andThen (balances_header node _)
      obtain ⟨hbalanced, hled⟩ := balanced_wrap node hbody herrors hinput hleft
      obtain ⟨hbalanced', hled'⟩ := balances_endDeclaration _ herrors' hled
      refine ⟨?_, hled'⟩
      rw [andThen_apply, kinds_leavesAll_append]
      exact hbalanced.append hbalanced'

theorem balances_decorators (input : List Lexeme) : (loop decoratorStep).Balances input := by
  refine balances_loop progresses_decoratorStep (fun input => ?_) input
  generalize hstep : decoratorStep input = step
  cases decoratorRound_of_eq hstep with
  | decorator hkind => exact (balances_decorator hkind).andThen (balances_takeNewlines _)
  | done => exact balances_done input

theorem balances_declaration (input : List Lexeme) : declaration.Balances input :=
  (balances_settle input).andThen ((balances_decorators _).into balancesFrom_undecorated)

/-- A document without a fault closes each string and each hole that it opens. -/
theorem balances_document (input : List Lexeme) : document.Balances input := by
  intro herrors hinput
  refine balanced_wrap .root ?_ herrors hinput Construct.balanced_nil
  refine balances_loop progresses_documentStep (fun input => ?_) input
  generalize hstep : documentStep input = step
  cases documentRound_of_eq hstep with
  | fileEnd => exact balances_settle input
  | newline hkind => exact balances_take (.inl (by rw [hkind]; rfl))
  | declaration => exact balances_declaration input

end

end Rule

end Caret
