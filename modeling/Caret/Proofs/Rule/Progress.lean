import Caret.Proofs.Rule.Spelling

/-!
# Every round of a loop takes a token

A loop counts its rounds down from the number of tokens. It never gets to the end of the count:
each round but the last one takes a token, so a loop is the repetition that it is meant to be, and
what it does can be shown by induction on what is left.
-/

namespace Caret

namespace Rule

variable {first second body inner : Rule} {input : List Lexeme}

theorem length_settle (input : List Lexeme) : (settle input).rest.length = input.length := by
  cases input <;> rfl

theorem length_andThen_lt (hfirst : (first input).rest.length < input.length)
    (hsecond : (second (first input).rest).Spells [] (first input).rest) :
    ((first ++ second) input).rest.length < input.length :=
  Nat.lt_of_le_of_lt hsecond.length_le hfirst

theorem length_node_lt {kind : Kind}
    (h : (body (settle input).rest).rest.length < (settle input).rest.length) :
    (node kind body input).rest.length < input.length := by
  rw [← length_settle input]
  exact h

theorem length_takeAs_lt {tag : Kind} (h : kind input ≠ .eof) :
    (takeAs tag input).rest.length < input.length := by
  cases input with
  | nil => exact absurd rfl h
  | cons lexeme rest =>
      rw [kind_cons] at h
      simp [takeAs, h]

theorem length_take_lt (h : kind input ≠ .eof) : (take input).rest.length < input.length :=
  length_takeAs_lt h

theorem length_takeUntil_lt {stop : List Kind} (heof : kind input ≠ .eof)
    (hstop : kind input ∉ stop) : (takeUntil stop input).rest.length < input.length := by
  cases input with
  | nil => exact absurd rfl heof
  | cons lexeme rest =>
      rw [kind_cons] at heof hstop
      have hmore := (spells_takeUntil stop rest).length_le
      simp only [takeUntil, heof, decide_false, Bool.false_or, List.contains_iff_mem, hstop,
        if_false, List.length_cons]
      omega

theorem length_skipTo_lt {stop : List Kind} {cause : SyntaxError.Cause} (heof : kind input ≠ .eof)
    (hstop : kind input ∉ stop) : (skipTo stop cause input).rest.length < input.length := by
  have hinner : (unlessAt (.eof :: stop) (node .error (takeUntil stop)) input).rest.length <
      input.length := by
    unfold unlessAt
    rw [if_neg (by simp [heof, hstop])]
    exact length_node_lt (length_takeUntil_lt (by rwa [kind_settle]) (by rwa [kind_settle]))
  exact hinner

theorem length_tooDeep_lt (heof : kind input ≠ .eof) (hline : kind input ≠ .newline) :
    (tooDeep input).rest.length < input.length :=
  length_andThen_lt (length_skipTo_lt heof (by simpa using hline)) (spells_node _ (spells_done _))

/-- After what nests too deeply comes a new line or nothing. -/
theorem kind_tooDeep (input : List Lexeme) :
    kind (tooDeep input).rest = .eof ∨ kind (tooDeep input).rest = .newline := by
  have hrest : (tooDeep input).rest =
      (settle (unlessAt [.eof, .newline] (node .error (takeUntil [.newline])) input).rest).rest := rfl
  rw [hrest, kind_settle]
  unfold unlessAt
  split
  · rename_i hkind
    simp only [List.contains_iff_mem, List.mem_cons, List.not_mem_nil, or_false] at hkind
    exact hkind
  · have huntil := kind_takeUntil [.newline] (settle input).rest
    rwa [List.mem_cons, List.mem_singleton] at huntil

/-! The loop without its count -/

/-- Each round that another one follows takes a token. -/
def Progresses (choose : List Lexeme → Step) : Prop :=
  ∀ input inner, choose input = .again inner → (inner input).rest.length < input.length

theorem loopFor_succ (choose : List Lexeme → Step) (fuel : Nat) (input : List Lexeme) :
    loopFor choose (fuel + 1) input =
      match choose input with
      | .last inner => inner input
      | .again inner => (inner ++ loopFor choose fuel) input := rfl

theorem loopFor_eq_loopFor {choose : List Lexeme → Step} (h : Progresses choose) {fuel : Nat} :
    ∀ (other : Nat) (input : List Lexeme), input.length < fuel → input.length < other →
      loopFor choose fuel input = loopFor choose other input := by
  induction fuel with
  | zero => intro other input hfuel _; omega
  | succ fuel ih =>
      intro other input hfuel hother
      obtain ⟨other, rfl⟩ : ∃ smaller, other = smaller + 1 := ⟨other - 1, by omega⟩
      rw [loopFor_succ, loopFor_succ]
      cases hchoose : choose input with
      | last inner => rfl
      | again inner =>
          have hless := h input inner hchoose
          simp only [andThen_apply, ih other (inner input).rest (by omega) (by omega)]

/-- A loop goes on until its last round. -/
theorem loop_eq {choose : List Lexeme → Step} (h : Progresses choose) (input : List Lexeme) :
    loop choose input =
      match choose input with
      | .last inner => inner input
      | .again inner => (inner ++ loop choose) input := by
  change loopFor choose (input.length + 1) input = _
  rw [loopFor_succ]
  cases hchoose : choose input with
  | last inner => rfl
  | again inner =>
      have hless := h input inner hchoose
      have hcount : loop choose (inner input).rest =
          loopFor choose input.length (inner input).rest :=
        loopFor_eq_loopFor h _ _ (Nat.lt_succ_self _) hless
      simp only [andThen_apply, hcount]

theorem loop_of_last {choose : List Lexeme → Step} (h : Progresses choose) {input : List Lexeme}
    {inner : Rule} (hchoose : choose input = .last inner) : loop choose input = inner input := by
  rw [loop_eq h, hchoose]

theorem loop_of_again {choose : List Lexeme → Step} (h : Progresses choose) {input : List Lexeme}
    {inner : Rule} (hchoose : choose input = .again inner) :
    loop choose input = (inner ++ loop choose) input := by
  rw [loop_eq h, hchoose]

/-- What holds at the last round of a loop and is handed back from each round to the one before
holds of every input. -/
theorem loop_induction {choose : List Lexeme → Step} (h : Progresses choose)
    {motive : List Lexeme → Prop}
    (last : ∀ input inner, choose input = .last inner → motive input)
    (again : ∀ input inner, choose input = .again inner → motive (inner input).rest →
      motive input) (input : List Lexeme) : motive input := by
  induction hlength : input.length using Nat.strongRecOn generalizing input with
  | ind length ih =>
      cases hchoose : choose input with
      | last inner => exact last input inner hchoose
      | again inner =>
          exact again input inner hchoose (ih _ (hlength ▸ h input inner hchoose) _ rfl)

/-! Where the rules of the grammar take a token -/

theorem ne_eof_of_startsExpr {kind : Kind} (h : startsExpr kind = true) : kind ≠ .eof := by
  rintro rfl
  exact absurd h (by decide)

theorem ne_newline_of_startsExpr {kind : Kind} (h : startsExpr kind = true) :
    kind ≠ .newline := by
  rintro rfl
  exact absurd h (by decide)

section Expr

variable {expr : Rule} (hexpr : ∀ input, (expr input).Spells [] input)

include hexpr

theorem length_interpolation_lt (h : kind input ≠ .eof) :
    (interpolation expr input).rest.length < input.length := by
  refine length_node_lt (length_andThen_lt (length_andThen_lt (length_andThen_lt
    (length_andThen_lt (length_andThen_lt (length_take_lt (by rwa [kind_settle]))
      (spells_takeNewlines _)) (hexpr _)) (spells_takeNewlines _)) ?_) (spells_expect _ _))
  exact spells_unlessAt _ (spells_andThen (spells_report _ _)
    (spells_node _ (spells_takeStray _ _)))

theorem progresses_stringStep : Progresses (stringStep expr) := by
  intro input inner hchoose
  cases stringRound_of_eq hchoose with
  | text hkind => exact length_take_lt (by simp [hkind])
  | hole hkind => exact length_interpolation_lt hexpr (by simp [hkind])

theorem length_string_lt (h : kind input ≠ .eof) :
    (string expr input).rest.length < input.length := by
  exact length_node_lt (length_andThen_lt (length_take_lt (by rwa [kind_settle]))
    (spells_loop (spells_stringStep hexpr) _))

omit hexpr in
theorem progresses_listStep {close : Kind} {startsItem : Kind → Bool} {item : Rule}
    {cause : SyntaxError.Cause}
    (hitem : ∀ input, startsItem (kind input) = true →
      (item input).rest.length < input.length) :
    Progresses (listStep close startsItem item cause) := by
  intro input inner hchoose
  cases listRound_of_eq hchoose with
  | newline hkind | comma hkind => exact length_take_lt (by rw [hkind]; decide)
  | item _ hstart => exact hitem input hstart
  | stray hinside hclose hend =>
      refine length_skipTo_lt (fun heof => hend ?_) (by simp [hinside.1, hinside.2, hclose])
      rw [heof]
      decide

theorem length_propertyKey_lt (hword : startsProperty (kind input) = true) :
    (propertyKey expr input).rest.length < input.length := by
  have heof : kind (settle input).rest ≠ .eof := by
    rw [kind_settle]
    rintro heof
    exact absurd (heof ▸ hword) (by decide)
  refine length_node_lt ?_
  unfold ifAt
  split
  · exact length_string_lt hexpr heof
  · exact length_takeAs_lt heof

theorem length_property_lt (hword : startsProperty (kind input) = true) :
    (property expr input).rest.length < input.length := by
  rw [← kind_settle] at hword
  exact length_node_lt (length_andThen_lt (length_andThen_lt (length_propertyKey_lt hexpr hword)
    (spells_propertyValue hexpr _)) (spells_unlessAt _ (spells_skipTo _ _ _)))

theorem progresses_property :
    Progresses (listStep .rBrace startsProperty (property expr) .notAProperty) :=
  progresses_listStep fun _ hword => length_property_lt hexpr hword

omit hexpr in
theorem progresses_arrayItem
    (hless : ∀ input, startsExpr (kind input) = true → (expr input).rest.length < input.length) :
    Progresses (listStep .rBrack startsExpr (node .arrayItem expr) .notAnItem) :=
  progresses_listStep fun input hstart =>
    length_node_lt (hless _ (by rwa [kind_settle]))

omit hexpr in
theorem progresses_arguments
    (hless : ∀ input, startsExpr (kind input) = true → (expr input).rest.length < input.length) :
    Progresses (listStep .rParen startsExpr expr .notAnArgument) :=
  progresses_listStep hless

omit hexpr in
theorem length_list_lt {kind close : Kind} {startsItem : Kind → Bool} {item : Rule}
    {cause : SyntaxError.Cause} (h : Rule.kind input ≠ .eof)
    (hitem : ∀ input, startsItem (Rule.kind input) = true → (item input).Spells [] input) :
    (list kind close startsItem item cause input).rest.length < input.length :=
  length_node_lt (length_andThen_lt (length_take_lt (by rwa [kind_settle]))
    (spells_loop (spells_listStep hitem) _))

theorem length_forExpr_lt (hbracket : kind input = .lBrack)
    (hfor : isWordAt input.tail "for" = true) :
    (forExpr expr input).rest.length < input.length :=
  length_node_lt (length_andThen_lt (length_andThen_lt (length_andThen_lt (length_andThen_lt
    (length_andThen_lt (length_andThen_lt (length_andThen_lt (length_andThen_lt
    (length_andThen_lt (length_andThen_lt
    (length_take_lt (by rw [kind_settle, hbracket]; decide))
    (spells_takeAs_keyword rfl (kind_eq_of_isWordAt (isWordAt_rest_take hbracket hfor))))
    (spells_loopVariable _)) (spells_inKeyword _)) (hexpr _)) (spells_expect _ _))
    (spells_takeNewlines _)) (hexpr _)) (spells_unlessAt _ (spells_skipTo _ _ _)))
    (spells_takeNewlinesBefore _ _)) (spells_expect _ _))

theorem length_primary_lt (hstart : startsExpr (kind input) = true)
    (hbang : kind input ≠ .bang) (hminus : kind input ≠ .minus) :
    (primary expr input).rest.length < input.length := by
  have heof := ne_eof_of_startsExpr hstart
  have htake : (take (settle input).rest).rest.length < (settle input).rest.length :=
    length_take_lt (by rwa [kind_settle])
  obtain ⟨rule, hrule, heq⟩ := exists_primary expr input
  rw [heq]
  cases hrule with
  | literal => exact length_node_lt htake
  | string => exact length_string_lt hexpr heof
  | object => exact length_list_lt heof fun _ hword => spells_property hexpr hword
  | loop hbracket hfor => exact length_forExpr_lt hexpr hbracket hfor
  | array => exact length_list_lt heof fun _ _ => spells_node _ (hexpr _)
  | paren =>
      exact length_node_lt (length_andThen_lt (length_andThen_lt (length_andThen_lt
        (length_andThen_lt htake (spells_takeNewlines _)) (hexpr _))
        (spells_takeNewlinesBefore _ _)) (spells_expect _ _))
  | word => exact length_node_lt (length_takeAs_lt (by rwa [kind_settle]))
  | absent hword hother => simp_all [startsExpr]

end Expr

/-- Where an expression can start, the rules of a level take a token. -/
structure Level.Progresses (level : Level) : Prop where
  expr : ∀ input, startsExpr (kind input) = true →
    (level.expr input).rest.length < input.length
  unary : ∀ input, startsExpr (kind input) = true →
    (level.unary input).rest.length < input.length

namespace Level

variable {below : Level}

theorem length_binary_lt (hspells : below.Spells) (h : below.Progresses) (least : Nat)
    (hstart : startsExpr (kind input) = true) :
    (below.binary least input).rest.length < input.length := by
  rw [← length_settle input]
  exact Nat.lt_of_le_of_lt (hspells.operators _ _ _).length_le
    (h.unary _ (by rwa [kind_settle]))

theorem length_ternary_lt (hspells : below.Spells) (h : below.Progresses)
    (hstart : startsExpr (kind input) = true) :
    (below.ternary input).rest.length < input.length := by
  have hbinary := length_binary_lt hspells h 1 (by rwa [kind_settle] :
    startsExpr (kind (settle input).rest) = true)
  rw [length_settle] at hbinary
  exact Nat.lt_of_le_of_lt (hspells.choice _ _).length_le hbinary

theorem progresses_above {below : Option Level} (hspells : ∀ level ∈ below, level.Spells)
    (h : ∀ level ∈ below, level.Progresses) : (above below).Progresses := by
  have hall := spells_above hspells
  constructor
  · intro input hstart
    cases below with
    | none => exact length_tooDeep_lt (ne_eof_of_startsExpr hstart) (ne_newline_of_startsExpr hstart)
    | some level => exact length_ternary_lt (hspells level rfl) (h level rfl) hstart
  · intro input hstart
    rw [unary_above]
    split
    · cases below with
      | none =>
          exact length_tooDeep_lt (ne_eof_of_startsExpr hstart) (ne_newline_of_startsExpr hstart)
      | some level =>
          exact length_node_lt (length_andThen_lt
            (length_take_lt (by rw [kind_settle]; exact ne_eof_of_startsExpr hstart))
            ((hspells level rfl).unary _))
    · rename_i hprefix
      rw [not_or] at hprefix
      rw [← length_settle input]
      exact Nat.lt_of_le_of_lt (hall.links _ _).length_le (length_primary_lt hall.expr
        (by rwa [kind_settle]) (by rw [kind_settle]; exact hprefix.1)
        (by rw [kind_settle]; exact hprefix.2))

end Level

theorem progresses_level (budget : Nat) : (level budget).Progresses :=
  level_induction (fun _ hbelow known => Level.progresses_above (known spells_level) hbelow) budget

/-! The rules of documents -/

theorem progresses_decoratorStep : Progresses decoratorStep := by
  intro input inner hchoose
  cases decoratorRound_of_eq hchoose with
  | decorator hkind =>
      refine length_andThen_lt (length_andThen_lt (length_node_lt (length_andThen_lt
        (length_take_lt (by rw [kind_settle, hkind]; decide)) ?_))
        (spells_unlessAt _ (spells_skipTo _ _ _))) (spells_takeNewlines _)
      exact spells_ifAt (fun _ => (spells_level maxDepth).chain _) (fun _ => spells_absent _ _)

theorem length_undecorated_lt {decorators : List Tree} (heof : kind input ≠ .eof)
    (hline : kind input ≠ .newline) :
    (undecorated decorators input).rest.length < input.length := by
  obtain ⟨rule, hrule, heq⟩ := exists_undecorated decorators input
  rw [heq]
  cases hrule with
  | declaration =>
      exact length_andThen_lt (Nat.lt_of_le_of_lt (spells_header _ _).length_le
        (length_takeAs_lt heof)) (spells_endDeclaration _)
  | alone _ _ hend => exact absurd hend heof
  | stray =>
      have hskip : (skipTo [.newline] .notADeclaration input).rest.length < input.length :=
        length_skipTo_lt heof (by simpa using hline)
      exact hskip

theorem length_declaration_lt (heof : kind input ≠ .eof) (hline : kind input ≠ .newline) :
    (declaration input).rest.length < input.length := by
  rw [← length_settle input]
  rw [← kind_settle] at heof hline
  change (undecorated _ (loop decoratorStep (settle input).rest).rest).rest.length < _
  cases hchoose : decoratorStep (settle input).rest with
  | again inner =>
      rw [loop_of_again progresses_decoratorStep hchoose]
      exact Nat.lt_of_le_of_lt (Nat.le_trans (spells_undecorated _ _).length_le
        (spells_loop spells_decoratorStep _).length_le) (progresses_decoratorStep _ _ hchoose)
  | last inner =>
      rw [loop_of_last progresses_decoratorStep hchoose]
      cases decoratorRound_of_eq hchoose with
      | done => exact length_undecorated_lt heof hline

theorem progresses_documentStep : Progresses documentStep := by
  intro input inner hchoose
  cases documentRound_of_eq hchoose with
  | newline hkind => exact length_take_lt (by simp [hkind])
  | declaration heof hline => exact length_declaration_lt heof hline

end Rule

end Caret
