import Caret.Proofs.Ast.Declared
import Caret.Proofs.Lexer.Spread

/-!
# Words of programs are cut out of their text

Where the words of a program are written with a blank between each two tokens of code, they are the
tokens that the text is cut into, whatever stands behind them.
-/

namespace Caret

open Lexer

namespace Ast

variable {taken : List String} {multiline : Bool} {text : String} {cs rest : List Char}
  {words : List (Kind × String)}

/-! Texts in strings -/

/-- Characters that the text of a string ends in front of. -/
def EndsText (multiline : Bool) (cs : List Char) : Prop :=
  closesBody multiline cs = true ∨ opensHole cs = true

theorem EndsText.head_ne (h : EndsText true cs) : cs.head? ≠ some '\x7b' := by
  rcases h with hclose | hhole
  · obtain ⟨rest, rfl⟩ := startsTripleQuote_eq_true hclose
    simp
  · cases cs with
    | nil => simp
    | cons c cs =>
        rw [opensHole_cons, Bool.and_eq_true, decide_eq_true_eq] at hhole
        simp [hhole.1]

/-- Three quotes do not start in a text that has none and does not end in a quote. -/
theorem startsTripleQuote_append {c : Char} (hbroken : isUnbroken (c :: cs) = true)
    (hlast : (c :: cs).getLast? ≠ some '\x27') (rest : List Char) :
    startsTripleQuote (c :: (cs ++ rest)) = false := by
  rw [← Bool.not_eq_true]
  intro htriple
  obtain ⟨more, hmore⟩ := startsTripleQuote_eq_true htriple
  obtain ⟨rfl, htail⟩ := List.cons.inj hmore
  match cs with
  | [] => exact hlast rfl
  | [d] =>
      obtain ⟨rfl, -⟩ := List.cons.inj htail
      exact hlast rfl
  | d :: e :: cs =>
      obtain ⟨rfl, hthird⟩ := List.cons.inj htail
      obtain ⟨rfl, -⟩ := List.cons.inj hthird
      cases hbroken

theorem opensHole_append {c : Char} (hbroken : isUnbroken (c :: cs) = true)
    (hend : EndsText true rest) : opensHole (c :: (cs ++ rest)) = false := by
  cases cs with
  | nil => simp [opensHole_cons, hend.head_ne]
  | cons d cs =>
      simp only [isUnbroken, Bool.and_eq_true, Bool.not_eq_true'] at hbroken
      have hhole := hbroken.1.2
      rw [opensHole_cons] at hhole ⊢
      exact hhole

theorem textLength_unbroken (hbroken : isUnbroken cs = true) (hlast : cs.getLast? ≠ some '\x27')
    (hend : EndsText true rest) : textLength true (cs ++ rest) = cs.length := by
  induction cs with
  | nil => exact textLength_eq_zero hend
  | cons c cs ih =>
      have hrest : isUnbroken cs = true := (Bool.and_eq_true_iff.1 hbroken).2
      have hlast' : cs.getLast? ≠ some '\x27' := by
        cases cs with
        | nil => simp
        | cons d cs => exact hlast
      rw [List.cons_append, textLength_cons, closesBody, if_pos rfl,
        startsTripleQuote_append hbroken hlast, opensHole_append hbroken hend, ih hrest hlast']
      simp

/-- A text reaches up to what ends it. -/
theorem textLength_raw (hraw : (!multiline || isRaw text) = true) (hend : EndsText multiline rest) :
    textLength multiline ((raw multiline text).toList ++ rest) =
      (raw multiline text).toList.length := by
  cases multiline with
  | false =>
      rw [raw, if_neg Bool.false_ne_true, Quoted.body, String.toList_ofList]
      exact textLength_escape hend
  | true =>
      simp only [isRaw, Bool.not_true, Bool.false_or, Bool.and_eq_true, decide_eq_true_eq] at hraw
      exact textLength_unbroken hraw.1 hraw.2 hend

/-! Quotes -/

theorem lexesBody_end (multiline : Bool) : LexesBody multiline [(.stringEnd, quotes multiline)] := by
  intro modes rest hcode
  refine cutWords_spread (by simp [hcode]) rfl ?_
  cases multiline with
  | false => exact cutLeaves_endQuote _
  | true => exact cutLeaves_cons _ _ _

theorem endsText_end (multiline : Bool) (words : List (Kind × String)) :
    EndsText multiline (spread ((.stringEnd, quotes multiline) :: words)) := by
  cases multiline <;> exact .inl rfl

theorem endsText_hole (multiline : Bool) (words : List (Kind × String)) :
    EndsText multiline (spread ((.interpStart, "$\x7b") :: words)) := by
  cases multiline <;> exact .inr rfl

/-- A text in single quotes does not start with two more of them. -/
theorem startsTripleQuote_raw (text : String) (h : startsTripleQuote ('\x27' :: rest) = false) :
    startsTripleQuote ('\x27' :: ((raw false text).toList ++ rest)) = false := by
  rw [raw, if_neg Bool.false_ne_true, Quoted.body, String.toList_ofList]
  have hhead := head_escape text.toList
  cases hescaped : text.toList.flatMap Quoted.escape with
  | nil => exact h
  | cons c cs =>
      rw [hescaped] at hhead
      rw [← Bool.not_eq_true]
      intro htriple
      obtain ⟨more, hmore⟩ := startsTripleQuote_eq_true htriple
      exact hhead (by simp_all)

theorem startsTripleQuote_parts (parts : Parts) (words : List (Kind × String)) :
    startsTripleQuote ('\x27' :: spread (parts.words false ++ words)) = false := by
  cases parts with
  | last text =>
      rw [Parts.words, List.append_assoc, spread_textLeaves]
      refine startsTripleQuote_raw text ?_
      have hstops : Stops (gap (.stringEnd, "\x27") words ++ spread words) :=
        stops_gap (by simp) rfl words
      rw [← Bool.not_eq_true]
      intro htriple
      obtain ⟨more, hmore⟩ := startsTripleQuote_eq_true htriple
      have hthird : gap (.stringEnd, "\x27") words ++ spread words = '\x27' :: more :=
        (List.cons.inj (List.cons.inj hmore).2).2
      rw [hthird] at hstops
      exact hstops.head_ne (by decide) (by decide) rfl
  | hole text inner rest =>
      rw [Parts.words, List.append_assoc, spread_textLeaves]
      exact startsTripleQuote_raw text rfl

theorem lexes_string {parts : Parts} (h : LexesBody multiline (parts.words multiline)) :
    Lexes ((.stringStart, quotes multiline) :: parts.words multiline) := by
  intro modes rest hcode
  have hcut : ∀ cs, (multiline = false → startsTripleQuote ('\x27' :: cs) = false) →
      cutLeaves modes ((quotes multiline).toList ++ cs) =
        (.stringStart, quotes multiline) :: cutLeaves (.body multiline :: modes) cs := by
    intro cs hquotes
    cases multiline with
    | false => exact cutLeaves_startQuote hcode (hquotes rfl)
    | true =>
        exact @cutLeaves_code modes (.body true :: modes) '\x27' ['\x27', '\x27'] cs .stringStart
          hcode rfl
  rw [List.cons_append, List.cons_append, ← h rest hcode]
  refine cutWords_spread (fun _ => rfl) rfl (hcut _ fun hquotes => ?_)
  subst hquotes
  rw [gap_of_continuesBody rfl]
  exact startsTripleQuote_parts parts rest

/-! Words and signs -/

theorem lexes_spelled (h : isSpelled text = true) :
    Lexes [((Kind.ofReserved text).getD .ident, text)] := by
  have hplain : ∀ kind : Kind, kind.isWord = true →
      (kind = .newline || continuesBody kind || kind.isTrivia) = false := by
    intro kind hword
    cases kind <;> first | rfl | cases hword
  unfold isSpelled at h
  split at h
  · cases h
  · next c cs hlist =>
      rw [Bool.and_eq_true] at h
      exact (isCut_word hlist h.1 h.2).lexes (hplain _ (Word.kind_mem ⟨text, by
        rw [isSpelled, hlist]
        exact Bool.and_eq_true_iff.2 h⟩).1)

theorem lexes_name (h : Identifier.isValid text = true) : Lexes [(.ident, text)] := by
  have hreserved : Kind.ofReserved text = none :=
    Option.isNone_iff_eq_none.1 (Bool.and_eq_true_iff.1 h).2
  have hword := lexes_spelled (isSpelled_of_isValid h)
  rwa [hreserved] at hword

theorem Constant.lexes (value : Constant) : Lexes [value.leaf] := by
  obtain ⟨text, kind, hvalid⟩ := value
  have hspelled : isSpelled text = true := by
    unfold Kind.ofReserved at hvalid
    split at hvalid <;> first | rfl | cases hvalid
  have hword := lexes_spelled hspelled
  rwa [hvalid] at hword

theorem Digits.lexes (digits : Digits) : Lexes [digits.leaf] :=
  (isCut_digits digits.ne_empty digits.valid).lexes rfl

section Signs

variable {c d : Char} {kind : Kind}
  (hplain : (kind = .newline || continuesBody kind || kind.isTrivia) = false)

include hplain

theorem lexes_sign (htext : text.toList = [c])
    (h : ∀ modes rest, cutCode modes c rest = { kind := kind, extra := 0, modes := modes }) :
    Lexes [(kind, text)] :=
  (isCut_sign (c := c) htext fun modes rest _ => h modes rest).lexes hplain

theorem lexes_pair (htext : text.toList = [c, d])
    (h : ∀ modes rest, cutCode modes c (d :: rest) =
      { kind := kind, extra := 1, modes := modes }) :
    Lexes [(kind, text)] :=
  (isCut_sign (c := c) htext fun modes rest _ => h modes rest).lexes hplain

/-- A sign that can be the first half of a longer one. -/
theorem lexes_half {long : Kind} (htext : text.toList = [c]) (hblank : d ≠ ' ') (hline : d ≠ '\n')
    (h : ∀ modes rest, cutCode modes c rest =
      if rest.head? = some d then { kind := long, extra := 1, modes := modes }
      else { kind := kind, extra := 0, modes := modes }) :
    Lexes [(kind, text)] := (isCut_half htext hblank hline h).lexes hplain

end Signs

theorem lexes_lBrack : Lexes [(.lBrack, "[")] := lexes_sign (c := '[') rfl rfl fun _ _ => rfl

theorem lexes_rBrack : Lexes [(.rBrack, "]")] := lexes_sign (c := ']') rfl rfl fun _ _ => rfl

theorem lexes_lParen : Lexes [(.lParen, "(")] := lexes_sign (c := '(') rfl rfl fun _ _ => rfl

theorem lexes_rParen : Lexes [(.rParen, ")")] := lexes_sign (c := ')') rfl rfl fun _ _ => rfl

theorem lexes_colon : Lexes [(.colon, ":")] := lexes_sign (c := ':') rfl rfl fun _ _ => rfl

theorem lexes_eq : Lexes [(.eq, "=")] :=
  lexes_half (c := '=') (d := '=') rfl rfl (by decide) (by decide) fun _ _ => rfl

theorem Sign.lexes : ∀ sign : Sign, Lexes [sign.leaf]
  | .not => lexes_half (c := '!') (d := '=') rfl rfl (by decide) (by decide) fun _ _ => rfl
  | .minus => lexes_sign (c := '-') rfl rfl fun _ _ => rfl

theorem Separator.lexes : ∀ separator : Separator, Lexes [separator.leaf]
  | .newline => lexes_newline
  | .comma => lexes_sign (c := ',') rfl rfl fun _ _ => rfl

theorem Operator.lexes (operator : Operator) : Lexes [operator.leaf] := by
  obtain ⟨kind, precedence, hvalid⟩ := operator
  cases kind <;> first | (cases hvalid; done) | simp only [leaf, Operator.text]
  case questionQuestion => exact lexes_pair (c := '?') (d := '?') rfl rfl fun _ _ => rfl
  case pipePipe => exact lexes_pair (c := '|') (d := '|') rfl rfl fun _ _ => rfl
  case ampAmp => exact lexes_pair (c := '&') (d := '&') rfl rfl fun _ _ => rfl
  case eqEq => exact lexes_pair (c := '=') (d := '=') rfl rfl fun _ _ => rfl
  case bangEq => exact lexes_pair (c := '!') (d := '=') rfl rfl fun _ _ => rfl
  case ltEq => exact lexes_pair (c := '<') (d := '=') rfl rfl fun _ _ => rfl
  case gtEq => exact lexes_pair (c := '>') (d := '=') rfl rfl fun _ _ => rfl
  case lt => exact lexes_half (c := '<') (d := '=') rfl rfl (by decide) (by decide) fun _ _ => rfl
  case gt => exact lexes_half (c := '>') (d := '=') rfl rfl (by decide) (by decide) fun _ _ => rfl
  case plus => exact lexes_sign (c := '+') rfl rfl fun _ _ => rfl
  case minus => exact lexes_sign (c := '-') rfl rfl fun _ _ => rfl
  case star => exact lexes_sign (c := '*') rfl rfl fun _ _ => rfl
  case percent => exact lexes_sign (c := '%') rfl rfl fun _ _ => rfl
  case slash => exact isCut_slash.lexes rfl

/-! Expressions -/

/-- An expression that is cut into its words where it can be written. -/
def Expr.IsLexed (taken : List String) (expr : Expr) : Prop :=
  expr.isWritable taken = true → Lexes expr.words

theorem Parts.lexes : ∀ {parts : Parts}, parts.All (Expr.IsLexed taken) →
    parts.isWritable taken multiline = true → LexesBody multiline (parts.words multiline)
  | .last text, _, hwritable =>
    (lexesBody_end multiline).textLeaves_append fun rest =>
      textLength_raw hwritable (endsText_end multiline rest)
  | .hole text inner rest, ⟨hinner, hrest⟩, hwritable => by
    simp only [isWritable, Bool.and_eq_true] at hwritable
    have hhole := LexesBody.hole (hinner hwritable.1.2) (Parts.lexes hrest hwritable.2)
    exact hhole.textLeaves_append fun more => textLength_raw hwritable.1.1 (endsText_hole multiline _)

theorem Items.lexes : ∀ {items : Items}, items.All (Expr.IsLexed taken) →
    items.isWritable taken = true → Lexes items.words
  | .nil, _, _ => lexes_nil
  | .one item, hitem, hwritable => hitem hwritable
  | .cons item separator rest, ⟨hitem, hrest⟩, hwritable => by
    simp only [isWritable, Bool.and_eq_true] at hwritable
    exact (hitem hwritable.1).append (separator.lexes.cons (Items.lexes hrest hwritable.2))

theorem Key.lexes : ∀ {key : Key}, key.All (Expr.IsLexed taken) →
    key.isWritable taken = true → Lexes key.words
  | .word name, _, _ => lexes_spelled name.valid
  | .string _ _, hparts, hwritable => lexes_string (Parts.lexes hparts hwritable)

theorem Properties.lexes : ∀ {properties : Properties}, properties.All (Expr.IsLexed taken) →
    properties.isWritable taken = true → Lexes properties.words
  | .nil, _, _ => lexes_nil
  | .one key value, ⟨hkey, hvalue⟩, hwritable => by
    simp only [isWritable, Bool.and_eq_true] at hwritable
    exact (Key.lexes hkey hwritable.1).append (lexes_colon.cons (hvalue hwritable.2))
  | .cons key value separator rest, ⟨⟨hkey, hvalue⟩, hrest⟩, hwritable => by
    simp only [isWritable, Bool.and_eq_true] at hwritable
    have hproperty := (hvalue hwritable.1.2).append
      (separator.lexes.cons (Properties.lexes hrest hwritable.2))
    exact (Key.lexes hkey hwritable.1.1).append (lexes_colon.cons hproperty)

theorem Expr.isLexed (taken : List String) (expr : Expr) : expr.IsLexed taken := by
  induction expr using Expr.induction with
  | step expr ih =>
      intro hwritable
      cases expr with
      | access name => exact lexes_name name.valid
      | integer digits => exact digits.lexes
      | constant value => exact value.lexes
      | string multiline parts => exact lexes_string (Parts.lexes ih hwritable)
      | object properties => exact (Properties.lexes ih hwritable).braces
      | array items =>
          simp only [isWritable, Bool.and_eq_true] at hwritable
          exact lexes_lBrack.cons ((Items.lexes ih hwritable.2).append lexes_rBrack)
      | loop item iterable body =>
          simp only [isWritable, Bool.and_eq_true] at hwritable
          have hbody := (ih.1 hwritable.1.2).append
            (lexes_colon.cons ((ih.2 hwritable.2).append lexes_rBrack))
          have hin : Lexes [(.ident, "in")] := lexes_name (by decide +kernel)
          have hfor : Lexes [(.ident, "for")] := lexes_name (by decide +kernel)
          exact lexes_lBrack.cons (hfor.cons ((lexes_name item.valid).cons (hin.cons hbody)))
      | paren inner => exact lexes_lParen.cons ((ih hwritable).append lexes_rParen)
      | unary sign operand => exact sign.lexes.cons (ih hwritable)
      | binary operator left right =>
          simp only [isWritable, Bool.and_eq_true] at hwritable
          exact (ih.1 hwritable.1).append (operator.lexes.cons (ih.2 hwritable.2))
      | ternary test yes no =>
          simp only [isWritable, Bool.and_eq_true] at hwritable
          have hquestion : Lexes [(.question, "?")] :=
            lexes_half (c := '?') (d := '?') rfl rfl (by decide) (by decide) fun _ _ => rfl
          have hchoice := (ih.2.1 hwritable.1.2).append (lexes_colon.cons (ih.2.2 hwritable.2))
          exact (ih.1 hwritable.1.1).append (hquestion.cons hchoice)
      | member receiver name =>
          have hdot : Lexes [(.dot, ".")] := lexes_sign (c := '.') rfl rfl fun _ _ => rfl
          exact (ih hwritable).append (hdot.cons (lexes_spelled name.valid))
      | index receiver position =>
          simp only [isWritable, Bool.and_eq_true] at hwritable
          exact (ih.1 hwritable.1).append (lexes_lBrack.cons ((ih.2 hwritable.2).append lexes_rBrack))
      | call callee arguments =>
          simp only [isWritable, Bool.and_eq_true] at hwritable
          exact (ih.1 hwritable.1).append
            (lexes_lParen.cons ((Items.lexes ih.2 hwritable.2).append lexes_rParen))

/-! Declarations -/

theorem Decorator.lexes {decorator : Decorator}
    (hwritable : decorator.chain.isWritable taken = true) : Lexes decorator.words := by
  have hsign : Lexes [(.atSign, "@")] := lexes_sign (c := '@') rfl rfl fun _ _ => rfl
  exact hsign.cons ((decorator.chain.isLexed taken hwritable).append lexes_newline)

theorem Declaration.isValid_word (declaration : Declaration) :
    Identifier.isValid declaration.word = true := by
  cases declaration <;> (simp only [word]; decide +kernel)

theorem Declaration.lexes {declaration : Declaration}
    (hwritable : declaration.isWritable taken = true) : Lexes declaration.headerWords := by
  have hvalue : ∀ {value : Expr}, value.isWritable taken = true →
      Lexes ((.eq, "=") :: value.words) :=
    fun {value} h => lexes_eq.cons (value.isLexed taken h)
  have hname : ∀ name : Name, Lexes [name.leaf] := fun name => lexes_name name.valid
  have hparts : ∀ {multiline : Bool} {parts : Parts}, parts.isWritable taken multiline = true →
      Lexes ((.stringStart, quotes multiline) :: parts.words multiline) := fun {_ parts} h =>
    lexes_string (Parts.lexes (Parts.all_of_step (fun expr _ => expr.isLexed taken) parts) h)
  cases declaration with
  | targetScope value => exact hvalue hwritable
  | param name type default =>
      cases default with
      | none => exact (hname name).cons (hname type)
      | some value => exact (hname name).cons ((hname type).cons (hvalue hwritable))
  | var name value => exact (hname name).cons (hvalue hwritable)
  | output name type value => exact (hname name).cons ((hname type).cons (hvalue hwritable))
  | resource name multiline type existing value =>
      simp only [isWritable, Bool.and_eq_true] at hwritable
      have hexisting : Lexes (if existing then [(.ident, "existing")] else []) := by
        cases existing
        · exact lexes_nil
        · exact lexes_name (by decide +kernel)
      exact (hname name).cons
        ((hparts hwritable.1).append (hexisting.append (hvalue hwritable.2)))
  | module name multiline path value =>
      simp only [isWritable, Bool.and_eq_true] at hwritable
      exact (hname name).cons ((hparts hwritable.1).append (hvalue hwritable.2))

theorem Decorated.lexes {decorated : Decorated} (hwritable : decorated.isWritable taken = true) :
    Lexes decorated.words := by
  simp only [isWritable, Bool.and_eq_true, List.all_eq_true] at hwritable
  have hdecorators : ∀ decorators : List Decorator,
      (∀ decorator ∈ decorators, decorator.chain.isWritable taken = true) →
      Lexes (decorators.flatMap Decorator.words) := by
    intro decorators h
    induction decorators with
    | nil => exact lexes_nil
    | cons decorator decorators ih =>
        obtain ⟨hdecorator, hdecorators⟩ := List.forall_mem_cons.1 h
        exact (Decorator.lexes hdecorator).append (ih hdecorators)
  have hword : Lexes [(.ident, decorated.declaration.word)] :=
    lexes_name decorated.declaration.isValid_word
  exact (hdecorators _ hwritable.1).append (hword.cons (Declaration.lexes hwritable.2))

theorem Program.lexes {program : Program} (hwritable : program.isWritable taken = true) :
    Lexes program.words := by
  obtain ⟨declarations⟩ := program
  induction declarations with
  | nil => exact lexes_nil
  | cons decorated declarations ih =>
      simp only [isWritable, List.all_cons, Bool.and_eq_true] at hwritable ih
      cases declarations with
      | nil =>
          rw [words_singleton]
          exact Decorated.lexes hwritable.1
      | cons second declarations =>
          rw [words_cons]
          exact (Decorated.lexes hwritable.1).append (lexes_newline.cons (ih hwritable.2))

end Ast

end Caret
