import Caret.Proofs.Lexer.Comments
import Caret.Proofs.Lexer.Constructs

/-!
# Tokens in front of a change

A token depends on the characters after it by a glance at the next few alone. Where a text is
changed from a place on, the tokens in front of that place stay as they are if these glances see the
same as before, or a blank where one ends the token just as well.
-/

namespace Caret

/-- The kinds of the tokens that more than one character of punctuation can make. -/
def Kind.splits : Kind → Bool
  | newline | eqEq | bangEq | ltEq | gtEq | ampAmp | pipePipe | questionQuestion => true
  | _ => false

/-- What is left of such a token behind its first character. -/
def Kind.half : Kind → Kind
  | eqEq => eq
  | bangEq => bang
  | ltEq => lt
  | gtEq => gt
  | ampAmp | pipePipe => errorToken
  | questionQuestion => question
  | kind => kind

namespace Lexer

variable {modes modes' : List Mode} {multiline : Bool} {c : Char} {cs left right right' : List Char}

/-- A comment that is closed is closed in front of anything. -/
theorem beforeCommentEnd_append {count : Nat}
    (h : beforeCommentEnd (left ++ right) = some count) (hle : count + 2 ≤ left.length) :
    beforeCommentEnd (left ++ right') = some count := by
  induction left generalizing count with
  | nil => simp at hle
  | cons c cs ih =>
      cases cs with
      | nil => simp at hle
      | cons d cs =>
          rw [List.cons_append, List.cons_append, beforeCommentEnd] at h ⊢
          split at h
          · rename_i hend
            rw [if_pos hend]
            exact h
          · rename_i hend
            rw [if_neg hend]
            obtain ⟨before, hbefore, rfl⟩ := Option.map_eq_some_iff.1 h
            have hrest : beforeCommentEnd (d :: (cs ++ right')) = some before :=
              ih hbefore (by simpa using hle)
            rw [hrest]
            rfl

/-- What the lexer sees of the characters after a token. -/
structure Alike (right right' : List Char) : Prop where
  head : right'.head? = right.head?
  ne_nil : right ≠ []
  hole : opensHole right' = opensHole right
  quotes : ∀ left, startsTripleQuote (left ++ right') = startsTripleQuote (left ++ right)

theorem startsTripleQuote_cons (a b d : Char) (cs : List Char) :
    startsTripleQuote (a :: b :: d :: cs) = (a = '\x27' && b = '\x27' && d = '\x27') := by
  unfold startsTripleQuote
  split
  · rename_i heq
    simp only [List.cons.injEq] at heq
    obtain ⟨rfl, rfl, rfl, -⟩ := heq
    rfl
  · rename_i hne
    rw [eq_comm, ← Bool.not_eq_true]
    intro h
    simp only [Bool.and_eq_true, decide_eq_true_eq] at h
    obtain ⟨⟨rfl, rfl⟩, rfl⟩ := h
    exact hne _ rfl

theorem Alike.head_append (h : Alike right right') (left : List Char) :
    (left ++ right').head? = (left ++ right).head? := by
  cases left with
  | nil => exact h.head
  | cons c cs => rfl

theorem Alike.hole_append (h : Alike right right') (left : List Char) :
    opensHole (left ++ right') = opensHole (left ++ right) := by
  cases left with
  | nil => exact h.hole
  | cons c cs =>
      rw [List.cons_append, List.cons_append, opensHole_cons, opensHole_cons, h.head_append]

theorem Alike.append (h : Alike right right') (left : List Char) :
    Alike (left ++ right) (left ++ right') :=
  ⟨h.head_append left, by simp [h.ne_nil], h.hole_append left, fun before => by
    rw [← List.append_assoc, ← List.append_assoc, h.quotes]⟩

/-- Characters that begin alike, with no quote, and that both open a hole or neither. -/
theorem alike_of_head {d : Char} {more more' : List Char} (hquote : d ≠ '\x27')
    (hhole : opensHole (d :: more') = opensHole (d :: more)) : Alike (d :: more) (d :: more') := by
  refine ⟨rfl, by simp, hhole, fun left => ?_⟩
  match left with
  | [] => simp [startsTripleQuote, hquote]
  | [a] => simp [startsTripleQuote, hquote]
  | [a, b] => simp [startsTripleQuote_cons]
  | a :: b :: e :: rest => simp [startsTripleQuote_cons]

theorem Alike.closesBody_cons (h : Alike right right') (multiline : Bool) (c : Char)
    (cs : List Char) :
    closesBody multiline (c :: (cs ++ right')) = closesBody multiline (c :: (cs ++ right)) := by
  unfold closesBody
  cases multiline with
  | false => rfl
  | true => exact h.quotes (c :: cs)

theorem Alike.hole_cons (h : Alike right right') (c : Char) (cs : List Char) :
    opensHole (c :: (cs ++ right')) = opensHole (c :: (cs ++ right)) := h.hole_append (c :: cs)

theorem textLength_cons (multiline : Bool) (c : Char) (cs : List Char) :
    textLength multiline (c :: cs) =
      if closesBody multiline (c :: cs) || opensHole (c :: cs) then 0
      else if c = '\\' && !multiline then
        match cs with
        | [] => 1
        | _ :: rest => textLength multiline rest + 2
      else textLength multiline cs + 1 := by
  exact textLength.eq_def _ _

theorem textLength_eq_zero (h : closesBody multiline cs = true ∨ opensHole cs = true) :
    textLength multiline cs = 0 := by
  cases cs with
  | nil => rfl
  | cons c cs => rw [textLength_cons, if_pos (by simpa using h)]

theorem textLength_pos (hclose : closesBody multiline (c :: cs) = false)
    (hhole : opensHole (c :: cs) = false) : 0 < textLength multiline (c :: cs) := by
  rw [textLength_cons, if_neg (by simp [hclose, hhole])]
  split
  · split <;> omega
  · omega

/-- The text of a string ends in front of characters that end it or open a hole in it. -/
theorem textLength_alike (h : Alike right right')
    (hlength : textLength multiline (left ++ right) = left.length) :
    textLength multiline (left ++ right') = left.length := by
  induction hcount : left.length using Nat.strongRecOn generalizing left with
  | ind count ih =>
      subst hcount
      cases left with
      | nil =>
          rw [List.nil_append] at hlength ⊢
          have hclose : closesBody multiline right' = closesBody multiline right := by
            unfold closesBody
            cases multiline with
            | false => simp [h.head]
            | true => exact h.quotes []
          obtain ⟨d, more, rfl⟩ := List.exists_cons_of_ne_nil h.ne_nil
          refine textLength_eq_zero ?_
          rw [hclose, h.hole]
          by_contra hneither
          rw [not_or, Bool.not_eq_true, Bool.not_eq_true] at hneither
          have hpos := textLength_pos hneither.1 hneither.2
          rw [hlength] at hpos
          exact absurd hpos (by decide)
      | cons c cs =>
          rw [List.cons_append, textLength_cons] at hlength ⊢
          rw [h.hole_cons, h.closesBody_cons]
          split
          · rename_i hend
            rw [if_pos hend] at hlength
            exact hlength
          · rename_i hend
            rw [if_neg hend] at hlength
            split
            · rename_i hescape
              rw [if_pos hescape] at hlength
              cases cs with
              | nil =>
                  obtain ⟨d, more, rfl⟩ := List.exists_cons_of_ne_nil h.ne_nil
                  simp at hlength
              | cons d cs =>
                  dsimp only [List.cons_append] at hlength ⊢
                  have hless : cs.length < (c :: d :: cs).length := by
                    simp only [List.length_cons]
                    omega
                  exact congrArg (· + 2) (ih cs.length hless (by simpa using hlength) rfl)
            · rename_i hescape
              rw [if_neg hescape] at hlength
              have hrest := ih cs.length (by simp) (by simpa using hlength) rfl
              rw [hrest]
              rfl

/-- The rule that cuts a token out of the body of a string does so in front of characters that look
alike. -/
theorem BodyCut.alike {outer : List Mode} {next : Cut}
    (hcut : BodyCut multiline outer c (cs ++ right) next) (hextra : next.extra = cs.length)
    (h : Alike right right') : BodyCut multiline outer c (cs ++ right') next := by
  generalize hall : cs ++ right = all at hcut
  cases hcut with
  | quote => exact .quote outer _
  | quotes _ rest =>
      have hsplit : cs ++ right = ['\x27', '\x27'] ++ rest := hall
      obtain ⟨rfl, rfl⟩ := List.append_inj hsplit hextra.symm
      exact .quotes outer right'
  | hole _ _ rest =>
      have hsplit : cs ++ right = ['\x7b'] ++ rest := hall
      obtain ⟨rfl, rfl⟩ := List.append_inj hsplit hextra.symm
      exact .hole multiline outer right'
  | text hcloses hopens =>
      subst hall
      have hpos := textLength_pos hcloses hopens
      have hlength : textLength multiline ((c :: cs) ++ right) = (c :: cs).length := by
        rw [List.cons_append, List.length_cons]
        dsimp only at hextra
        omega
      have hlength' : textLength multiline (c :: (cs ++ right')) = (c :: cs).length :=
        textLength_alike h hlength
      rw [List.cons_append] at hlength
      rw [hlength, ← hlength']
      refine .text ?_ ?_
      · rw [h.closesBody_cons, hcloses]
      · rw [h.hole_cons, hopens]

/-- What ends a token of the given kind does so in front of other characters, too. No token but a
newline tells one line break from another. -/
structure Ends (kind : Kind) (c : Char) (right right' : List Char) : Prop where
  head : ∀ test : Char → Bool, (test ' ' = false ∨ kind = .whitespace ∨ kind = .lineComment) →
    (c ≠ '\r' → test '\r' = test '\n') →
    (∀ d ∈ right.head?, test d = false) → ∀ d ∈ right'.head?, test d = false
  quotes : startsTripleQuote (c :: right') = true → startsTripleQuote (c :: right) = true

theorem Symbol.of_ends {kind : Kind} {extra : Nat} (hcut : Symbol c (cs ++ right) kind extra)
    (hextra : extra = cs.length) (h : Ends kind c right right') :
    Symbol c (cs ++ right') kind extra := by
  generalize hall : cs ++ right = all at hcut
  cases hcut with
  | sign _ hsign => exact .sign _ hsign
  | @pair operator rest hoperator =>
      have hsplit : cs ++ right = [operator.second] ++ rest := hall
      obtain ⟨rfl, rfl⟩ := List.append_inj hsplit hextra.symm
      exact .pair right' hoperator
  | @alone operator _ hoperator hhead =>
      obtain rfl : cs = [] := List.eq_nil_of_length_eq_zero hextra.symm
      subst hall
      refine .alone hoperator fun hhead' => ?_
      obtain ⟨hblank, hbreak⟩ := (by decide : ∀ operator ∈ operators, operator.second ≠ ' ' ∧
        (operator.first ≠ '\r' → '\r' ≠ operator.second ∧ '\n' ≠ operator.second)) _ hoperator
      have hnext : ∀ d ∈ right.head?, decide (d = operator.second) = false := by
        intro d hd
        rw [decide_eq_false_iff_not]
        rintro rfl
        exact hhead hd
      have hsecond := h.head (fun d => d = operator.second) (.inl (by simpa using hblank.symm))
        (fun hc => by simp [hbreak hc]) hnext operator.second hhead'
      simp at hsecond

theorem Ends.countWhile_eq {kind : Kind} {test : Char → Bool} (h : Ends kind c right right')
    (htest : test ' ' = false ∨ kind = .whitespace ∨ kind = .lineComment)
    (hbreak : test '\r' = test '\n')
    (hcount : countWhile test (cs ++ right) = cs.length) :
    countWhile test (cs ++ right') = countWhile test (cs ++ right) := by
  obtain ⟨hall, hnext⟩ := countWhile_of_append hcount
  rw [countWhile_append hall (h.head test htest (fun _ => hbreak) hnext), hcount]

theorem slash_of_ends (hslash : ∀ d ∈ right.head?, d ≠ '/' ∧ d ≠ '*')
    (h : Ends .slash c right right') : ∀ d ∈ right'.head?, d ≠ '/' ∧ d ≠ '*' := by
  have hnext := h.head (fun d => d = '/' || d = '*') (.inl (by decide))
    (fun _ => rfl) (by simpa using hslash)
  simpa using hnext

/-- The rule that cuts a token out of code does so in front of other characters that end it. -/
theorem CodeCut.of_ends {next : Cut} (hcut : CodeCut modes c (cs ++ right) next)
    (hextra : next.extra = cs.length) (h : Ends next.kind c right right')
    (hterminated : right ≠ [] ∨ next.unterminated = false) :
    CodeCut modes c (cs ++ right') next := by
  generalize hall : cs ++ right = all at hcut
  cases hcut with
  | blanks hblank =>
      subst hall
      rw [← h.countWhile_eq (.inr (.inl rfl)) rfl hextra]
      exact .blanks hblank
  | symbol hsymbol =>
      subst hall
      exact .symbol (hsymbol.of_ends hextra h)
  | lineComment modes rest =>
      cases cs with
      | nil => simp [countWhile, isLineBreak] at hextra
      | cons d cs =>
          obtain ⟨rfl, rfl⟩ := List.cons.inj hall
          have hlength : countWhile (fun d => !isLineBreak d) (('/' :: cs) ++ right) =
              ('/' :: cs).length := hextra
          have hcount := h.countWhile_eq (.inr (.inr rfl)) rfl hlength
          rw [List.cons_append, List.cons_append] at hcount
          rw [List.append_eq, ← hcount]
          exact .lineComment modes (cs ++ right')
  | @blockComment _ rest count hend =>
      cases cs with
      | nil => cases hextra
      | cons d cs =>
          obtain ⟨rfl, rfl⟩ := List.cons.inj hall
          have hle : count + 2 ≤ cs.length := Nat.le_of_eq (Nat.succ.inj hextra)
          exact .blockComment (beforeCommentEnd_append hend hle)
  | @openComment _ rest hend =>
      have hlength := congrArg List.length hall
      have hlength' : rest.length + 1 = cs.length := hextra
      rw [List.length_append, List.length_cons] at hlength
      rcases hterminated with hne | hterminated
      · exact absurd (List.eq_nil_of_length_eq_zero (by omega)) hne
      · cases hterminated
  | slash hnext =>
      obtain rfl : cs = [] := List.eq_nil_of_length_eq_zero hextra.symm
      subst hall
      exact .slash (slash_of_ends hnext h)
  | quotes _ rest =>
      have hsplit : cs ++ right = ['\x27', '\x27'] ++ rest := hall
      obtain ⟨rfl, rfl⟩ := List.append_inj hsplit hextra.symm
      exact .quotes modes right'
  | quote htriple =>
      obtain rfl : cs = [] := List.eq_nil_of_length_eq_zero hextra.symm
      subst hall
      refine .quote (Bool.eq_false_iff.2 fun htriple' => ?_)
      rw [List.nil_append, h.quotes htriple'] at htriple
      cases htriple
  | openBrace => exact .openBrace modes _
  | endHole => exact .endHole _ _
  | closeBrace => exact .closeBrace _ _ _
  | looseBrace _ hloose => exact .looseBrace _ hloose
  | digits hdigit =>
      subst hall
      rw [← h.countWhile_eq (.inl rfl) rfl hextra]
      exact .digits hdigit
  | word hstart =>
      subst hall
      have hlength : countWhile Identifier.continuesWith (cs ++ right) = cs.length := hextra
      have hcount := h.countWhile_eq (.inl rfl) (by decide) hlength
      have htake : (cs ++ right).take (countWhile Identifier.continuesWith (cs ++ right)) =
          (cs ++ right').take (countWhile Identifier.continuesWith (cs ++ right')) := by
        rw [hcount, hlength, List.take_left, List.take_left]
      rw [htake, ← hcount]
      exact .word hstart
  | stray hc hblank hdigit hstart => exact .stray hc hblank hdigit hstart

theorem Alike.ends (h : Alike right right') (kind : Kind) (c : Char) : Ends kind c right right' :=
  ⟨fun _ _ _ hnext d hd => hnext d (by rwa [← h.head]), fun htriple =>
    (h.quotes [c]).symm.trans htriple⟩

/-- A token is the same in front of characters that look alike. -/
theorem cut_alike (h : Alike right right')
    (hextra : (cut modes c (cs ++ right)).extra = cs.length) :
    cut modes c (cs ++ right') = cut modes c (cs ++ right) := by
  refine TokenCut.eq ?_
  cases tokenCut modes c (cs ++ right) with
  | body hcut => exact .body (hcut.alike hextra h)
  | code hcode hcut => exact .code hcode (hcut.of_ends hextra (h.ends _ c) (.inl h.ne_nil))

/-- Cutting goes on from the tokens in front of a place as from nothing, and does so with other
characters behind it that look alike. -/
theorem exists_modes_of_cutLeaves {all : List Char} {before after : List (Kind × String)}
    (hnested : Nested modes) (h : cutLeaves modes all = before ++ after) :
    ∃ rest modes', all = spelling before ++ rest ∧ Nested modes' ∧
      modes'.map Mode.construct =
        Construct.behind (modes.map Mode.construct) (before.map Prod.fst) ∧
      cutLeaves modes' rest = after ∧ ∀ rest', Alike rest rest' →
        cutLeaves modes (spelling before ++ rest') = before ++ cutLeaves modes' rest' := by
  induction before generalizing modes all with
  | nil => exact ⟨all, modes, rfl, hnested, rfl, h, fun _ _ => rfl⟩
  | cons first before ih =>
      cases all with
      | nil => simp [cutLeaves_nil] at h
      | cons c cs =>
          rw [cutLeaves_cons, List.cons_append] at h
          obtain ⟨hfirst, hrest⟩ := List.cons.inj h
          obtain ⟨rest, modes', hsplit, hnested', hopen, hafter, hcut⟩ :=
            ih (continues_cut hnested c cs).nested hrest
          have hopen' : modes'.map Mode.construct =
              Construct.behind (modes.map Mode.construct) ((first :: before).map Prod.fst) := by
            rw [hopen, (tokenCut modes c cs).construct, ← hfirst]
            rfl
          generalize hextra : (cut modes c cs).extra = extra at hfirst hrest hsplit hcut
          have hle : extra ≤ cs.length := hextra ▸ extra_cut_le modes c cs
          have hcs : cs = cs.take extra ++ (spelling before ++ rest) := by
            rw [← hsplit, List.take_append_drop]
          have hspelling : spelling (first :: before) = c :: cs.take extra ++ spelling before := by
            rw [← hfirst]
            simp [spelling]
          have hlength : (cs.take extra).length = extra := List.length_take_of_le hle
          refine ⟨rest, modes', ?_, hnested', hopen', hafter, fun rest' halike => ?_⟩
          · rw [hspelling, List.append_assoc, List.cons_append, ← hcs]
          · have hsame : cut modes c (cs.take extra ++ (spelling before ++ rest')) =
                cut modes c cs := by
              conv_rhs => rw [hcs]
              refine cut_alike (halike.append _) ?_
              rw [← hcs, hlength, hextra]
            rw [hspelling, List.append_assoc, List.cons_append, cutLeaves_cons, hsame, hextra,
              List.drop_left' hlength, List.take_left' hlength, ← hfirst,
              hcut rest' halike]
            rfl

/-! A name that is put behind a token -/

variable {name : String}

/-- A word that goes on no further is one token, reserved or not. -/
theorem cutLeaves_word (hcode : isInBody modes = false) {c : Char} {cs rest : List Char}
    (hlist : name.toList = c :: cs) (hstart : Identifier.startsWith c = true)
    (hall : cs.all Identifier.continuesWith = true)
    (hrest : ∀ d ∈ rest.head?, Identifier.continuesWith d = false) :
    cutLeaves modes (name.toList ++ rest) =
      ((Kind.ofReserved name).getD .ident, name) :: cutLeaves modes rest := by
  have hcount : countWhile Identifier.continuesWith (cs ++ rest) = cs.length :=
    countWhile_append (List.all_eq_true.1 hall) hrest
  have hword : String.ofList (c :: cs) = name := by rw [← hlist, String.ofList_toList]
  rw [hlist, List.cons_append, cutLeaves_cons, cut_of_not_isInBody hcode,
    cutCode_of_startsWith modes _ hstart]
  dsimp only
  rw [hcount, List.take_left, List.drop_left, hword]

/-- A valid name that goes on no further is an identifier. -/
theorem cutLeaves_ident (hname : Identifier.isValid name = true) (hcode : isInBody modes = false)
    {rest : List Char} (hrest : ∀ d ∈ rest.head?, Identifier.continuesWith d = false) :
    cutLeaves modes (name.toList ++ rest) = (.ident, name) :: cutLeaves modes rest := by
  unfold Identifier.isValid at hname
  rw [Bool.and_eq_true, Option.isNone_iff_eq_none] at hname
  obtain ⟨hchars, hreserved⟩ := hname
  cases hlist : name.toList with
  | nil => simp [hlist] at hchars
  | cons c cs =>
      simp only [hlist, Bool.and_eq_true] at hchars
      rw [← hlist, cutLeaves_word hcode hlist hchars.1 hchars.2 hrest, hreserved]
      rfl

/-- A name that a blank follows is an identifier. -/
theorem cutLeaves_name (hname : Identifier.isValid name = true) (hcode : isInBody modes = false)
    (rest : List Char) :
    cutLeaves modes (name.toList ++ ' ' :: rest) =
      (.ident, name) :: cutLeaves modes (' ' :: rest) :=
  cutLeaves_ident hname hcode (by simp; decide)

theorem cutLeaves_blanks (hcode : isInBody modes = false) {blanks rest : List Char}
    (hne : blanks ≠ []) (hall : ∀ c ∈ blanks, isBlank c = true)
    (hrest : ∀ c ∈ rest.head?, isBlank c = false) :
    cutLeaves modes (blanks ++ rest) =
      (.whitespace, String.ofList blanks) :: cutLeaves modes rest := by
  obtain ⟨c, cs, rfl⟩ := List.exists_cons_of_ne_nil hne
  have hcount : countWhile isBlank (cs ++ rest) = cs.length :=
    countWhile_append (fun d hd => hall d (List.mem_cons_of_mem _ hd)) hrest
  have hcut : cutCode modes c (cs ++ rest) =
      { kind := .whitespace, extra := countWhile isBlank (cs ++ rest), modes := modes } := by
    have hblank := hall c List.mem_cons_self
    simp only [isBlank, Bool.or_eq_true, decide_eq_true_eq] at hblank
    rcases hblank with rfl | rfl <;> rfl
  rw [List.cons_append, cutLeaves_cons, cut_of_not_isInBody hcode, hcut]
  dsimp only
  rw [hcount, List.take_left, List.drop_left]

theorem not_isBlank_of_startsWith (h : Identifier.startsWith c = true) : isBlank c = false := by
  rw [← Bool.not_eq_true]
  intro hblank
  simp only [isBlank, Bool.or_eq_true, decide_eq_true_eq] at hblank
  rcases hblank with rfl | rfl <;> exact absurd h (by decide)

theorem not_isBlank_head_name (hname : Identifier.isValid name = true) (rest : List Char) :
    ∀ c ∈ (name.toList ++ rest).head?, isBlank c = false := by
  unfold Identifier.isValid at hname
  rw [Bool.and_eq_true] at hname
  cases hlist : name.toList with
  | nil => simp [hlist] at hname
  | cons c cs =>
      simp only [hlist, Bool.and_eq_true] at hname
      intro d hd
      cases hd
      exact not_isBlank_of_startsWith hname.1.1

/-- Blanks and a name, behind blanks. -/
theorem cutLeaves_insert_blanks (hname : Identifier.isValid name = true)
    (hcode : isInBody modes = false) {blanks rest : List Char}
    (hall : ∀ c ∈ blanks, isBlank c = true)
    (hrest : ∀ d ∈ rest.head?, Identifier.continuesWith d = false) :
    cutLeaves modes (blanks ++ ' ' :: (name.toList ++ rest)) =
      (.whitespace, String.ofList (blanks ++ [' '])) :: (.ident, name) :: cutLeaves modes rest := by
  have hblanks := cutLeaves_blanks hcode (by simp : blanks ++ [' '] ≠ []) (by
      intro c hc
      rcases List.mem_append.1 hc with hc | hc
      · exact hall c hc
      · obtain rfl := List.mem_singleton.1 hc
        rfl) (not_isBlank_head_name hname rest)
  rw [cutLeaves_ident hname hcode hrest] at hblanks
  simpa using hblanks

/-- The kinds of tokens of code that end in front of a blank and leave no string open. -/
def endsInCode : Kind → Bool
  | .whitespace | .lineComment | .stringStart | .stringText | .stringEnd | .interpEnd
  | .errorToken => false
  | _ => true

theorem isInBody_modes_cut (hnested : Nested modes)
    (hkind : endsInCode (cut modes c cs).kind = true) :
    isInBody (cut modes c cs).modes = false := by
  rw [← Bool.not_eq_true]
  intro hbody
  have hcontinues := (continues_cut hnested c cs).body hbody
  cases htag : (cut modes c cs).kind <;> simp_all [continuesBody, endsInCode]

theorem ends_blank {kind : Kind} (hkind : endsInCode kind = true) (c : Char)
    (right rest : List Char) : Ends kind c right (' ' :: rest) := by
  refine ⟨fun test htest _ _ d hd => ?_, fun htriple => ?_⟩
  · cases hd
    rcases htest with htest | rfl | rfl
    · exact htest
    · cases hkind
    · cases hkind
  · cases rest with
    | nil => simp [startsTripleQuote] at htriple
    | cons e rest => simp [startsTripleQuote_cons] at htriple

/-- A whole token of code is the same in front of a blank. -/
theorem cut_blank (hextra : (cut modes c (cs ++ right)).extra = cs.length)
    (hkind : endsInCode (cut modes c (cs ++ right)).kind = true)
    (hterminated : right ≠ [] ∨ (cut modes c (cs ++ right)).unterminated = false)
    (rest : List Char) : cut modes c (cs ++ ' ' :: rest) = cut modes c (cs ++ right) := by
  refine TokenCut.eq ?_
  have hcuts := tokenCut modes c (cs ++ right)
  generalize cut modes c (cs ++ right) = next at hcuts hextra hkind hterminated ⊢
  cases hcuts with
  | body hcut =>
      generalize hall : cs ++ right = all at hcut
      cases hcut with
      | hole _ _ rest' =>
          have hsplit : cs ++ right = ['\x7b'] ++ rest' := hall
          obtain ⟨rfl, -⟩ := List.append_inj hsplit hextra.symm
          exact .body (.hole _ _ _)
      | _ => cases hkind
  | code hcode hcut =>
      exact .code hcode (hcut.of_ends hextra (ends_blank hkind c right rest) hterminated)

/-- The first of two characters of punctuation, in front of a blank. -/
theorem CodeCut.half {next : Cut} (h : CodeCut modes c cs next) (hkind : next.kind.splits = true)
    (hextra : next.extra ≠ 0) (rest : List Char) :
    next.extra = 1 ∧
      CodeCut modes c (' ' :: rest) { kind := next.kind.half, extra := 0, modes := modes } := by
  cases h with
  | symbol h =>
      cases h with
      | pair _ hoperator =>
          obtain ⟨hhalf, hblank⟩ := (by decide : ∀ operator ∈ operators,
            operator.pair.half = operator.alone ∧ some ' ' ≠ some operator.second) _ hoperator
          rw [hhalf]
          exact ⟨rfl, .symbol (.alone hoperator hblank)⟩
      | _ => exact absurd rfl hextra
  | word =>
      exact absurd hkind ((by decide : ∀ kind ∈ wordKinds, ¬kind.splits = true) _ (mem_wordKinds _))
  | _ => cases hkind

/-- The kinds of tokens that a name can be put behind or into. -/
def takesName (kind : Kind) : Bool := kind = .whitespace || endsInCode kind

theorem TokenCut.isInBody_of_takesName {next : Cut} (h : TokenCut modes c cs next)
    (hkind : takesName next.kind = true) (hhole : next.kind ≠ .interpStart) :
    isInBody modes = false := by
  cases h with
  | body h =>
      cases h with
      | hole => exact absurd rfl hhole
      | _ => cases hkind
  | code hcode _ => exact hcode

theorem TokenCut.ne_quote {next : Cut} (h : TokenCut modes c cs next)
    (hkind : takesName next.kind = true) : c ≠ '\x27' := by
  cases h with
  | body h =>
      cases h with
      | hole => decide
      | _ => cases hkind
  | code _ h =>
      rintro rfl
      have hstart : (cutCode modes '\x27' cs).kind = .stringStart :=
        (apply_ite Cut.kind _ _ _).trans (ite_self _)
      rw [h.eq] at hstart
      rw [hstart] at hkind
      cases hkind

theorem TokenCut.eq_interpStart {next : Cut} (h : TokenCut modes c cs next) (hc : c = '$')
    (hkind : takesName next.kind = true) : next.kind = .interpStart := by
  cases h with
  | body h =>
      cases h with
      | hole => rfl
      | _ => cases hkind
  | code _ h =>
      subst hc
      have hstray :
          cutCode modes '$' cs = { kind := .errorToken, extra := 0, modes := modes } := rfl
      rw [← h.eq, hstray] at hkind
      cases hkind

/-- Such a token looks alike from its first character on, for the tokens in front of it. -/
theorem TokenCut.alike_of_takesName {next : Cut} {rest rest' : List Char}
    (h : TokenCut modes c cs next) (hkind : takesName next.kind = true)
    (hhole : next.kind = .interpStart → rest'.head? = rest.head?) :
    Alike (c :: rest) (c :: rest') := by
  refine alike_of_head (h.ne_quote hkind) ?_
  rw [opensHole_cons, opensHole_cons]
  by_cases hdollar : c = '$'
  · rw [hhole (h.eq_interpStart hdollar hkind)]
  · simp [hdollar]

/-- Where a token is kept up to some character and a blank follows, the tokens in front of it stay
the same. -/
theorem exists_modes_of_half {all half more : List Char} {before after : List (Kind × String)}
    {kind : Kind} {text : String} (hnested : Nested modes)
    (h : cutLeaves modes all = before ++ (kind, text) :: after)
    (htext : text.toList = half ++ more) (hhalf : half ≠ []) (hkind : takesName kind = true)
    (hhole : kind = .interpStart → more = []) :
    ∃ rest modes', all = spelling before ++ (half ++ more ++ rest) ∧ Nested modes' ∧
      cutLeaves modes' (half ++ more ++ rest) = (kind, text) :: after ∧
      ∀ tail, cutLeaves modes (spelling before ++ (half ++ ' ' :: tail)) =
        before ++ cutLeaves modes' (half ++ ' ' :: tail) := by
  obtain ⟨rest, modes', hall, hnested', -, hrest, hcut⟩ := exists_modes_of_cutLeaves hnested h
  obtain ⟨c, cs, right, rfl, hchars, hextra, rfl, -⟩ := cutLeaves_eq_cons hrest
  obtain ⟨d, half, rfl⟩ := List.exists_cons_of_ne_nil hhalf
  rw [hchars, List.cons_append] at htext
  obtain ⟨rfl, hcs⟩ := List.cons.inj htext
  subst hcs
  refine ⟨right, modes', by simp [hall], hnested', hrest, fun tail => ?_⟩
  refine hcut _ ?_
  refine (tokenCut modes' _ _).alike_of_takesName hkind fun hstart => ?_
  obtain rfl := hhole hstart
  cases half with
  | cons e half => rfl
  | nil =>
      rw [(tokenCut modes' _ _).extra_of_interpStart hstart] at hextra
      cases hextra

theorem TokenCut.isBlank_of_whitespace {next : Cut} (h : TokenCut modes c (cs ++ right) next)
    (hkind : next.kind = .whitespace) (hextra : next.extra = cs.length) :
    isInBody modes = false ∧ ∀ d ∈ c :: cs, isBlank d = true := by
  obtain ⟨hcode, hblank, hcount⟩ := h.of_whitespace hkind
  have hblanks := (countWhile_of_append (hcount.symm.trans hextra)).1
  exact ⟨hcode, List.forall_mem_cons.2 ⟨hblank, hblanks⟩⟩

/-- What stands in front of a name that is put behind the first characters of a token. -/
def leftBefore (kind : Kind) (half more : List Char) : List (Kind × String) :=
  if kind = .whitespace then [(.whitespace, String.ofList (half ++ [' ']))]
  else [(if more = [] then kind else kind.half, String.ofList half), (.whitespace, " ")]

theorem spelling_leftBefore (kind : Kind) (half more : List Char) :
    spelling (leftBefore kind half more) = half ++ [' '] := by
  unfold leftBefore
  split <;> simp [spelling]

/-- A name that is put into white space. -/
theorem cutLeaves_insert_whitespace {half more tail : List Char}
    (hkind : (cut modes c (cs ++ right)).kind = .whitespace)
    (hextra : (cut modes c (cs ++ right)).extra = cs.length) (hsplit : c :: cs = half ++ more)
    (hname : Identifier.isValid name = true)
    (htail : ∀ d ∈ tail.head?, Identifier.continuesWith d = false) :
    cutLeaves modes (half ++ ' ' :: (name.toList ++ tail)) =
      (.whitespace, String.ofList (half ++ [' '])) :: (.ident, name) :: cutLeaves modes tail := by
  obtain ⟨hcode, hall⟩ := (tokenCut modes c (cs ++ right)).isBlank_of_whitespace hkind hextra
  rw [hsplit] at hall
  exact cutLeaves_insert_blanks hname hcode (fun d hd => hall d (List.mem_append_left _ hd)) htail

/-- A name that is put behind a token of code. -/
theorem cutLeaves_insert_behind {tail : List Char} (hnested : Nested modes)
    (hkind : endsInCode (cut modes c (cs ++ right)).kind = true)
    (hextra : (cut modes c (cs ++ right)).extra = cs.length)
    (hterminated : right ≠ [] ∨ (cut modes c (cs ++ right)).unterminated = false)
    (hname : Identifier.isValid name = true)
    (htail : ∀ d ∈ tail.head?, Identifier.continuesWith d = false) :
    cutLeaves modes (c :: cs ++ ' ' :: (name.toList ++ tail)) =
      ((cut modes c (cs ++ right)).kind, String.ofList (c :: cs)) :: (.whitespace, " ") ::
        (.ident, name) :: cutLeaves (cut modes c (cs ++ right)).modes tail := by
  have hcut := cut_blank hextra hkind hterminated (name.toList ++ tail)
  have hcode := isInBody_modes_cut hnested hkind
  have hblanks := cutLeaves_insert_blanks hname hcode (by simp : ∀ d ∈ [], isBlank d = true) htail
  rw [List.nil_append, List.nil_append] at hblanks
  rw [List.cons_append, cutLeaves_cons, hcut, hextra, List.take_left, List.drop_left, hblanks]

/-- A name that is put between two characters of punctuation. -/
theorem cutLeaves_insert_between {tail : List Char} (hcode : isInBody modes = false)
    (hkind : (cut modes c cs).kind.splits = true) (hextra : (cut modes c cs).extra ≠ 0)
    (hname : Identifier.isValid name = true)
    (htail : ∀ d ∈ tail.head?, Identifier.continuesWith d = false) :
    (cut modes c cs).extra = 1 ∧ cutLeaves modes (c :: ' ' :: (name.toList ++ tail)) =
      ((cut modes c cs).kind.half, String.ofList [c]) :: (.whitespace, " ") :: (.ident, name) ::
        cutLeaves modes tail := by
  rw [cut_of_not_isInBody hcode] at hkind hextra ⊢
  obtain ⟨hone, hhalf⟩ := (codeCut modes c cs).half hkind hextra (name.toList ++ tail)
  have hblanks := cutLeaves_insert_blanks hname hcode (by simp : ∀ d ∈ [], isBlank d = true) htail
  rw [List.nil_append, List.nil_append] at hblanks
  refine ⟨hone, ?_⟩
  rw [cutLeaves_cons, cut_of_not_isInBody hcode, hhalf.eq, List.take_zero, List.drop_zero, hblanks]

/-- A block comment that is closed, or that a token follows, does not reach to the end of the text
without a closing. -/
theorem ne_nil_or_terminated (hextra : (cut modes c (cs ++ right)).extra = cs.length)
    (hcomment : (cut modes c (cs ++ right)).kind = .blockComment →
      Locus.isCutOffComment (String.ofList (c :: cs)) = false ∨
        cutLeaves (cut modes c (cs ++ right)).modes right ≠ []) :
    right ≠ [] ∨ (cut modes c (cs ++ right)).unterminated = false := by
  refine or_iff_not_imp_right.2 fun hmarked => ?_
  rw [Bool.not_eq_false] at hmarked
  rintro rfl
  obtain ⟨hkind, hcutOff⟩ := (tokenCut modes c (cs ++ [])).of_unterminated hmarked
  rcases hcomment hkind with hclosed | hafter
  · rw [hextra, List.take_left, hclosed] at hcutOff
    cases hcutOff
  · rw [cutLeaves_nil] at hafter
    exact hafter rfl

/-- A name with a blank in front of it, put behind the first characters of a token, becomes an
identifier if what comes next does not continue it, and what is in front of the token stays as it
is. -/
theorem exists_cutLeaves_insert {all half more : List Char} {before after : List (Kind × String)}
    {kind : Kind} {text : String} (h : cutLeaves [] all = before ++ (kind, text) :: after)
    (htext : text.toList = half ++ more) (hhalf : half ≠ [])
    (hkind : kind = .whitespace ∨ more = [] ∧ endsInCode kind = true ∧
      (kind = .blockComment → Locus.isCutOffComment text = false ∨ after ≠ []) ∨
      more ≠ [] ∧ kind.splits = true)
    (hname : Identifier.isValid name = true) :
    ∃ rest, all = spelling before ++ (half ++ more ++ rest) ∧ ∀ tail : List Char,
      (∀ d ∈ tail.head?, Identifier.continuesWith d = false) → ∃ after',
        cutLeaves [] (spelling before ++ (half ++ ' ' :: (name.toList ++ tail))) =
          before ++ (leftBefore kind half more ++ (.ident, name) :: after') := by
  have htakes : takesName kind = true := by
    rcases hkind with rfl | ⟨-, hends, -⟩ | ⟨-, hsplits⟩
    · rfl
    · simp [takesName, hends]
    · cases kind <;> first | rfl | cases hsplits
  have hhole : kind = .interpStart → more = [] := by
    rintro rfl
    rcases hkind with hkind | ⟨hmore, -⟩ | ⟨-, hsplits⟩
    · cases hkind
    · exact hmore
    · cases hsplits
  obtain ⟨rest, modes, hall, hnested, hrest, hcut⟩ :=
    exists_modes_of_half .nil h htext hhalf htakes hhole
  refine ⟨rest, hall, fun tail htail => ?_⟩
  rw [hcut]
  obtain ⟨c, cs, right, hsplit, hchars, hextra, rfl, rfl⟩ := cutLeaves_eq_cons hrest
  have hcs : c :: cs = half ++ more := hchars.symm.trans htext
  -- The three ways in which the name can stand: between blanks, behind the whole token, or behind
  -- the first of two characters that are a token together.
  rcases hkind with hblank | ⟨rfl, hends, hcomment⟩ | ⟨hmore, hsplits⟩
  · rw [leftBefore, if_pos hblank,
      cutLeaves_insert_whitespace hblank hextra hcs hname htail]
    exact ⟨_, rfl⟩
  · rw [List.append_nil] at hcs
    subst hcs
    rw [← @String.ofList_toList text, hchars] at hcomment
    have hne : (cut modes c (cs ++ right)).kind ≠ .whitespace := fun hblank => by
      rw [hblank] at hends
      cases hends
    rw [leftBefore, if_neg hne, if_pos rfl, cutLeaves_insert_behind hnested hends hextra
      (ne_nil_or_terminated hextra hcomment) hname htail]
    exact ⟨_, rfl⟩
  · obtain ⟨d, half, rfl⟩ := List.exists_cons_of_ne_nil hhalf
    rw [List.cons_append] at hcs
    obtain ⟨rfl, hmiddle⟩ := List.cons.inj hcs
    subst hmiddle
    have hne : (cut modes c (half ++ more ++ right)).kind ≠ .whitespace := fun hblank => by
      rw [hblank] at hsplits
      cases hsplits
    have hcode := (tokenCut modes c _).isInBody_of_takesName htakes fun hstart => by
      rw [hstart] at hsplits
      cases hsplits
    have hlength := List.length_pos_iff.2 hmore
    obtain ⟨hone, hinto⟩ := cutLeaves_insert_between hcode hsplits
      (by rw [hextra, List.length_append]; omega) hname htail
    obtain rfl : half = [] := by
      rw [hone, List.length_append] at hextra
      exact List.eq_nil_of_length_eq_zero (by omega)
    rw [leftBefore, if_neg hne, if_neg hmore, List.singleton_append, hinto]
    exact ⟨_, rfl⟩

end Lexer

end Caret
