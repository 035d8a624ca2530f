import Caret.Proofs.Lexer.Breaks
import Caret.Proofs.Lexer.Joins

/-!
# Strings nest

The tokens of a text are strings in code and holes in strings, as a grammar of its own tells it, up
to where the text ends. A string has one quote at both ends, a hole has its braces in pairs, and
between the quotes there is nothing but holes and text. What the lexer keeps open says what is
missing behind the last token: the tokens that close it, and nothing else.
-/

namespace Caret

namespace Kind

/-- The tokens of code that neither open nor close anything. -/
def isInert (kind : Kind) : Bool :=
  kind.isCut && decide
    (kind ∉ [stringStart, stringText, stringEnd, interpStart, interpEnd, lBrace, rBrace])

end Kind

namespace Lexer

/-- The quote that a string starts and ends with. -/
def delimiter (multiline : Bool) : String := if multiline then "\x27\x27\x27" else "\x27"

/-- Whether the character behind some others of a string is escaped: a backslash escapes the next
character, unless it is escaped itself. -/
def escapes (before : List Char) : Bool :=
  before.foldl (fun escaped c => !escaped && decide (c = '\\')) false

/-- A part of the text of a string: nowhere in it, but for what is escaped in a string on one line,
the string ends or a hole is opened. -/
def Fills (multiline : Bool) (text : String) : Prop :=
  ∀ before after, text.toList = before ++ after → (multiline = false → escapes before = false) →
    ¬(delimiter multiline).toList <+: after ∧ ¬"$\x7b".toList <+: after

/-- What tokens stand in. -/
inductive Scope where
  | top
  | hole
  | body (multiline : Bool)
  deriving DecidableEq, Repr

def Scope.isCode : Scope → Bool
  | body _ => false
  | _ => true

/-- Tokens that are complete where they stand: each string and each hole in them has its end, and so
has each brace in a hole. Outside of strings braces need not match. -/
inductive WellNested : Scope → List (Kind × String) → Prop where
  | nil (scope : Scope) : WellNested scope []
  | inert {scope : Scope} {kind : Kind} {text : String} {leaves : List (Kind × String)} :
      scope.isCode = true → kind.isInert = true → WellNested scope leaves →
        WellNested scope ((kind, text) :: leaves)
  | brace {kind : Kind} {text : String} {leaves : List (Kind × String)} :
      kind = .lBrace ∨ kind = .rBrace → WellNested .top leaves →
        WellNested .top ((kind, text) :: leaves)
  | braces {opening closing : String} {inner leaves : List (Kind × String)} :
      WellNested .hole inner → WellNested .hole leaves →
        WellNested .hole ((.lBrace, opening) :: (inner ++ (.rBrace, closing) :: leaves))
  | string {scope : Scope} {multiline : Bool} {inner leaves : List (Kind × String)} :
      scope.isCode = true → WellNested (.body multiline) inner → WellNested scope leaves →
        WellNested scope ((.stringStart, delimiter multiline) ::
          (inner ++ (.stringEnd, delimiter multiline) :: leaves))
  | text {multiline : Bool} {text : String} {leaves : List (Kind × String)} :
      Fills multiline text → (∀ next ∈ leaves.head?, next.1 ≠ .stringText) →
        WellNested (.body multiline) leaves →
          WellNested (.body multiline) ((.stringText, text) :: leaves)
  | hole {multiline : Bool} {opening closing : String} {inner leaves : List (Kind × String)} :
      WellNested .hole inner → WellNested (.body multiline) leaves →
        WellNested (.body multiline)
          ((.interpStart, opening) :: (inner ++ (.interpEnd, closing) :: leaves))

/-! The text of a string -/

variable {modes outer : List Mode} {multiline : Bool} {c : Char} {cs before after : List Char}
  {rest : List (Kind × String)}

theorem startsTripleQuote_iff : startsTripleQuote cs = true ↔ "\x27\x27\x27".toList <+: cs := by
  constructor
  · intro h
    obtain ⟨rest, rfl⟩ := startsTripleQuote_eq_true h
    exact ⟨rest, rfl⟩
  · rintro ⟨rest, rfl⟩
    rfl

theorem closesBody_iff : closesBody multiline cs = true ↔ (delimiter multiline).toList <+: cs := by
  cases multiline with
  | true => exact startsTripleQuote_iff
  | false =>
      cases cs with
      | nil => simp [closesBody, delimiter]
      | cons c cs => simp [closesBody, delimiter, eq_comm]

theorem opensHole_iff : opensHole cs = true ↔ "$\x7b".toList <+: cs := by
  constructor
  · intro h
    unfold opensHole at h
    split at h
    · exact ⟨_, rfl⟩
    · cases h
  · rintro ⟨rest, rfl⟩
    rfl

theorem escapes_cons_of_ne (h : c ≠ '\\') (before : List Char) :
    escapes (c :: before) = escapes before := by
  simp [escapes, h]

theorem escapes_backslash (d : Char) (before : List Char) :
    escapes ('\\' :: d :: before) = escapes before := rfl

/-- Before the text of a string ends, only what is escaped could end it. -/
theorem not_ends_of_lt (hlt : before.length < textLength multiline (before ++ after))
    (hplain : multiline = false → escapes before = false) :
    closesBody multiline after = false ∧ opensHole after = false := by
  have hends : ∀ {c : Char} {cs : List Char},
      ¬(closesBody multiline (c :: cs) || opensHole (c :: cs)) = true →
        closesBody multiline (c :: cs) = false ∧ opensHole (c :: cs) = false := by
    intro c cs h
    simpa using h
  generalize hall : before ++ after = all at hlt
  fun_induction textLength multiline all generalizing before with
  | case1 => exact absurd hlt (Nat.not_lt_zero _)
  | case2 => exact absurd hlt (Nat.not_lt_zero _)
  | case3 c hescape hend =>
      obtain rfl : before = [] := List.length_eq_zero_iff.1 (by omega)
      rw [List.nil_append] at hall
      exact hall ▸ hends hend
  | case4 c hescape d rest hend ih =>
      simp only [Bool.and_eq_true, decide_eq_true_eq, Bool.not_eq_true'] at hescape
      obtain ⟨rfl, hline⟩ := hescape
      rcases before with _ | ⟨e, _ | ⟨f, before⟩⟩
      · rw [List.nil_append] at hall
        exact hall ▸ hends hend
      · obtain rfl := (List.cons.inj hall).1
        cases hplain hline
      · obtain ⟨rfl, htail⟩ := List.cons.inj hall
        obtain ⟨rfl, hmore⟩ := List.cons.inj htail
        rw [List.length_cons, List.length_cons] at hlt
        have hplain' : multiline = false → escapes before = false := fun hline => by
          rw [← escapes_backslash f]
          exact hplain hline
        exact ih hplain' hmore (by omega)
  | case5 c cs hend hescape ih =>
      cases before with
      | nil =>
          rw [List.nil_append] at hall
          exact hall ▸ hends hend
      | cons e before =>
          obtain ⟨rfl, htail⟩ := List.cons.inj hall
          refine ih (fun hline => ?_) htail (by simpa using hlt)
          have hne : e ≠ '\\' := by
            rintro rfl
            exact hescape (by simp [hline])
          rw [← escapes_cons_of_ne hne]
          exact hplain hline

/-- Where the text of a string stops, the string ends or a hole is opened, unless the text is at its
end. -/
theorem ends_drop_textLength (multiline : Bool) (cs : List Char) :
    cs.drop (textLength multiline cs) = [] ∨
      closesBody multiline (cs.drop (textLength multiline cs)) = true ∨
        opensHole (cs.drop (textLength multiline cs)) = true := by
  fun_induction textLength multiline cs with
  | case1 => exact .inl rfl
  | case2 c cs hend =>
      rw [List.drop_zero]
      exact .inr (by simpa using hend)
  | case3 c => exact .inl rfl
  | case4 c d rest hend hescape ih => exact ih
  | case5 c cs hend hescape ih => exact ih

theorem fills_take (multiline : Bool) (cs : List Char) :
    Fills multiline (String.ofList (cs.take (textLength multiline cs))) := by
  intro before after hsplit hplain
  rw [String.toList_ofList] at hsplit
  have hall : cs = before ++ (after ++ cs.drop (textLength multiline cs)) := by
    rw [← List.append_assoc, ← hsplit, List.take_append_drop]
  have hlength : before.length + after.length = textLength multiline cs := by
    rw [← List.length_append, ← hsplit, List.length_take_of_le (textLength_le multiline cs)]
  cases after with
  | nil =>
      cases multiline <;> exact ⟨by decide, by decide⟩
  | cons c more =>
      have hlt : before.length < textLength multiline
          (before ++ (c :: more ++ cs.drop (textLength multiline cs))) := by
        rw [← hall, ← hlength, List.length_cons]
        omega
      obtain ⟨hcloses, hopens⟩ := not_ends_of_lt hlt hplain
      have hprefix := List.prefix_append (c :: more) (cs.drop (textLength multiline cs))
      rw [← Bool.not_eq_true, closesBody_iff] at hcloses
      rw [← Bool.not_eq_true, opensHole_iff] at hopens
      exact ⟨fun h => hcloses (h.trans hprefix), fun h => hopens (h.trans hprefix)⟩

/-! What is missing behind the last token -/

/-- The tokens that close what is open. -/
def closers : List Mode → List (Kind × String)
  | [] => []
  | .body multiline :: outer => (.stringEnd, delimiter multiline) :: closers outer
  | .hole depth :: outer =>
    List.replicate depth (.rBrace, "\x7d") ++ (.interpEnd, "\x7d") :: closers outer

/-- Tokens that complete the constructs that are open, the innermost first. -/
inductive Completes : List Mode → List (Kind × String) → Prop where
  | top {leaves : List (Kind × String)} : WellNested .top leaves → Completes [] leaves
  | body {multiline : Bool} {outer : List Mode} {inner leaves : List (Kind × String)} :
      WellNested (.body multiline) inner → Completes outer leaves →
        Completes (.body multiline :: outer) (inner ++ (.stringEnd, delimiter multiline) :: leaves)
  | hole {closing : String} {outer : List Mode} {inner leaves : List (Kind × String)} :
      WellNested .hole inner → Completes outer leaves →
        Completes (.hole 0 :: outer) (inner ++ (.interpEnd, closing) :: leaves)
  | brace {depth : Nat} {closing : String} {outer : List Mode} {inner leaves : List (Kind × String)} :
      WellNested .hole inner → Completes (.hole depth :: outer) leaves →
        Completes (.hole (depth + 1) :: outer) (inner ++ (.rBrace, closing) :: leaves)

theorem completes_closers : ∀ modes : List Mode, Completes modes (closers modes)
  | [] => .top (.nil _)
  | .body _ :: outer => .body (.nil _) (completes_closers outer)
  | .hole depth :: outer => by
      induction depth with
      | zero => exact .hole (.nil _) (completes_closers outer)
      | succ depth ih => exact .brace (.nil _) ih

theorem kind_of_mem_closers {leaf : Kind × String} (h : leaf ∈ closers modes) :
    leaf.1 ∈ [Kind.stringEnd, .interpEnd, .rBrace] := by
  induction modes with
  | nil => cases h
  | cons mode outer ih =>
      cases mode with
      | body multiline =>
          rcases List.mem_cons.1 h with rfl | h
          · simp
          · exact ih h
      | hole depth =>
          rcases List.mem_append.1 h with h | h
          · obtain rfl := (List.mem_replicate.1 h).2
            simp
          · rcases List.mem_cons.1 h with rfl | h
            · simp
            · exact ih h

/-- What the next token stands in. -/
def scopeOf : List Mode → Scope
  | [] => .top
  | .body multiline :: _ => .body multiline
  | .hole _ :: _ => .hole

theorem isCode_scopeOf (modes : List Mode) : (scopeOf modes).isCode = !isInBody modes := by
  rcases modes with - | ⟨mode, modes⟩
  · rfl
  · cases mode <;> rfl

/-- What is well nested in front of whatever goes on where the next token stands can be read in
front of tokens that complete what is open. -/
theorem Completes.prepend (h : Completes modes rest) (front : List (Kind × String))
    (hfront : ∀ leaves, leaves <+: rest → WellNested (scopeOf modes) leaves →
      WellNested (scopeOf modes) (front ++ leaves)) : Completes modes (front ++ rest) := by
  cases h with
  | top hnested => exact .top (hfront _ (List.prefix_refl _) hnested)
  | body hinner houter =>
      rw [← List.append_assoc]
      exact .body (hfront _ (List.prefix_append _ _) hinner) houter
  | hole hinner houter =>
      rw [← List.append_assoc]
      exact .hole (hfront _ (List.prefix_append _ _) hinner) houter
  | brace hinner houter =>
      rw [← List.append_assoc]
      exact .brace (hfront _ (List.prefix_append _ _) hinner) houter

theorem Completes.inert {kind : Kind} (h : Completes modes rest) (hcode : isInBody modes = false)
    (hkind : kind.isInert = true) (text : String) : Completes modes ((kind, text) :: rest) := by
  refine h.prepend [(kind, text)] fun leaves _ hleaves => .inert ?_ hkind hleaves
  rw [isCode_scopeOf, hcode]
  rfl

/-- A string is opened and completed, and code goes on behind it. -/
theorem Completes.startString (h : Completes (.body multiline :: modes) rest)
    (hcode : isInBody modes = false) :
    Completes modes ((.stringStart, delimiter multiline) :: rest) := by
  have hscope : (scopeOf modes).isCode = true := by
    rw [isCode_scopeOf, hcode]
    rfl
  cases h with
  | @body _ _ inner leaves hinner houter =>
      have hstring := houter.prepend ((.stringStart, delimiter multiline) ::
        (inner ++ [(.stringEnd, delimiter multiline)])) fun leaves _ hleaves => by
          rw [List.cons_append, List.append_assoc]
          exact .string hscope hinner hleaves
      rwa [List.cons_append, List.append_assoc] at hstring

/-- A hole is opened and completed, and its string goes on behind it. -/
theorem Completes.startHole (h : Completes (.hole 0 :: .body multiline :: outer) rest)
    (text : String) : Completes (.body multiline :: outer) ((.interpStart, text) :: rest) := by
  cases h with
  | @hole closing _ inner leaves hinner houter =>
      have hhole := houter.prepend ((.interpStart, text) :: (inner ++ [(.interpEnd, closing)]))
        fun leaves _ hleaves => by
          rw [List.cons_append, List.append_assoc]
          exact .hole hinner hleaves
      rwa [List.cons_append, List.append_assoc] at hhole

/-- A brace is opened and completed in a hole, and the code of the hole goes on behind it. Outside
of holes nothing is counted. -/
theorem Completes.startBrace (h : Completes (openBrace modes) rest) (hcode : isInBody modes = false)
    (text : String) : Completes modes ((.lBrace, text) :: rest) := by
  rcases modes with - | ⟨_ | depth, outer⟩
  · exact h.prepend [(.lBrace, text)] fun leaves _ hleaves => .brace (.inl rfl) hleaves
  · cases hcode
  · cases h with
    | @brace _ closing _ inner leaves hinner houter =>
        have hbraces := houter.prepend ((.lBrace, text) :: (inner ++ [(.rBrace, closing)]))
          fun leaves _ hleaves => by
            rw [List.cons_append, List.append_assoc]
            exact .braces hinner hleaves
        rwa [List.cons_append, List.append_assoc] at hbraces

theorem Completes.looseBrace (h : Completes modes rest) (hcode : isInBody modes = false)
    (hloose : ∀ depth outer, modes ≠ .hole depth :: outer) (text : String) :
    Completes modes ((.rBrace, text) :: rest) := by
  match modes with
  | [] => exact h.prepend [(.rBrace, text)] fun leaves _ hleaves => .brace (.inr rfl) hleaves
  | .body _ :: _ => cases hcode
  | .hole _ :: _ => exact absurd rfl (hloose _ _)

theorem Completes.text (h : Completes (.body multiline :: outer) rest) {text : String}
    (hfills : Fills multiline text) (hnext : ∀ next ∈ rest.head?, next.1 ≠ .stringText) :
    Completes (.body multiline :: outer) ((.stringText, text) :: rest) := by
  refine h.prepend [(.stringText, text)] fun leaves hprefix hleaves => .text hfills ?_ hleaves
  intro next hmem
  obtain ⟨more, rfl⟩ := hprefix
  cases leaves with
  | nil => cases hmem
  | cons leaf leaves => exact hnext next hmem

/-! What a token opens and closes -/

/-- Where a string ends or a hole is opened, no text comes next. -/
theorem kind_ne_stringText
    (hends : cs = [] ∨ closesBody multiline cs = true ∨ opensHole cs = true) :
    ∀ leaf ∈ (cutLeaves (.body multiline :: outer) cs).head?, leaf.1 ≠ .stringText := by
  cases cs with
  | nil =>
      rw [cutLeaves_nil]
      nofun
  | cons d more =>
      rw [cutLeaves_cons]
      rintro leaf hleaf
      obtain rfl := Option.some.inj hleaf
      have hnext := bodyCut multiline outer d more
      generalize cut (.body multiline :: outer) d more = next at hnext ⊢
      cases hnext with
      | text hcloses hopens => simp [hcloses, hopens] at hends
      | _ => nofun

/-- Two parts of the text of a string do not follow each other. -/
theorem TokenCut.kind_after_stringText {next : Cut} (h : TokenCut modes c cs next)
    (htext : next.kind = .stringText) :
    ∀ leaf ∈ (cutLeaves next.modes (cs.drop next.extra)).head?, leaf.1 ≠ .stringText := by
  cases h with
  | @body multiline _ _ _ _ h =>
      cases h with
      | text hcloses hopens =>
          obtain ⟨length, hlength⟩ := Nat.exists_eq_add_of_lt (textLength_pos hcloses hopens)
          have hends := ends_drop_textLength multiline (c :: cs)
          rw [hlength, Nat.zero_add, List.drop_succ_cons] at hends
          rw [hlength, Nat.zero_add, Nat.add_sub_cancel]
          exact kind_ne_stringText hends
      | _ => cases htext
  | code _ h =>
      have hcode := h.isBodyPart
      rw [htext] at hcode
      cases hcode

/-- A token in the body of a string stands where it may, in front of tokens that complete what it
leaves open. -/
theorem BodyCut.completes {next : Cut} (hnext : BodyCut multiline outer c cs next)
    (h : Completes next.modes rest)
    (hafter : next.kind = .stringText → ∀ leaf ∈ rest.head?, leaf.1 ≠ .stringText) :
    Completes (.body multiline :: outer)
      ((next.kind, String.ofList (c :: cs.take next.extra)) :: rest) := by
  cases hnext with
  | quote => exact .body (.nil _) h
  | quotes => exact .body (.nil _) h
  | hole => exact h.startHole _
  | text hcloses hopens =>
      have hfills := fills_take multiline (c :: cs)
      obtain ⟨length, hlength⟩ := Nat.exists_eq_add_of_lt (textLength_pos hcloses hopens)
      rw [hlength, Nat.zero_add, List.take_succ_cons] at hfills
      rw [hlength, Nat.zero_add, Nat.add_sub_cancel]
      exact h.text hfills (hafter rfl)

theorem CodeCut.completes {next : Cut} (hnext : CodeCut modes c cs next)
    (hcode : isInBody modes = false) (h : Completes next.modes rest) :
    Completes modes ((next.kind, String.ofList (c :: cs.take next.extra)) :: rest) := by
  cases hnext with
  | symbol hsymbol =>
      exact h.inert hcode
        ((by decide : ∀ kind ∈ symbolKinds, kind.isInert = true) _ hsymbol.mem_symbolKinds) _
  | word =>
      exact h.inert hcode
        ((by decide : ∀ kind ∈ wordKinds, kind.isInert = true) _ (mem_wordKinds _)) _
  | quotes =>
      have hstring : Completes (.body true :: modes) rest := h
      exact hstring.startString hcode
  | quote =>
      have hstring : Completes (.body false :: modes) rest := h
      exact hstring.startString hcode
  | openBrace => exact h.startBrace hcode _
  | endHole => exact .hole (.nil _) h
  | closeBrace => exact .brace (.nil _) h
  | looseBrace _ hloose => exact h.looseBrace hcode hloose _
  | _ => exact h.inert hcode rfl _

/-- The next token stands where it may, in front of tokens that complete what it leaves open. -/
theorem completes_cut (h : Completes (cut modes c cs).modes rest)
    (hafter : (cut modes c cs).kind = .stringText → ∀ leaf ∈ rest.head?, leaf.1 ≠ .stringText) :
    Completes modes
      (((cut modes c cs).kind, String.ofList (c :: cs.take (cut modes c cs).extra)) :: rest) := by
  have hnext := tokenCut modes c cs
  generalize cut modes c cs = next at h hafter hnext ⊢
  cases hnext with
  | body hnext => exact hnext.completes h hafter
  | code hcode hnext => exact hnext.completes hcode h

/-- The tokens of some characters, and then those that close what is still open, complete what was
open in front of them. -/
theorem completes_scan (modes : List Mode) (start : Nat) (cs : List Char) :
    Completes modes (cutLeaves modes cs ++ closers (scan modes start cs).2) := by
  fun_induction scan modes start cs with
  | case1 modes =>
      rw [cutLeaves_nil]
      exact completes_closers modes
  | case2 modes start c cs next text after ih =>
      rw [cutLeaves_cons, List.cons_append]
      refine completes_cut ih fun htext leaf hleaf => ?_
      cases hmore : cutLeaves next.modes (cs.drop next.extra) with
      | nil =>
          rw [hmore] at hleaf
          have hmem := kind_of_mem_closers (List.mem_of_mem_head? hleaf)
          rintro hkind
          rw [hkind] at hmem
          revert hmem
          decide
      | cons first more =>
          rw [hmore] at hleaf
          refine (tokenCut modes c cs).kind_after_stringText htext leaf ?_
          rw [hmore]
          exact hleaf

end Lexer

/-- The tokens in front of the end of a text are the beginning of well-nested ones: with ends of
strings, of holes and of braces behind them, nothing is left open and all stand where they may. -/
theorem tokenize_wellNested (text : String) : ∃ tokens closing,
    tokenize text = tokens ++ [Token.endOfFile text.utf8ByteSize] ∧
      (∀ leaf ∈ closing, leaf.1 ∈ [Kind.stringEnd, .interpEnd, .rBrace]) ∧
        Lexer.WellNested .top (tokens.map Token.leaf ++ closing) := by
  refine ⟨cutTokens text, Lexer.closers (Lexer.scan [] 0 text.toList).2, tokenize_eq text,
    fun leaf => Lexer.kind_of_mem_closers, ?_⟩
  have hleaves : (cutTokens text).map Token.leaf = Lexer.cutLeaves [] text.toList := by
    have h := map_leaf_tokenize text
    rw [tokenize_eq, List.map_append] at h
    exact List.append_cancel_right h
  rw [hleaves]
  cases Lexer.completes_scan [] 0 text.toList with
  | top h => exact h

end Caret
