import Caret.Proofs.Rule.Sweep
import Caret.Rule.Document
import Mathlib.Data.List.Forall2

/-!
# What a rule reads

A rule takes trivia and tokens from the front of its input and puts every one of them into its
trees, in their order and once. The steps of reading are stated apart from the rules, as a relation
between the input, the leaves that come out of it, and what is left; each rule is then shown to be
such a reading, whatever it builds.
-/

namespace Caret

namespace Kind

/-- The keywords that are cut as identifiers and known only by their place. -/
def isContextual : Kind → Bool
  | targetScopeKw | paramKw | varKw | outputKw | resourceKw | moduleKw
  | existingKw | forKw | inKw => true
  | _ => false

/-- The words that are keywords wherever they stand. -/
def isReserved : Kind → Bool
  | trueKw | falseKw | nullKw => true
  | _ => false

/-- What a token of one kind may be in a tree. -/
inductive Becomes : Kind → Kind → Prop where
  | same (kind : Kind) : Becomes kind kind
  | keyword {kind : Kind} : kind.isContextual = true → Becomes ident kind
  | name {kind : Kind} : kind.isWord = true → Becomes kind ident

theorem Becomes.isWord_eq {kind leaf : Kind} (h : Becomes kind leaf) :
    leaf.isWord = kind.isWord := by
  cases h with
  | same => rfl
  | keyword hleaf => cases leaf <;> simp_all [isContextual, isWord]
  | name hkind => rw [hkind]; rfl

theorem Becomes.isTrivia_eq {kind leaf : Kind} (h : Becomes kind leaf) :
    leaf.isTrivia = kind.isTrivia := by
  cases h with
  | same => rfl
  | keyword hleaf => cases leaf <;> simp_all [isContextual, isTrivia]
  | name hkind => cases kind <;> simp_all [isWord, isTrivia]

theorem Becomes.eq_newline {kind : Kind} (h : Becomes kind .newline) : kind = .newline := by
  cases h with
  | same => rfl
  | keyword hleaf => cases hleaf

/-- Only words change their kind. -/
theorem Becomes.eq_of_not_isWord {kind leaf : Kind} (h : Becomes kind leaf)
    (hword : kind.isWord = false) : leaf = kind := by
  cases h with
  | same => rfl
  | keyword => cases hword
  | name hkind => rw [hkind] at hword; cases hword

theorem Becomes.eq_newline_iff {kind leaf : Kind} (h : Becomes kind leaf) :
    leaf = .newline ↔ kind = .newline := by
  constructor
  · rintro rfl
    exact h.eq_newline
  · rintro rfl
    exact h.eq_of_not_isWord rfl

theorem Becomes.eq_of_leaf_not_isWord {kind leaf : Kind} (h : Becomes kind leaf)
    (hword : leaf.isWord = false) : leaf = kind :=
  h.eq_of_not_isWord (h.isWord_eq.symm.trans hword)

end Kind

def Token.leaf (token : Token) : Kind × String := (token.kind, token.text)

namespace Rule

/-- The leaves that come out of reading from one input to another. -/
inductive Reads : List Lexeme → List (Kind × String) → List Lexeme → Prop where
  | done (input : List Lexeme) : Reads input [] input
  | settle (lead : List Token) (token : Token) (rest : List Lexeme) :
      Reads (⟨lead, token⟩ :: rest) (lead.map Token.leaf) (⟨[], token⟩ :: rest)
  | take (lead : List Token) {token : Token} {kind : Kind} (rest : List Lexeme)
      (hkind : token.kind ≠ .eof) (hbecomes : token.kind.Becomes kind) :
      Reads (⟨lead, token⟩ :: rest) (lead.map Token.leaf ++ [(kind, token.text)]) rest
  | trans {first second third : List Lexeme} {leaves more : List (Kind × String)} :
      Reads first leaves second → Reads second more third → Reads first (leaves ++ more) third

end Rule

/-- A leaf that is a token, up to its tag. -/
def Token.Stands (token : Token) (leaf : Kind × String) : Prop :=
  token.kind.Becomes leaf.1 ∧ leaf.2 = token.text

theorem Token.stands_leaf (token : Token) : token.Stands token.leaf := ⟨.same _, rfl⟩

theorem Token.forall₂_stands_map_leaf (tokens : List Token) :
    List.Forall₂ Token.Stands tokens (tokens.map Token.leaf) := by
  induction tokens with
  | nil => exact .nil
  | cons token tokens ih => exact .cons token.stands_leaf ih

namespace Rule

/-- Tokens as they are grouped: trivia in front of something else. -/
def Led (input : List Lexeme) : Prop :=
  ∀ lexeme ∈ input, (∀ token ∈ lexeme.lead, token.isTrivia = true) ∧ lexeme.token.isTrivia = false

theorem Led.tail {lexeme : Lexeme} {rest : List Lexeme} (h : Led (lexeme :: rest)) : Led rest :=
  fun other hmem => h other (List.mem_cons_of_mem _ hmem)

end Rule

namespace Rule.Reads

variable {input rest : List Lexeme} {leaves : List (Kind × String)}

/-- Reading gives each token that it takes away once, in the order of the input. -/
theorem exists_taken (h : Reads input leaves rest) :
    ∃ taken, input.flatMap Lexeme.tokens = taken ++ rest.flatMap Lexeme.tokens ∧
      List.Forall₂ Token.Stands taken leaves := by
  induction h with
  | done input => exact ⟨[], rfl, .nil⟩
  | settle lead token rest =>
      exact ⟨lead, by simp [Lexeme.tokens], Token.forall₂_stands_map_leaf lead⟩
  | @take lead token kind rest hkind hbecomes =>
      refine ⟨lead ++ [token], by simp [Lexeme.tokens], ?_⟩
      exact List.rel_append (Token.forall₂_stands_map_leaf lead) (.cons ⟨hbecomes, rfl⟩ .nil)
  | trans _ _ ihfirst ihsecond =>
      obtain ⟨taken, hinput, hstands⟩ := ihfirst
      obtain ⟨more, hmore, hstands'⟩ := ihsecond
      exact ⟨taken ++ more, by rw [hinput, hmore, List.append_assoc],
        List.rel_append hstands hstands'⟩

/-- What is left are the last tokens of the input. -/
theorem tokens_suffix (h : Reads input leaves rest) :
    rest.map Lexeme.token <:+ input.map Lexeme.token := by
  induction h with
  | done input => exact List.suffix_refl _
  | settle lead token rest => exact List.suffix_refl _
  | take lead rest => exact List.suffix_cons _ _
  | trans _ _ ihfirst ihsecond => exact ihsecond.trans ihfirst

theorem length_le (h : Reads input leaves rest) : rest.length ≤ input.length := by
  simpa using h.tokens_suffix.length_le

theorem led (h : Reads input leaves rest) (hinput : Led input) : Led rest := by
  induction h with
  | done input => exact hinput
  | settle lead token rest =>
      intro lexeme hmem
      rcases List.mem_cons.1 hmem with rfl | hmem
      · exact ⟨by simp, (hinput _ List.mem_cons_self).2⟩
      · exact hinput.tail lexeme hmem
  | take lead rest => exact hinput.tail
  | trans _ _ ihfirst ihsecond => exact ihsecond (ihfirst hinput)

end Rule.Reads

/-- An outcome whose trees hold the leaves of `left` and then all that was read of `input`. -/
def Outcome.Spells (outcome : Outcome) (left : List Tree) (input : List Lexeme) : Prop :=
  ∃ leaves, Rule.Reads input leaves outcome.rest ∧
    Tree.leavesAll outcome.trees = Tree.leavesAll left ++ leaves

theorem Outcome.Spells.length_le {outcome : Outcome} {left : List Tree} {input : List Lexeme}
    (h : outcome.Spells left input) : outcome.rest.length ≤ input.length := by
  obtain ⟨leaves, hreads, -⟩ := h
  exact hreads.length_le

theorem Outcome.Spells.led {outcome : Outcome} {left : List Tree} {input : List Lexeme}
    (h : outcome.Spells left input) (hinput : Rule.Led input) : Rule.Led outcome.rest := by
  obtain ⟨leaves, hreads, -⟩ := h
  exact hreads.led hinput

theorem Tree.leavesAll_map_ofToken (tokens : List Token) :
    leavesAll (tokens.map ofToken) = tokens.map Token.leaf := by
  induction tokens with
  | nil => rfl
  | cons token tokens ih => simp [leavesAll, leaves, ofToken, Token.leaf, ih]

namespace Rule

variable {first second body inner : Rule} {left : List Tree} {input : List Lexeme} {kind : Kind}

theorem kind_cons (lexeme : Lexeme) (rest : List Lexeme) :
    Rule.kind (lexeme :: rest) = lexeme.kind := rfl

theorem andThen_apply (first second : Rule) (input : List Lexeme) :
    (first ++ second) input =
      ⟨(first input).trees ++ (second (first input).rest).trees,
        (first input).errors ++ (second (first input).rest).errors,
        (second (first input).rest).rest⟩ := rfl

theorem into_apply (first : Rule) (next : List Tree → Rule) (input : List Lexeme) :
    first.into next input =
      ⟨(next (first input).trees (first input).rest).trees,
        (first input).errors ++ (next (first input).trees (first input).rest).errors,
        (next (first input).trees (first input).rest).rest⟩ := rfl

theorem andThen_assoc (first second third : Rule) :
    first ++ second ++ third = first ++ (second ++ third) := by
  funext input
  simp [andThen_apply]

theorem spells_keep (left : List Tree) (input : List Lexeme) :
    (keep left input).Spells left input :=
  ⟨[], .done input, by simp [keep]⟩

theorem spells_done (input : List Lexeme) : (done input).Spells [] input :=
  spells_keep [] input

theorem spells_report (cause : SyntaxError.Cause) (input : List Lexeme) :
    (report cause input).Spells [] input :=
  ⟨[], .done input, rfl⟩

theorem spells_andThen (hfirst : (first input).Spells left input)
    (hsecond : (second (first input).rest).Spells [] (first input).rest) :
    ((first ++ second) input).Spells left input := by
  obtain ⟨leaves, hreads, htrees⟩ := hfirst
  obtain ⟨more, hmore, htrees'⟩ := hsecond
  refine ⟨leaves ++ more, hreads.trans hmore, ?_⟩
  rw [andThen_apply, Tree.leavesAll_append, htrees, htrees', List.append_assoc]
  rfl

theorem spells_into {next : List Tree → Rule} (hfirst : (first input).Spells left input)
    (hnext : (next (first input).trees (first input).rest).Spells (first input).trees
      (first input).rest) :
    (first.into next input).Spells left input := by
  obtain ⟨leaves, hreads, htrees⟩ := hfirst
  obtain ⟨more, hmore, htrees'⟩ := hnext
  refine ⟨leaves ++ more, hreads.trans hmore, ?_⟩
  change Tree.leavesAll (next (first input).trees (first input).rest).trees = _
  rw [htrees', htrees, List.append_assoc]

theorem spells_wrap (kind : Kind) (left : List Tree) (h : (body input).Spells [] input) :
    (wrap kind left body input).Spells left input := by
  obtain ⟨leaves, hreads, htrees⟩ := h
  refine ⟨leaves, hreads, ?_⟩
  simp only [wrap, Tree.leavesAll, Tree.leaves, Tree.leavesAll_append, htrees]
  simp

theorem spells_settle (input : List Lexeme) : (settle input).Spells [] input := by
  cases input with
  | nil => exact ⟨[], .done [], rfl⟩
  | cons lexeme rest =>
      exact ⟨_, .settle lexeme.lead lexeme.token rest, Tree.leavesAll_map_ofToken _⟩

theorem kind_settle (input : List Lexeme) : Rule.kind (settle input).rest = Rule.kind input := by
  cases input <;> rfl

theorem current_settle (input : List Lexeme) : current (settle input).rest = current input := by
  cases input <;> rfl

theorem spells_node (kind : Kind)
    (h : (body (settle input).rest).Spells [] (settle input).rest) :
    (node kind body input).Spells [] input :=
  spells_andThen (spells_settle input) (spells_wrap kind [] h)

theorem takeAs_cons {lexeme : Lexeme} (h : lexeme.kind ≠ .eof) (tag : Kind) (rest : List Lexeme) :
    takeAs tag (lexeme :: rest) =
      ⟨lexeme.lead.map Tree.ofToken ++ [.leaf tag lexeme.token.text], [], rest⟩ := by
  rw [takeAs, if_neg h]

theorem spells_takeAs (h : (Rule.kind input).Becomes kind) :
    (takeAs kind input).Spells [] input := by
  cases input with
  | nil => exact ⟨[], .done [], rfl⟩
  | cons lexeme rest =>
      rw [takeAs]
      split
      · exact spells_settle _
      · rename_i hkind
        refine ⟨_, .take lexeme.lead rest hkind h, ?_⟩
        rw [Tree.leavesAll_append, Tree.leavesAll_map_ofToken]
        rfl

theorem spells_take (input : List Lexeme) : (take input).Spells [] input :=
  spells_takeAs (.same _)

theorem spells_ifAt {yes no : Rule}
    (hyes : Rule.kind input = kind → (yes input).Spells left input)
    (hno : Rule.kind input ≠ kind → (no input).Spells left input) :
    (ifAt kind yes no input).Spells left input := by
  unfold ifAt
  split
  · exact hyes ‹_›
  · exact hno ‹_›

theorem spells_unlessAt (kinds : List Kind) (h : (inner input).Spells [] input) :
    (unlessAt kinds inner input).Spells [] input := by
  unfold unlessAt
  split
  · exact spells_done input
  · exact h

theorem spells_absent (expected : Expected) (input : List Lexeme) :
    (absent expected input).Spells [] input :=
  spells_andThen (spells_report _ input) (spells_node .missing (spells_done _))

theorem spells_expect (wanted : Kind) (input : List Lexeme) :
    (expect wanted input).Spells [] input :=
  spells_ifAt (fun _ => spells_take input) (fun _ => spells_absent _ input)

/-- The lexeme in front is taken whole, and the rest is read by a rule that looks at it alone. -/
theorem spells_cons {lexeme : Lexeme} {rest : List Lexeme} {more : Outcome}
    (hkind : lexeme.kind ≠ .eof) (h : more.Spells [] rest) :
    Outcome.Spells { more with trees := lexeme.tokens.map Tree.ofToken ++ more.trees } []
      (lexeme :: rest) := by
  obtain ⟨leaves, hreads, htrees⟩ := h
  refine ⟨_, (Reads.take lexeme.lead rest hkind (.same _)).trans hreads, ?_⟩
  rw [Tree.leavesAll_append, Tree.leavesAll_map_ofToken, htrees]
  simp [Lexeme.tokens, Token.leaf, Tree.leavesAll]

theorem takeNewlines_of_ne (h : Rule.kind input ≠ .newline) : takeNewlines input = done input := by
  cases input with
  | nil => rfl
  | cons lexeme rest =>
      rw [kind_cons] at h
      rw [takeNewlines, if_neg h]
      rfl

theorem spells_sweep {σ : Type} {next : σ → Kind → Option σ} (hend : StopsAtEnd next) (state : σ)
    (input : List Lexeme) : (sweep next state input).Spells [] input := by
  fun_induction sweep next state input with
  | case1 state => exact spells_done _
  | case2 state lexeme rest hnone => exact spells_done _
  | case3 state lexeme rest after hsome more ih => exact spells_cons (hend.ne_eof hsome) ih

theorem spells_takeNewlines (input : List Lexeme) : (takeNewlines input).Spells [] input := by
  rw [takeNewlines_eq_sweep]
  exact spells_sweep stopsAtEnd_overNewlines () input

theorem spells_takeNewlinesBefore (wanted : Kind) (input : List Lexeme) :
    (takeNewlinesBefore wanted input).Spells [] input := by
  unfold takeNewlinesBefore
  split
  · exact spells_takeNewlines input
  · exact spells_done input

/-- Newlines and what stands in front of them. -/
theorem exists_tokens_takeNewlines (h : Led input) :
    ∃ tokens : List Token, (takeNewlines input).trees = tokens.map Tree.ofToken ∧
      ∀ token ∈ tokens, token.isTrivia = true ∨ token.kind = .newline := by
  obtain ⟨tokens, htrees, htokens⟩ := exists_tokens_sweep overNewlines () input
  refine ⟨tokens, takeNewlines_eq_sweep ▸ htrees, fun token hmem => ?_⟩
  obtain ⟨lexeme, hlexeme, hlead | ⟨rfl, state, hsome⟩⟩ := htokens token hmem
  · exact .inl ((h lexeme hlexeme).1 token hlead)
  · refine .inr (Decidable.by_contra fun hne => ?_)
    rw [overNewlines_eq_none_iff.2 hne] at hsome
    cases hsome

theorem spells_takeUntil (stop : List Kind) (input : List Lexeme) :
    (takeUntil stop input).Spells [] input := by
  rw [takeUntil_eq_sweep]
  exact spells_sweep (stopsAtEnd_upTo stop) () input

theorem spells_takeStray (depth : Nat) (input : List Lexeme) :
    (takeStray depth input).Spells [] input := by
  rw [takeStray_eq_sweep]
  exact spells_sweep stopsAtEnd_overHoles depth input

theorem spells_skipTo (stop : List Kind) (cause : SyntaxError.Cause) (input : List Lexeme) :
    (skipTo stop cause input).Spells [] input :=
  spells_andThen (spells_report cause input)
    (spells_unlessAt _ (spells_node .error (spells_takeUntil stop _)))

/-- The rule by which a loop goes on or ends. -/
def Step.rule : Step → Rule
  | again rule => rule
  | last rule => rule

/-- What a rule that takes nothing satisfies, and one rule behind another if both do, is satisfied by a
loop if its rounds do. -/
theorem loop_of_rounds {p : List Lexeme → Outcome → Prop} {choose : List Lexeme → Step}
    (hdone : ∀ input, p input (done input))
    (handThen : ∀ {first second : Rule} {input : List Lexeme}, p input (first input) →
      p (first input).rest (second (first input).rest) → p input ((first ++ second) input))
    (h : ∀ input, p input ((choose input).rule input)) (input : List Lexeme) :
    p input (loop choose input) := by
  have hfor : ∀ fuel input, p input (loopFor choose fuel input) := by
    intro fuel
    induction fuel with
    | zero => exact hdone
    | succ fuel ih =>
        intro input
        have hround := h input
        unfold loopFor
        cases hchoose : choose input with
        | last rule => simpa [hchoose, Step.rule] using hround
        | again rule =>
            rw [hchoose] at hround
            exact handThen hround (ih _)
  exact hfor _ input

theorem spells_loop {choose : List Lexeme → Step}
    (h : ∀ input, ((choose input).rule input).Spells [] input) (input : List Lexeme) :
    (loop choose input).Spells [] input :=
  loop_of_rounds (p := fun input outcome => outcome.Spells [] input) spells_done spells_andThen h
    input

end Rule

end Caret
