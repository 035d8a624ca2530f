import Caret.Proofs.Rule.Progress
import Caret.Proofs.Tree.Marks

/-!
# Where an expression is expected

Some tokens are followed by an expression, and a name that comes next becomes one. Each token asks
something of the next one in this way; it is shown of every rule what it answers and what it leaves
to be asked. So the question is settled for any two tokens next to each other, however far apart the
rules are that take them.
-/

namespace Caret

/-- The words that are known as keywords by their place. -/
def contextualWords : List String :=
  ["targetScope", "param", "var", "output", "resource", "module", "existing", "for", "in"]

/-- Whether an expression comes after a token of the first kind in a node of the second. -/
def Kind.awaits : Kind → Kind → Bool
  | eq, home => home.isDeclaration
  | bang, unaryExpr | minus, unaryExpr => true
  | question, ternaryExpr | colon, ternaryExpr => true
  | colon, forExpr | inKw, forExpr => true
  | colon, objectProperty => true
  | lParen, argList | comma, argList | newline, argList => true
  | lBrack, array | comma, array | newline, array => true
  | lParen, parenExpr | lBrack, arrayAccess | interpStart, interpolation => true
  | kind, binaryExpr => kind.precedence.isSome
  | _, _ => false

/-- What is asked of the token after one of the first kind in a node of the second. -/
def Kind.asks (tag home : Kind) : List Kind :=
  (if home = .error then [.error] else []) ++
    (if tag.awaits home then [.variableAccess] else []) ++
    (if tag = .colon ∧ home = .objectProperty ∨ tag = .newline ∧ home = .object then [.object]
      else [])

theorem Kind.asks_error (tag : Kind) : tag.asks .error = [.error] := by
  cases tag <;> rfl

/-- Whether a token of the first kind is placed well in a node of the second, whatever its text. -/
def Kind.stands (tag home : Kind) : Bool :=
  home = .error || (tag ≠ .inKw && (home ≠ .variableAccess || tag = .ident) &&
    (!(tag = .eq || tag = .bang || tag = .errorToken) || tag.awaits home))

namespace Leaf

/-- What a leaf asks of the next one: a certain name has to stay in the same error node or to become
an expression, and a newline after a colon or a newline of an object belongs to the object. -/
inductive Asks (name : String) (leaf : Leaf) (kind : Kind) (text : String) : Kind → Prop where
  | error : leaf.home = .error → kind.isWord = true → text = name → Asks name leaf kind text .error
  | access : leaf.kind.awaits leaf.home = true → kind.isWord = true → text = name →
      Asks name leaf kind text .variableAccess
  | line : leaf.kind = .colon ∧ leaf.home = .objectProperty ∨
      leaf.kind = .newline ∧ leaf.home = .object → kind = .newline → Asks name leaf kind text .object

/-- Where some tokens can stand at all. -/
structure Placed (leaf : Leaf) : Prop where
  awaits : leaf.kind = .eq ∨ leaf.kind = .bang ∨ leaf.kind = .errorToken →
    leaf.home = .error ∨ leaf.kind.awaits leaf.home = true
  inKw : leaf.kind = .inKw → leaf.home = .error ∨ leaf.text = "in"
  access : leaf.home = .variableAccess → leaf.kind = .ident

/-- A leaf answers what the one before it asks, but for expressions that nest too deeply. -/
def Follows (deep : Prop) (name : String) (leaf next : Leaf) : Prop :=
  next.Placed ∧ ∀ home, leaf.Asks name next.kind next.text home →
    next.home = home ∨ home = .variableAccess ∧ deep

/-- Each leaf answers the one before it, from a given one to the last. -/
def Runs (deep : Prop) (name : String) : Leaf → List Leaf → Leaf → Prop
  | leaf, [], last => leaf = last
  | leaf, next :: leaves, last => leaf.Follows deep name next ∧ Runs deep name next leaves last

variable {deep : Prop} {name : String} {leaf middle last : Leaf}

theorem Runs.append {left right : List Leaf} (hleft : Runs deep name leaf left middle)
    (hright : Runs deep name middle right last) : Runs deep name leaf (left ++ right) last := by
  induction left generalizing leaf with
  | nil =>
      cases hleft
      exact hright
  | cons next leaves ih => exact ⟨hleft.1, ih hleft.2⟩

/-- Of two leaves next to each other the second one answers the first. -/
theorem Runs.follows {left right : List Leaf} {next : Leaf}
    (h : Runs deep name last (left ++ leaf :: next :: right) middle) :
    leaf.Follows deep name next := by
  induction left generalizing last with
  | nil => exact h.2.1
  | cons first left ih => exact ih h.2

theorem Runs.placed {leaves : List Leaf} (h : Runs deep name leaf leaves last) :
    ∀ next ∈ leaves, next.Placed := by
  induction leaves generalizing leaf with
  | nil => simp
  | cons first leaves ih =>
      intro next hmem
      rcases List.mem_cons.1 hmem with rfl | hmem
      · exact h.1.1
      · exact ih h.2 next hmem

theorem Asks.mem_asks {kind : Kind} {text : String} {home : Kind}
    (h : leaf.Asks name kind text home) : home ∈ leaf.kind.asks leaf.home := by
  cases h with
  | error hhome => simp [Kind.asks, hhome]
  | access hawaits => simp [Kind.asks, hawaits]
  | line hline => simp [Kind.asks, hline]

theorem placed_of_stands {home tag : Kind} (text : String) (h : tag.stands home = true) :
    Placed ⟨home, tag, text⟩ := by
  simp only [Kind.stands, Bool.or_eq_true, Bool.and_eq_true, decide_eq_true_eq, Bool.not_eq_true',
    Bool.or_eq_false_iff, decide_eq_false_iff_not] at h
  rcases h with rfl | ⟨⟨hin, haccess⟩, hawaits⟩
  · exact ⟨fun _ => .inl rfl, fun _ => .inl rfl, nofun⟩
  · refine ⟨fun hkind => ?_, fun hkind => absurd hkind hin, fun hhome => ?_⟩
    · rcases hawaits with hnot | hawaits
      · simp_all
      · exact .inr hawaits
    · exact haccess.resolve_left (by simpa using hhome)

theorem Asks.kind_cases {kind : Kind} {text : String} {home : Kind}
    (h : leaf.Asks name kind text home) :
    (home = .error ∧ leaf.home = .error ∨
        home = .variableAccess ∧ leaf.kind.awaits leaf.home = true) ∧
        kind.isWord = true ∧ text = name ∨
      home = .object ∧ kind = .newline ∧ (leaf.kind = .colon ∧ leaf.home = .objectProperty ∨
        leaf.kind = .newline ∧ leaf.home = .object) := by
  cases h with
  | error hhome hword htext => exact .inl ⟨.inl ⟨rfl, hhome⟩, hword, htext⟩
  | access hawaits hword htext => exact .inl ⟨.inr ⟨rfl, hawaits⟩, hword, htext⟩
  | line hleaf hline => exact .inr ⟨rfl, hline, hleaf⟩

end Leaf

namespace Rule

/-- An input in which a certain name, no keyword anywhere, is always an identifier. -/
structure Fits (name : String) (input : List Lexeme) : Prop where
  led : Led input
  fresh : name ∉ contextualWords
  ident : ∀ token ∈ input.map Lexeme.token, token.kind.isWord = true → token.text = name →
    token.kind = .ident

/-- What a leaf asks of the first token of an input is one of `due`. -/
def Due (name : String) (due : List Kind) (leaf : Leaf) (input : List Lexeme) : Prop :=
  ∀ home, leaf.Asks name (kind input) (current input).text home → home ∈ due

/-- A rule that is read after a leaf that asks for one of `due` at most: each leaf that it takes
answers the one before it, and the last one asks the rest for one of `owed` at most. The marks in
`left` are in its trees from before. -/
def Answers (deep : Prop) (name : String) (home : Kind) (left : List Leaf) (due owed : List Kind)
    (input : List Lexeme) (outcome : Outcome) : Prop :=
  Fits name input → (∀ error ∈ outcome.errors, error.cause = .nestingTooDeep → deep) →
    ∀ leaf, Due name due leaf input →
      ∃ marks last, Tree.marks home outcome.trees = left ++ marks ∧
        Leaf.Runs deep name leaf marks last ∧ Due name owed last outcome.rest ∧
        Fits name outcome.rest

variable {deep : Prop} {name : String} {home inner : Kind} {left : List Leaf}
  {due mid owed : List Kind} {leaf : Leaf} {first second body rule : Rule} {input : List Lexeme}
  {outcome : Outcome} {trees : List Tree}

theorem Fits.rest (h : Fits name input) (hspells : outcome.Spells trees input) :
    Fits name outcome.rest := by
  obtain ⟨leaves, hreads, -⟩ := hspells
  exact ⟨hreads.led h.led, h.fresh, fun token hmem =>
    h.ident token (hreads.tokens_suffix.subset hmem)⟩

theorem Fits.tail {lexeme : Lexeme} {rest : List Lexeme} (h : Fits name (lexeme :: rest)) :
    Fits name rest :=
  ⟨h.led.tail, h.fresh, fun token hmem => h.ident token (List.mem_cons_of_mem _ hmem)⟩

theorem Fits.kind_eq (h : Fits name input) (hword : (kind input).isWord = true)
    (htext : (current input).text = name) : kind input = .ident := by
  cases input with
  | nil => cases hword
  | cons lexeme rest => exact h.ident lexeme.token (by simp) hword htext

theorem Due.mono (h : Due name due leaf input) (hsub : due ⊆ owed) : Due name owed leaf input :=
  fun home hasks => hsub (h home hasks)

/-- Only identifiers and newlines are asked for. -/
theorem Due.of_ne (h : Fits name input) (hident : kind input ≠ .ident)
    (hline : kind input ≠ .newline) : Due name due leaf input := by
  intro home hasks
  rcases hasks.kind_cases with ⟨-, hword, htext⟩ | ⟨-, hnewline, -⟩
  · exact absurd (h.kind_eq hword htext) hident
  · exact absurd hnewline hline

theorem Due.of_ne_newline (h : Due name due leaf input) (hline : kind input ≠ .newline)
    (hdue : ∀ home ∈ due, home ∈ owed ∨ home = .object) : Due name owed leaf input := by
  intro home hasks
  rcases hdue home (h home hasks) with hmem | rfl
  · exact hmem
  · cases hasks with
    | line _ hnewline => exact absurd hnewline hline

theorem Due.of_ne_ident (h : Due name due leaf input) (hfits : Fits name input)
    (hident : kind input ≠ .ident) (hdue : ∀ home ∈ due, home ∈ owed ∨ home = .variableAccess) :
    Due name owed leaf input := by
  intro home hasks
  rcases hdue home (h home hasks) with hmem | rfl
  · exact hmem
  · cases hasks with
    | access _ hword htext => exact absurd (hfits.kind_eq hword htext) hident

/-- Where no word comes next, only newlines are asked for. -/
theorem Due.of_not_isWord (h : Due name due leaf input) (hword : (kind input).isWord = false)
    (hdue : .object ∉ due) : Due name owed leaf input := by
  intro home hasks
  rcases hasks.kind_cases with ⟨-, hword', -⟩ | ⟨rfl, -, -⟩
  · rw [hword] at hword'
    cases hword'
  · exact absurd (h _ hasks) hdue

theorem Answers.weaken (mid : List Kind) (h : Answers deep name home left mid owed input outcome)
    (hdue : Fits name input → ∀ leaf, Due name due leaf input → Due name mid leaf input) :
    Answers deep name home left due owed input outcome :=
  fun hfits herrors leaf hleaf => h hfits herrors leaf (hdue hfits leaf hleaf)

theorem Answers.of_ne (h : Answers deep name home left [] owed input outcome)
    (hident : kind input ≠ .ident) (hline : kind input ≠ .newline) :
    Answers deep name home left due owed input outcome :=
  h.weaken _ fun hfits _ _ => .of_ne hfits hident hline

theorem Answers.of_ne_newline (mid : List Kind) (h : Answers deep name home left mid owed input outcome)
    (hline : kind input ≠ .newline) (hdue : ∀ home ∈ due, home ∈ mid ∨ home = .object) :
    Answers deep name home left due owed input outcome :=
  h.weaken _ fun _ _ hleaf => hleaf.of_ne_newline hline hdue

theorem Answers.of_led (h : Led input → Answers deep name home left due owed input outcome) :
    Answers deep name home left due owed input outcome :=
  fun hfits => h hfits.led hfits

theorem Answers.owes_more (mid : List Kind) (h : Answers deep name home left due mid input outcome)
    (howed : mid ⊆ owed) : Answers deep name home left due owed input outcome := by
  intro hfits herrors leaf hleaf
  obtain ⟨marks, last, htrees, hruns, hlast, hrest⟩ := h hfits herrors leaf hleaf
  exact ⟨marks, last, htrees, hruns, hlast.mono howed, hrest⟩

theorem answers_keep (trees : List Tree) (hdue : due ⊆ owed) :
    Answers deep name home (Tree.marks home trees) due owed input (keep trees input) :=
  fun hfits _ leaf hleaf => ⟨[], leaf, (List.append_nil _).symm, rfl, hleaf.mono hdue, hfits⟩

theorem answers_done (hdue : due ⊆ owed) : Answers deep name home [] due owed input (done input) :=
  answers_keep [] hdue

theorem answers_report (cause : SyntaxError.Cause) (hdue : due ⊆ owed) :
    Answers deep name home [] due owed input (report cause input) :=
  fun hfits _ leaf hleaf => ⟨[], leaf, rfl, rfl, hleaf.mono hdue, hfits⟩

theorem Answers.andThen (hfirst : Answers deep name home left due mid input (first input))
    (hsecond : Answers deep name home [] mid owed (first input).rest (second (first input).rest)) :
    Answers deep name home left due owed input ((first ++ second) input) := by
  intro hfits herrors leaf hleaf
  rw [andThen_apply] at herrors ⊢
  obtain ⟨marks, middle, htrees, hruns, hmiddle, hrest⟩ := hfirst hfits
    (fun error hmem => herrors error (List.mem_append_left _ hmem)) leaf hleaf
  obtain ⟨more, last, htrees', hruns', hlast⟩ := hsecond hrest
    (fun error hmem => herrors error (List.mem_append_right _ hmem)) middle hmiddle
  exact ⟨marks ++ more, last, by simp [htrees, htrees'], hruns.append hruns', hlast⟩

theorem Answers.into {next : List Tree → Rule}
    (hfirst : Answers deep name inner left due mid input (first input))
    (hnext : Answers deep name home (Tree.marks inner (first input).trees) mid owed
      (first input).rest (next (first input).trees (first input).rest)) :
    Answers deep name home left due owed input (first.into next input) := by
  intro hfits herrors leaf hleaf
  obtain ⟨marks, middle, htrees, hruns, hmiddle, hrest⟩ := hfirst hfits
    (fun error hmem => herrors error (List.mem_append_left _ hmem)) leaf hleaf
  obtain ⟨more, last, htrees', hruns', hlast⟩ := hnext hrest
    (fun error hmem => herrors error (List.mem_append_right _ hmem)) middle hmiddle
  refine ⟨marks ++ more, last, ?_, hruns.append hruns', hlast⟩
  rw [← List.append_assoc, ← htrees]
  exact htrees'

theorem Answers.wrap {kind : Kind} (h : Answers deep name kind [] due owed input (body input))
    (trees : List Tree) :
    Answers deep name home (Tree.marks kind trees) due owed input (wrap kind trees body input) := by
  intro hfits herrors leaf hleaf
  obtain ⟨marks, last, htrees, hruns, hlast⟩ := h hfits herrors leaf hleaf
  refine ⟨marks, last, ?_, hruns, hlast⟩
  change Tree.marks home [.node kind (trees ++ (body input).trees)] = _
  rw [Tree.marks_node, Tree.marks_append, htrees]
  rfl

theorem answers_settle (hdue : due ⊆ owed) : Answers deep name home [] due owed input (settle input) := by
  intro hfits _ leaf hleaf
  refine ⟨[], leaf, ?_, rfl, ?_, hfits.rest (spells_settle input)⟩
  · cases input with
    | nil => rfl
    | cons lexeme rest => exact Tree.marks_lead home (hfits.led lexeme List.mem_cons_self).1
  · cases input with
    | nil => exact hleaf.mono hdue
    | cons lexeme rest => exact hleaf.mono hdue

theorem Answers.node {kind : Kind}
    (h : Answers deep name kind [] due owed (settle input).rest (body (settle input).rest)) :
    Answers deep name home [] due owed input (node kind body input) :=
  (answers_settle (List.Subset.refl _)).andThen (h.wrap [])

/-- A token is taken that is asked for here or not at all. -/
theorem answers_takeAs {tag : Kind} (hbecomes : (kind input).Becomes tag)
    (hplaced : Leaf.Placed ⟨home, tag, (current input).text⟩)
    (hdue : ∀ asked ∈ due, asked = home ∨ asked = .variableAccess ∧ deep)
    (howed : ∀ kind text asked, Leaf.Asks name ⟨home, tag, (current input).text⟩ kind text asked →
      asked ∈ owed) :
    Answers deep name home [] due owed input (takeAs tag input) := by
  intro hfits _ leaf hleaf
  cases input with
  | nil => exact ⟨[], leaf, rfl, rfl, .of_ne hfits (by nofun) (by nofun), hfits⟩
  | cons lexeme rest =>
      rw [takeAs]
      split
      · rename_i heof
        have hrest := hfits.rest (spells_settle (lexeme :: rest))
        refine ⟨[], leaf, ?_, rfl, .of_ne hrest ?_ ?_, hrest⟩
        · exact Tree.marks_lead home (hfits.led lexeme List.mem_cons_self).1
        · rw [kind_settle, kind_cons, heof]; decide
        · rw [kind_settle, kind_cons, heof]; decide
      · have hled := hfits.led lexeme List.mem_cons_self
        have htag : tag.isTrivia = false := hbecomes.isTrivia_eq.trans hled.2
        refine ⟨[⟨home, tag, lexeme.token.text⟩], _, ?_, ⟨⟨hplaced, ?_⟩, rfl⟩,
          fun asked hasks => howed _ _ asked hasks, hfits.tail⟩
        · rw [Tree.marks_append, Tree.marks_lead home hled.1, Tree.marks_leaf home _ htag]
        · intro asked hasks
          have hasks' : leaf.Asks name (kind (lexeme :: rest)) lexeme.token.text asked := by
            cases hasks with
            | error hhome hword htext => exact .error hhome (hbecomes.isWord_eq ▸ hword) htext
            | access hawaits hword htext => exact .access hawaits (hbecomes.isWord_eq ▸ hword) htext
            | line hline htagged =>
                refine .line hline ?_
                dsimp only at htagged
                rw [htagged] at hbecomes
                exact hbecomes.eq_newline
          rcases hdue asked (hleaf asked hasks') with heq | heq
          · exact .inl heq.symm
          · exact .inr heq

theorem answers_take {tag : Kind} (hkind : kind input = tag) (hstands : tag.stands home = true)
    (hdue : ∀ asked ∈ due, asked = home) (howed : tag.asks home ⊆ owed) :
    Answers deep name home [] due owed input (take input) := by
  subst hkind
  exact answers_takeAs (.same _) (Leaf.placed_of_stands _ hstands)
    (fun asked hmem => .inl (hdue asked hmem)) (fun _ _ _ hasks => howed hasks.mem_asks)

/-- A token that is asked for by nothing and asks for nothing. -/
theorem answers_take_quiet {tag : Kind} (hkind : kind input = tag)
    (hstands : tag.stands home = true) (hquiet : tag.asks home = []) :
    Answers deep name home [] [] [] input (take input) :=
  answers_take hkind hstands (by simp) (by rw [hquiet]; exact List.Subset.refl _)

theorem Answers.ifAt {wanted : Kind} {yes no : Rule}
    (hyes : kind input = wanted → Answers deep name home left due owed input (yes input))
    (hno : kind input ≠ wanted → Answers deep name home left due owed input (no input)) :
    Answers deep name home left due owed input (ifAt wanted yes no input) := by
  unfold Rule.ifAt
  split
  · exact hyes ‹_›
  · exact hno ‹_›

theorem Answers.unlessAt {kinds : List Kind}
    (hdone : kind input ∈ kinds → Answers deep name home [] due owed input (done input))
    (h : kind input ∉ kinds → Answers deep name home [] due owed input (rule input)) :
    Answers deep name home [] due owed input (unlessAt kinds rule input) := by
  unfold Rule.unlessAt
  split
  · rename_i hkind
    exact hdone (by simpa using hkind)
  · rename_i hkind
    exact h (by simpa using hkind)

theorem answers_absent (expected : Expected) (hdue : due ⊆ owed) :
    Answers deep name home [] due owed input (absent expected input) :=
  (answers_report _ (List.Subset.refl due)).andThen ((answers_done hdue).node)

theorem answers_expect {wanted : Kind} (hstands : wanted.stands home = true)
    (howed : wanted.asks home ⊆ owed) :
    Answers deep name home [] [] owed input (expect wanted input) :=
  .ifAt (fun hkind => answers_take hkind hstands (by simp) howed)
    (fun _ => answers_absent _ (List.nil_subset _))

/-- A token that is taken whole, with its trivia, and what is read after it. -/
theorem Answers.cons {lexeme : Lexeme} {rest : List Lexeme}
    (hmore : Answers deep name home [] (lexeme.kind.asks home) owed rest outcome)
    (hstands : lexeme.kind.stands home = true)
    (hdue : ∀ asked ∈ due, asked = home ∨ asked = .variableAccess ∧ deep) :
    Answers deep name home [] due owed (lexeme :: rest)
      { outcome with trees := lexeme.tokens.map Tree.ofToken ++ outcome.trees } := by
  intro hfits herrors leaf hleaf
  have hled := hfits.led lexeme List.mem_cons_self
  obtain ⟨marks, last, htrees, hruns, hlast⟩ := hmore hfits.tail herrors
    ⟨home, lexeme.kind, lexeme.token.text⟩ fun _ hasks => hasks.mem_asks
  refine ⟨_ :: marks, last, ?_, ⟨⟨Leaf.placed_of_stands _ hstands, ?_⟩, hruns⟩, hlast⟩
  · rw [Tree.marks_append, Tree.marks_tokens home hled.1 hled.2, htrees]
    rfl
  · intro asked hasks
    rcases hdue asked (hleaf asked hasks) with heq | heq
    · exact .inl heq.symm
    · exact .inr heq

/-- A node in which newlines are of no account. -/
def ignoresLines (home : Kind) : Bool := Kind.newline.asks home = [] && Kind.newline.stands home

theorem answers_takeNewlines (hhome : ignoresLines home = true) (hdue : due ⊆ [.variableAccess])
    (howed : due ⊆ owed) : Answers deep name home [] due owed input (takeNewlines input) := by
  induction input generalizing due with
  | nil => exact answers_done howed
  | cons lexeme rest ih =>
      unfold takeNewlines
      split
      · rename_i hkind
        simp only [ignoresLines, Bool.and_eq_true, decide_eq_true_eq] at hhome
        refine Answers.weaken [] (Answers.cons ?_ (hkind ▸ hhome.2) (by simp)) ?_
        · rw [hkind, hhome.1]
          exact ih (List.nil_subset _) (List.nil_subset _)
        · intro hfits leaf hleaf
          exact hleaf.of_ne_ident hfits (by rw [kind_cons, hkind]; decide)
            fun asked hmem => .inr (List.mem_singleton.1 (hdue hmem))
      · exact answers_done howed

theorem answers_takeNewlinesBefore (wanted : Kind) (hhome : ignoresLines home = true) :
    Answers deep name home [] [] [] input (takeNewlinesBefore wanted input) := by
  unfold takeNewlinesBefore
  split
  · exact answers_takeNewlines hhome (by simp) (by simp)
  · exact answers_done (by simp)

/-- What is skipped stays in the error node, up to something that is no name. -/
theorem answers_sweep {σ : Type} {next : σ → Kind → Option σ}
    (hstop : ∀ state kind, next state kind = none → kind.isWord = false) (state : σ)
    (hdue : ∀ asked ∈ due, asked = .error ∨ asked = .variableAccess ∧ deep) :
    Answers deep name .error [] due [] input (sweep next state input) := by
  have hend : .object ∉ due := fun hmem => by
    rcases hdue _ hmem with h | ⟨h, -⟩ <;> cases h
  induction input generalizing state due with
  | nil =>
      exact fun hfits _ leaf hleaf => ⟨[], leaf, rfl, rfl, hleaf.of_not_isWord rfl hend, hfits⟩
  | cons lexeme rest ih =>
      cases hnext : next state lexeme.kind with
      | none =>
          rw [sweep_of_none hnext]
          exact Answers.weaken [] (answers_done (by simp))
            fun _ _ hleaf => hleaf.of_not_isWord (hstop _ _ hnext) hend
      | some after =>
          rw [sweep_of_some hnext]
          refine Answers.cons ?_ rfl hdue
          rw [Kind.asks_error]
          exact ih after (by simp) (by simp)

theorem answers_takeUntil {stop : List Kind} (hstop : ∀ kind ∈ stop, kind.isWord = false)
    (hdue : ∀ asked ∈ due, asked = .error ∨ asked = .variableAccess ∧ deep) :
    Answers deep name .error [] due [] input (takeUntil stop input) := by
  rw [takeUntil_eq_sweep]
  refine answers_sweep (fun _ kind hnone => ?_) () hdue
  rcases List.mem_cons.1 (upTo_eq_none_iff.1 hnone) with rfl | hmem
  · rfl
  · exact hstop kind hmem

theorem answers_takeStray (depth : Nat)
    (hdue : ∀ asked ∈ due, asked = .error ∨ asked = .variableAccess ∧ deep) :
    Answers deep name .error [] due [] input (takeStray depth input) := by
  rw [takeStray_eq_sweep]
  refine answers_sweep (fun _ kind hnone => ?_) depth hdue
  have hkind : kind = .interpEnd ∨ kind = .eof := by simpa using overHoles_eq_none hnone
  rcases hkind with rfl | rfl <;> rfl

/-- Nothing is asked by what is skipped. -/
theorem answers_skipTo {stop : List Kind} (cause : SyntaxError.Cause)
    (hstop : ∀ kind ∈ stop, kind.isWord = false) :
    Answers deep name home [] [] [] input (skipTo stop cause input) :=
  (answers_report cause (List.Subset.refl _)).andThen
    (.unlessAt (fun _ => answers_done (List.Subset.refl _)) fun _ =>
      (answers_takeUntil hstop (by simp)).node)

/-- Where expressions nest too deeply, what is asked of the first token may stay open. -/
theorem answers_tooDeep (howed : owed ⊆ [.object]) :
    Answers deep name home [] (.variableAccess :: owed) owed input (tooDeep input) := by
  intro hfits herrors
  have hdeep : deep := by
    refine herrors ⟨.nestingTooDeep, (current input).span⟩ ?_ rfl
    change _ ∈ ([_] ++ _) ++ _
    simp
  revert herrors
  refine Answers.andThen ?_ ((answers_done (List.Subset.refl owed)).node) hfits
  refine (answers_report _ (List.Subset.refl _)).andThen ?_
  refine Answers.unlessAt (fun hkind => ?_) (fun hkind => ?_)
  · change kind input ∈ [Kind.eof, Kind.newline] at hkind
    refine Answers.weaken _ (answers_done (List.Subset.refl owed)) fun hfits leaf hleaf => ?_
    refine hleaf.of_ne_ident hfits ?_ (fun asked hmem => (List.mem_cons.1 hmem).symm)
    rintro hident
    change kind input = Kind.ident at hident
    simp [hident] at hkind
  · change kind input ∉ [Kind.eof, Kind.newline] at hkind
    refine Answers.of_ne_newline [.variableAccess] ?_ ?_ ?_
    · refine Answers.owes_more _ ?_ (List.nil_subset _)
      exact (answers_takeUntil (by simp [Kind.isWord]) (by simp [hdeep])).node
    · rintro hline
      change kind input = Kind.newline at hline
      simp [hline] at hkind
    · intro asked hmem
      rcases List.mem_cons.1 hmem with rfl | hmem
      · exact .inl List.mem_cons_self
      · exact .inr (List.mem_singleton.1 (howed hmem))

theorem answers_loop {choose : List Lexeme → Step} (hprogress : Progresses choose)
    (hagain : ∀ input rule, choose input = .again rule →
      Answers deep name home [] due due input (rule input))
    (hlast : ∀ input rule, choose input = .last rule →
      Answers deep name home [] due owed input (rule input)) (input : List Lexeme) :
    Answers deep name home [] due owed input (loop choose input) := by
  induction input using loop_induction hprogress with
  | last input rule hchoose =>
      rw [loop_of_last hprogress hchoose]
      exact hlast input rule hchoose
  | again input rule hchoose ih =>
      rw [loop_of_again hprogress hchoose]
      exact (hagain input rule hchoose).andThen ih

section Expr

variable {expr : Rule} (hspells : ∀ input, (expr input).Spells [] input)
  (hexpr : ∀ home owed input, owed ⊆ [.object] →
    Answers deep name home [] (.variableAccess :: owed) owed input (expr input))

include hspells hexpr

omit hspells in
/-- An expression where one is asked for. -/
theorem answers_asked : Answers deep name home [] [.variableAccess] [] input (expr input) :=
  hexpr home [] input (by simp)

omit hspells in
/-- An expression where nothing is asked for. -/
theorem answers_unasked : Answers deep name home [] [] [] input (expr input) :=
  Answers.weaken _ (hexpr home [] input (by simp)) fun _ _ hleaf => hleaf.mono (by simp)

omit hspells in
theorem answers_interpolation (hkind : kind input = .interpStart) :
    Answers deep name home [] [] [] input (interpolation expr input) := by
  have hstart : Answers deep name .interpolation [] [] [.variableAccess] (settle input).rest
      (take (settle input).rest) :=
    answers_take (by rw [kind_settle, hkind]) rfl (by simp) (by decide)
  refine Answers.node (((((hstart.andThen
    (answers_takeNewlines rfl (List.Subset.refl _) (List.Subset.refl _))).andThen
    (answers_asked hexpr)).andThen
    (answers_takeNewlines rfl (List.nil_subset _) (List.Subset.refl _))).andThen
    (.unlessAt (fun _ => answers_done (List.Subset.refl _)) fun _ => ?_)).andThen
    (answers_expect rfl (by decide)))
  exact (answers_report _ (List.Subset.refl _)).andThen (answers_takeStray 0 (by simp)).node

theorem answers_string (hkind : kind input = .stringStart) :
    Answers deep name home [] [] [] input (string expr input) := by
  have hstart : kind (settle input).rest = .stringStart := by rw [kind_settle, hkind]
  refine Answers.node ((answers_take_quiet hstart rfl rfl).andThen
    (answers_loop (progresses_stringStep hspells) ?_ ?_ _))
  · intro input rule hchoose
    cases stringRound_of_eq hchoose with
    | text hkind => exact answers_take_quiet hkind rfl rfl
    | hole hkind => exact answers_interpolation hexpr hkind
  · intro input rule hchoose
    cases stringRound_of_eq hchoose with
    | close hkind => exact answers_take_quiet hkind rfl rfl
    | unclosed => exact answers_report _ (List.Subset.refl _)

theorem answers_propertyKey (hword : startsProperty (kind input) = true) :
    Answers deep name home [] [] [] input (propertyKey expr input) := by
  refine Answers.node (.ifAt (answers_string hspells hexpr) fun hstart => ?_)
  rw [kind_settle] at hstart
  simp only [startsProperty, Bool.or_eq_true, decide_eq_true_eq] at hword
  refine answers_takeAs ?_ (Leaf.placed_of_stands _ rfl) (by simp)
    fun _ _ _ hasks => hasks.mem_asks
  rw [kind_settle]
  exact .name (hword.resolve_right hstart)

omit hspells in
theorem answers_propertyValue :
    Answers deep name .objectProperty [] [] [.object] input (propertyValue expr input) := by
  refine .ifAt (fun hkind => ?_) (fun _ => ?_)
  · exact (answers_take hkind rfl (by simp) (List.Subset.refl _)).andThen
      (hexpr _ [.object] _ (List.Subset.refl _))
  · refine (answers_absent _ (List.Subset.refl _)).andThen
      (.unlessAt (fun _ => answers_done (List.nil_subset _)) fun _ => ?_)
    exact (answers_unasked hexpr).owes_more _ (List.nil_subset _)

theorem answers_property (hword : startsProperty (kind input) = true) :
    Answers deep name home [] [] [.object] input (property expr input) := by
  rw [← kind_settle] at hword
  refine Answers.node (((answers_propertyKey hspells hexpr hword).andThen
    (answers_propertyValue hexpr)).andThen
    (.unlessAt (fun _ => answers_done (List.Subset.refl _)) fun hkind => ?_))
  refine Answers.of_ne_newline _
    ((answers_skipTo _ (by simp [Kind.isWord])).owes_more _ (List.nil_subset _)) ?_ (by simp)
  rintro hline
  simp [hline] at hkind

omit hspells hexpr in
theorem mem_contextualWords_of_startsDeclaration (h : startsDeclaration input = true) :
    kind input = .ident ∧ (current input).text ∈ contextualWords := by
  unfold startsDeclaration at h
  split at h
  · rename_i hword
    simp only [isWordAt, Bool.and_eq_true, decide_eq_true_eq] at hword
    exact ⟨hword.1, by simp [hword.2, contextualWords]⟩
  · simp only [Bool.and_eq_true, Option.isSome_iff_exists] at h
    obtain ⟨⟨found, hfound⟩, -⟩ := h
    unfold declarationWord at hfound
    split at hfound
    · rename_i hident
      obtain ⟨before, after, hwords, -⟩ := List.lookup_eq_some_iff.1 hfound
      have hmem : ((current input).text, found) ∈ declarationWords := by simp [hwords]
      refine ⟨hident, ?_⟩
      simp only [declarationWords, List.mem_cons, Prod.mk.injEq, List.not_mem_nil, or_false] at hmem
      rcases hmem with h | h | h | h | h | h <;> simp [h.1, contextualWords]
    · cases hfound

omit hspells hexpr in
/-- A list in brackets answers what its separators ask, by its items or by further newlines. -/
theorem answers_list {node opening close : Kind} {startsItem : Kind → Bool} {item : Rule}
    {cause : SyntaxError.Cause} (pending : List Kind)
    (hprogress : Progresses (listStep close startsItem item cause))
    (hitem : ∀ input, startsItem (kind input) = true →
      Answers deep name node [] pending pending input (item input))
    (hstarts : ∀ kind, startsItem kind = false → kind.isWord = false)
    (hpending : ∀ asked ∈ pending, asked = node ∨ asked = .variableAccess)
    (hstands : ∀ tag ∈ [opening, .newline, .comma, close], tag.stands node = true)
    (hasks : ∀ tag ∈ [opening, .newline, .comma], tag.asks node ⊆ pending)
    (hclose : close ∈ closers ∧ close.asks node = []) (hkind : kind input = opening) :
    Answers deep name home [] [] [] input (list node close startsItem item cause input) := by
  have hcloser : ∀ kind ∈ closers, kind.isWord = false ∧ kind ≠ .newline := by decide
  have hne : ∀ input, (kind input).isWord = false → kind input ≠ .ident := by
    intro input hword hident
    rw [hident] at hword
    cases hword
  have hopening : Answers deep name node [] [] pending (settle input).rest
      (take (settle input).rest) :=
    answers_take (by rw [kind_settle, hkind]) (hstands opening (by simp)) (by simp)
      (hasks opening (by simp))
  have hseparator : ∀ {input : List Lexeme} {tag : Kind}, kind input = tag →
      tag = .newline ∨ tag = .comma → Answers deep name node [] pending pending input (take input) := by
    intro input tag hkind htag
    have hmem : tag ∈ [Kind.newline, .comma] := by simpa using htag
    refine Answers.weaken [node] (answers_take hkind (hstands tag ?_) (by simp)
      (hasks tag (List.mem_cons_of_mem _ hmem))) fun hfits leaf hleaf => ?_
    · exact List.mem_cons_of_mem _ (List.mem_append_left [close] hmem)
    · refine hleaf.of_ne_ident hfits ?_ (by simpa using hpending)
      rcases htag with rfl | rfl <;> rw [hkind] <;> decide
  refine Answers.node (hopening.andThen (answers_loop hprogress ?_ ?_ _))
  · intro input rule hchoose
    cases listRound_of_eq hchoose with
    | newline hkind => exact hseparator hkind (.inl rfl)
    | comma hkind => exact hseparator hkind (.inr rfl)
    | item _ hstart => exact hitem input hstart
    | stray hinside _ _ hstart =>
        refine Answers.of_ne ((answers_skipTo _ ?_).owes_more _ (List.nil_subset _))
          (hne _ (hstarts _ hstart)) hinside.1
        simpa [Kind.isWord] using (hcloser _ hclose.1).1
  · intro input rule hchoose
    cases listRound_of_eq hchoose with
    | close hinside hkind =>
        have hword := hcloser close hclose.1
        exact Answers.of_ne (answers_take_quiet hkind (hstands _ (by simp)) hclose.2)
          (hne _ (by rw [hkind]; exact hword.1)) hinside.1
    | unclosed hinside hend =>
        rcases hend with hend | hend
        · exact Answers.of_ne (answers_absent _ (List.Subset.refl _))
            (hne _ (hcloser _ hend).1) hinside.1
        · obtain ⟨hident, hwords⟩ := mem_contextualWords_of_startsDeclaration hend
          refine Answers.weaken _ (answers_absent _ (List.Subset.refl _)) ?_
          intro hfits leaf hleaf asked hasked
          rcases hasked.kind_cases with ⟨-, -, htext⟩ | ⟨-, hline, -⟩
          · exact absurd (htext ▸ hwords) hfits.fresh
          · exact absurd hline hinside.1

theorem answers_object (hkind : kind input = .lBrace) :
    Answers deep name home [] [] [] input (object expr input) :=
  answers_list [.object] (progresses_property hspells)
    (fun _ hword => Answers.of_ne_newline _ (answers_property hspells hexpr hword)
      (fun hline => absurd (hline ▸ hword) (by decide)) (by simp))
    (fun kind => by cases kind <;> decide) (by decide) (by decide) (by decide) (by decide) hkind

omit hspells in
theorem answers_array
    (hless : ∀ input, startsExpr (kind input) = true → (expr input).rest.length < input.length)
    (hkind : kind input = .lBrack) :
    Answers deep name home [] [] [] input (array expr input) :=
  answers_list [.variableAccess] (progresses_arrayItem hless)
    (fun _ _ => ((answers_asked hexpr).owes_more _ (List.nil_subset _)).node)
    (fun kind => by cases kind <;> decide) (by decide) (by decide) (by decide) (by decide) hkind

omit hspells in
theorem answers_arguments
    (hless : ∀ input, startsExpr (kind input) = true → (expr input).rest.length < input.length)
    (hkind : kind input = .lParen) :
    Answers deep name home [] [] [] input (arguments expr input) :=
  answers_list [.variableAccess] (progresses_arguments hless)
    (fun _ _ => (answers_asked hexpr).owes_more _ (List.nil_subset _))
    (fun kind => by cases kind <;> decide) (by decide) (by decide) (by decide) (by decide) hkind

omit hspells hexpr in
theorem answers_takeAs_quiet {tag : Kind} (hbecomes : (kind input).Becomes tag)
    (hstands : tag.stands home = true) (hquiet : tag.asks home = []) :
    Answers deep name home [] [] [] input (takeAs tag input) :=
  answers_takeAs hbecomes (Leaf.placed_of_stands _ hstands) (by simp)
    (fun _ _ _ hasks => hquiet ▸ hasks.mem_asks)

omit hspells hexpr in
theorem answers_loopVariable : Answers deep name home [] [] [] input (loopVariable input) := by
  unfold loopVariable
  split
  · rename_i hkind
    simp only [Bool.and_eq_true, decide_eq_true_eq] at hkind
    exact (answers_take_quiet (by rw [kind_settle, hkind.1]) rfl rfl).node
  · exact answers_absent _ (List.Subset.refl _)

omit hspells hexpr in
theorem answers_inKeyword :
    Answers deep name .forExpr [] [] [.variableAccess] input (inKeyword input) := by
  unfold inKeyword
  split
  · rename_i hword
    simp only [isWordAt, Bool.and_eq_true, decide_eq_true_eq] at hword
    refine answers_takeAs (hword.1 ▸ .keyword rfl) ⟨by simp, fun _ => .inr hword.2, by simp⟩ (by simp)
      fun _ _ _ hasks => hasks.mem_asks
  · exact answers_absent _ (List.nil_subset _)

omit hspells in
theorem answers_forExpr (hbracket : kind input = .lBrack)
    (hfor : isWordAt input.tail "for" = true) :
    Answers deep name home [] [] [] input (forExpr expr input) := by
  have hstart : kind (settle input).rest = .lBrack := by rw [kind_settle, hbracket]
  have hident := kind_eq_of_isWordAt (isWordAt_rest_take hbracket hfor)
  have hkeyword : (kind (take (settle input).rest).rest).Becomes .forKw := hident ▸ .keyword rfl
  have hheader : Answers deep name .forExpr [] [] [.variableAccess] (settle input).rest
      ((take ++ takeAs .forKw ++ loopVariable ++ inKeyword) (settle input).rest) :=
    (((answers_take_quiet hstart rfl rfl).andThen
      (answers_takeAs_quiet hkeyword rfl rfl)).andThen answers_loopVariable).andThen
      answers_inKeyword
  have hbody : Answers deep name .forExpr [] [] [] (settle input).rest
      ((take ++ takeAs .forKw ++ loopVariable ++ inKeyword ++ expr ++ expect .colon ++
        takeNewlines ++ expr) (settle input).rest) :=
    (((hheader.andThen (answers_asked hexpr)).andThen
      (answers_expect rfl (List.Subset.refl [Kind.variableAccess]))).andThen
      (answers_takeNewlines rfl (List.Subset.refl _) (List.Subset.refl _))).andThen
      (answers_asked hexpr)
  exact Answers.node (((hbody.andThen (.unlessAt (fun _ => answers_done (List.Subset.refl _))
    fun _ => answers_skipTo _ (by simp [Kind.isWord]))).andThen
    (answers_takeNewlinesBefore _ rfl)).andThen (answers_expect rfl (by decide)))

omit hspells in
theorem answers_paren (hkind : kind input = .lParen) :
    Answers deep name home [] [] [] input (paren expr input) := by
  have hstart : Answers deep name .parenExpr [] [] [.variableAccess] (settle input).rest
      (take (settle input).rest) :=
    answers_take (by rw [kind_settle, hkind]) rfl (by simp) (by decide)
  exact Answers.node ((((hstart.andThen
    (answers_takeNewlines rfl (List.Subset.refl _) (List.Subset.refl _))).andThen
    (answers_asked hexpr)).andThen (answers_takeNewlinesBefore _ rfl)).andThen
    (answers_expect rfl (by decide)))

theorem answers_primary
    (hless : ∀ input, startsExpr (kind input) = true → (expr input).rest.length < input.length)
    (howed : owed ⊆ [.object]) :
    Answers deep name home [] (.variableAccess :: owed) owed input (primary expr input) := by
  have hplain : ∀ {outcome}, Answers deep name home [] [] [] input outcome →
      kind input ≠ .ident → kind input ≠ .newline →
      Answers deep name home [] (.variableAccess :: owed) owed input outcome :=
    fun h hident hline => Answers.of_ne (h.owes_more _ (List.nil_subset _)) hident hline
  have hopens : ∀ {outcome}, Answers deep name home [] [] [] input outcome →
      kind input ∈ [Kind.stringStart, .lBrace, .lBrack, .lParen] →
      Answers deep name home [] (.variableAccess :: owed) owed input outcome := by
    intro outcome h hmem
    exact hplain h (fun hident => absurd (hident ▸ hmem) (by decide))
      (fun hline => absurd (hline ▸ hmem) (by decide))
  have hliteral : ∀ kind ∈ literalKinds, kind.stands .literal = true ∧ kind.asks .literal = [] ∧
      kind ≠ .ident ∧ kind ≠ .newline := by decide
  obtain ⟨rule, hrule, heq⟩ := exists_primary expr input
  rw [heq]
  cases hrule with
  | literal hkind =>
      obtain ⟨hstands, hquiet, hident, hline⟩ := hliteral _ hkind
      exact hplain (answers_take_quiet (kind_settle input) hstands hquiet).node hident hline
  | string hkind => exact hopens (answers_string hspells hexpr hkind) (by rw [hkind]; decide)
  | object hkind => exact hopens (answers_object hspells hexpr hkind) (by rw [hkind]; decide)
  | loop hkind hfor => exact hopens (answers_forExpr hexpr hkind hfor) (by rw [hkind]; decide)
  | array hkind => exact hopens (answers_array hexpr hless hkind) (by rw [hkind]; decide)
  | paren hkind => exact hopens (answers_paren hexpr hkind) (by rw [hkind]; decide)
  | word hword =>
      have hline : kind input ≠ .newline := by
        rintro hline
        rw [hline] at hword
        cases hword
      have hname : Answers deep name .variableAccess [] [.variableAccess] [] (settle input).rest
          (takeAs .ident (settle input).rest) :=
        answers_takeAs (by rw [kind_settle]; exact .name hword) (Leaf.placed_of_stands _ rfl)
          (by simp) (fun _ _ _ hasks => hasks.mem_asks)
      refine Answers.of_ne_newline [.variableAccess]
        (hname.node.owes_more _ (List.nil_subset _)) hline fun asked hmem => ?_
      rcases List.mem_cons.1 hmem with rfl | hmem
      · exact .inl List.mem_cons_self
      · exact .inr (List.mem_singleton.1 (howed hmem))
  | absent hword =>
      refine Answers.weaken _ (answers_absent _ (List.Subset.refl owed)) fun hfits leaf hleaf => ?_
      refine hleaf.of_ne_ident hfits ?_ (fun asked hmem => (List.mem_cons.1 hmem).symm)
      rintro hident
      rw [hident] at hword
      cases hword

end Expr

/-- The rules of a level answer what is asked of an expression; an object may be asked to go on
after it. A chain goes on from trees that have no tokens of their own. -/
structure Level.Answers (deep : Prop) (name : String) (level : Level) : Prop where
  expr : ∀ home owed input, owed ⊆ [.object] →
    Rule.Answers deep name home [] (.variableAccess :: owed) owed input (level.expr input)
  unary : ∀ home owed input, owed ⊆ [.object] →
    Rule.Answers deep name home [] (.variableAccess :: owed) owed input (level.unary input)
  links : ∀ home owed receiver input, owed ⊆ [.object] → (∀ tree ∈ receiver, tree.IsCovered) →
    Rule.Answers deep name home (Tree.marks home receiver) owed owed input
      (level.links receiver input)
  operators : ∀ home owed least left input, owed ⊆ [.object] → (∀ tree ∈ left, tree.IsCovered) →
    Rule.Answers deep name home (Tree.marks home left) owed owed input
      (level.operators least left input)

namespace Level

variable {level : Level} {receiver : List Tree}

theorem answers_keep_tooDeep (howed : owed ⊆ [.object]) (trees : List Tree) :
    Rule.Answers deep name home (Tree.marks home trees) owed owed input
      ((keep trees ++ tooDeep) input) :=
  (answers_keep trees (List.Subset.refl _)).andThen
    (Answers.weaken _ (answers_tooDeep howed) fun _ _ hleaf => hleaf.mono (by simp))

theorem answers_member : Rule.Answers deep name .propertyAccess [] [] [] input (member input) := by
  unfold member
  split
  · exact answers_takeAs_quiet (.name ‹_›) rfl rfl
  · exact answers_absent _ (List.Subset.refl _)

theorem Answers.link (h : level.Answers deep name) (hprogress : level.Progresses)
    (hstart : startsLink (kind input) = true) (hreceiver : ∀ tree ∈ receiver, tree.IsCovered) :
    Rule.Answers deep name home (Tree.marks home receiver) owed owed input
      (level.link receiver input) := by
  have hmarks := fun kind => Tree.marks_of_isCovered hreceiver home kind
  have hne : kind input ≠ .ident ∧ kind input ≠ .newline := by
    constructor <;> rintro hkind <;> rw [hkind] at hstart <;> cases hstart
  refine Rule.Answers.of_ne (Answers.owes_more [] ?_ (List.nil_subset _)) hne.1 hne.2
  unfold Level.link
  split
  · rename_i hkind
    rw [hmarks .propertyAccess]
    exact ((answers_take_quiet hkind rfl rfl).andThen answers_member).wrap receiver
  · rename_i hkind
    rw [hmarks .arrayAccess]
    refine Rule.Answers.wrap (((answers_take hkind rfl (by simp)
      (List.Subset.refl _)).andThen ?_).andThen (answers_expect rfl (by decide))) receiver
    exact answers_asked h.expr
  · rename_i hdot hbracket
    have hkind : kind input = .lParen := eq_lParen_of_startsLink hstart hdot hbracket
    rw [hmarks .callExpr]
    exact (answers_arguments h.expr hprogress.expr hkind).wrap receiver

theorem Answers.binary (h : level.Answers deep name) (hcovered : level.Covered)
    (howed : owed ⊆ [.object]) (least : Nat) :
    Rule.Answers deep name home [] (.variableAccess :: owed) owed input
      (level.binary least input) := by
  refine Rule.Answers.of_led fun hled => ?_
  have hunary := hcovered.unary _ ((spells_settle input).led hled)
  exact (answers_settle (List.Subset.refl _)).andThen ((h.unary home owed _ howed).into
    (h.operators home owed least _ _ howed hunary))

theorem Answers.ternary (h : level.Answers deep name) (hspells : level.Spells)
    (hcovered : level.Covered) (howed : owed ⊆ [.object]) :
    Rule.Answers deep name home [] (.variableAccess :: owed) owed input
      (level.ternary input) := by
  refine Rule.Answers.of_led fun hled => ?_
  have htest := hcovered.binary hspells 1 _ ((spells_settle input).led hled)
  have hbinary : Rule.Answers deep name home [] (.variableAccess :: owed) owed
      (settle input).rest (level.binary 1 (settle input).rest) := h.binary hcovered howed 1
  rw [ternary_eq]
  refine (answers_settle (List.Subset.refl _)).andThen (hbinary.into (.ifAt (fun hkind => ?_)
    fun _ => answers_keep _ (List.Subset.refl _)))
  refine Rule.Answers.of_ne (Answers.owes_more [] ?_ (List.nil_subset _))
    (by rw [hkind]; decide) (by rw [hkind]; decide)
  rw [Tree.marks_of_isCovered htest home .ternaryExpr]
  have hquestion : Rule.Answers deep name .ternaryExpr [] [] [.variableAccess]
      (level.binary 1 (settle input).rest).rest
      (take (level.binary 1 (settle input).rest).rest) :=
    answers_take hkind rfl (by simp) (List.Subset.refl _)
  exact Rule.Answers.wrap (((hquestion.andThen (answers_asked h.expr)).andThen
    (answers_expect rfl (List.Subset.refl [Kind.variableAccess]))).andThen
    (answers_asked h.expr)) _

theorem answers_chain (hspells : ∀ input, (level.expr input).Spells [] input)
    (hless : ∀ input, startsExpr (kind input) = true →
      (level.expr input).rest.length < input.length)
    (hexpr : ∀ home owed input, owed ⊆ [.object] →
      Rule.Answers deep name home [] (.variableAccess :: owed) owed input (level.expr input))
    (hlinks : ∀ home owed receiver input, owed ⊆ [.object] → (∀ tree ∈ receiver, tree.IsCovered) →
      Rule.Answers deep name home (Tree.marks home receiver) owed owed input
        (level.links receiver input)) (howed : owed ⊆ [.object]) :
    Rule.Answers deep name home [] (.variableAccess :: owed) owed input (level.chain input) := by
  refine Rule.Answers.of_led fun hled => ?_
  have hprimary : Rule.Answers deep name home [] (.variableAccess :: owed) owed
      (settle input).rest (primary level.expr (settle input).rest) :=
    answers_primary hspells hexpr hless howed
  exact (answers_settle (List.Subset.refl _)).andThen (hprimary.into (hlinks home owed _ _ howed
    (covered_primary _ _ ((spells_settle input).led hled))))

theorem Answers.unaryExpr (h : level.Answers deep name)
    (hkind : kind input = .bang ∨ kind input = .minus) :
    Rule.Answers deep name home [] (.variableAccess :: owed) owed input
      (node .unaryExpr (take ++ level.unary) input) := by
  have hne : kind input ≠ .ident ∧ kind input ≠ .newline := by
    rcases hkind with hkind | hkind <;> rw [hkind] <;> decide
  have hoperator : Rule.Answers deep name .unaryExpr [] [] [.variableAccess] (settle input).rest
      (take (settle input).rest) := by
    rcases hkind with hkind | hkind
    · exact answers_take (by rw [kind_settle, hkind]) rfl (by simp) (by decide)
    · exact answers_take (by rw [kind_settle, hkind]) rfl (by simp) (by decide)
  refine Rule.Answers.of_ne (Answers.owes_more [] ?_ (List.nil_subset _)) hne.1 hne.2
  exact (hoperator.andThen (h.unary _ [] _ (by simp))).node

theorem Answers.binaryExpr {precedence : Nat} {left : List Tree} (h : level.Answers deep name)
    (hcovered : level.Covered) (hprecedence : (kind input).precedence = some precedence)
    (hleft : ∀ tree ∈ left, tree.IsCovered) :
    Rule.Answers deep name home (Tree.marks home left) owed owed input
      (wrap .binaryExpr left (take ++ level.binary (precedence + 1)) input) := by
  have hne : kind input ≠ .ident ∧ kind input ≠ .newline := by
    constructor <;> rintro hkind <;> rw [hkind] at hprecedence <;> cases hprecedence
  have hoperator : Rule.Answers deep name .binaryExpr [] [] [.variableAccess] input
      (take input) := by
    refine answers_take rfl ?_ (by simp) ?_
    · cases hkind : kind input <;> rw [hkind] at hprecedence <;> first | rfl | cases hprecedence
    · cases kind input <;> decide
  have hbody : Rule.Answers deep name .binaryExpr [] [] [] input
      ((take ++ level.binary (precedence + 1)) input) :=
    hoperator.andThen (h.binary hcovered (by simp) _)
  rw [Tree.marks_of_isCovered hleft home .binaryExpr]
  exact Rule.Answers.of_ne (Answers.owes_more [] (hbody.wrap left) (List.nil_subset _)) hne.1 hne.2

theorem answers_above {below : Option Level} (hspells : ∀ level ∈ below, level.Spells)
    (hcovered : ∀ level ∈ below, level.Covered) (hprogress : ∀ level ∈ below, level.Progresses)
    (h : ∀ level ∈ below, level.Answers deep name) : (above below).Answers deep name := by
  have hall := spells_above hspells
  have hless := (progresses_above hspells hprogress).expr
  have hexpr : ∀ home owed input, owed ⊆ [.object] →
      Rule.Answers deep name home [] (.variableAccess :: owed) owed input
        ((above below).expr input) := by
    intro home owed input howed
    cases below with
    | none => exact answers_tooDeep howed
    | some level => exact (h level rfl).ternary (hspells level rfl) (hcovered level rfl) howed
  have hlinks : ∀ home owed receiver input, owed ⊆ [.object] →
      (∀ tree ∈ receiver, tree.IsCovered) →
      Rule.Answers deep name home (Tree.marks home receiver) owed owed input
        ((above below).links receiver input) := by
    intro home owed receiver input howed hreceiver
    refine Rule.Answers.of_led fun hled => ?_
    rw [links_above]
    split
    · cases below with
      | none => exact answers_keep_tooDeep howed receiver
      | some level =>
          have hlink : Rule.Answers deep name home (Tree.marks home receiver) owed owed input
              (level.link receiver input) :=
            (h level rfl).link (hprogress level rfl) ‹_› hreceiver
          exact hlink.into ((h level rfl).links home owed _ _ howed
            (covered_link level receiver input hled))
    · exact answers_keep receiver (List.Subset.refl _)
  refine ⟨hexpr, fun home owed input howed => ?_, hlinks,
    fun home owed least left input howed hleft => ?_⟩
  · rw [unary_above]
    split
    · rename_i hkind
      cases below with
      | none => exact answers_tooDeep howed
      | some level => exact (h level rfl).unaryExpr hkind
    · exact answers_chain hall.expr hless hexpr hlinks howed
  · refine Rule.Answers.of_led fun hled => ?_
    rw [operators_above]
    split
    · exact answers_keep left (List.Subset.refl _)
    · rename_i precedence hprecedence
      split
      · exact answers_keep left (List.Subset.refl _)
      · cases below with
        | none => exact answers_keep_tooDeep howed left
        | some level =>
            have hoperation : Rule.Answers deep name home (Tree.marks home left) owed owed input
                (wrap .binaryExpr left (take ++ level.binary (precedence + 1)) input) :=
              (h level rfl).binaryExpr (hcovered level rfl) hprecedence hleft
            exact hoperation.into ((h level rfl).operators home owed least _ _ howed
              (covered_wrap left _ rfl input hled))

end Level

theorem answers_level (budget : Nat) : (level budget).Answers deep name :=
  level_induction (fun _ hbelow known => Level.answers_above (known spells_level)
    (known covered_level) (known progresses_level) hbelow) budget

/-! The rules of documents -/

theorem answers_expr (howed : owed ⊆ [.object]) :
    Answers deep name home [] (.variableAccess :: owed) owed input (expr input) :=
  (answers_level maxDepth).expr home owed input howed

theorem answers_decorator (hkind : kind input = .atSign) :
    Answers deep name home [] [] [] input (decorator input) := by
  have hlevel : outermost.Answers deep name := answers_level maxDepth
  have hchain : ∀ input, Answers deep name .decorator [] [] [] input (outermost.chain input) :=
    fun input => Answers.weaken _ (Level.answers_chain (spells_level maxDepth).expr
      (progresses_level maxDepth).expr hlevel.expr hlevel.links (List.nil_subset _))
      fun _ _ hleaf => hleaf.mono (by simp)
  exact (Answers.node ((answers_take_quiet (by rw [kind_settle, hkind]) rfl rfl).andThen
    (.ifAt (fun _ => hchain _) (fun _ => answers_absent _ (List.Subset.refl _))))).andThen
    (.unlessAt (fun _ => answers_done (List.Subset.refl _))
      fun _ => answers_skipTo _ (by simp [Kind.isWord]))

theorem answers_name : Answers deep name home [] [] [] input (Rule.name input) :=
  .ifAt (fun hkind => (answers_take_quiet (by rw [kind_settle, hkind]) rfl rfl).node)
    (fun _ => answers_absent _ (List.Subset.refl _))

theorem answers_typeName : Answers deep name home [] [] [] input (typeName input) :=
  .ifAt (fun hkind => (answers_take_quiet (by rw [kind_settle, hkind]) rfl rfl).node)
    (fun _ => answers_absent _ (List.Subset.refl _))

theorem answers_string_expr (hkind : kind input = .stringStart) :
    Answers deep name home [] [] [] input (string expr input) :=
  answers_string spells_expr (fun _ _ _ howed => answers_expr howed) hkind

theorem answers_quoted (kind : Kind) (expected : Expected) :
    Answers deep name home [] [] [] input (quoted kind expected input) :=
  .ifAt (fun hkind => (answers_string_expr (by rw [kind_settle, hkind])).node)
    (fun _ => answers_absent _ (List.Subset.refl _))

theorem answers_existing : Answers deep name .resourceDecl [] [] [] input (existing input) := by
  unfold existing
  split
  · exact answers_takeAs_quiet (kind_eq_of_isWordAt ‹_› ▸ .keyword rfl) rfl rfl
  · exact answers_done (List.Subset.refl _)

theorem answers_value (hhome : home.isDeclaration = true) :
    Answers deep name home [] [] [] input ((expect .eq ++ expr) input) := by
  have hequals : Answers deep name home [] [] [.variableAccess] input (expect .eq input) := by
    cases home <;> first | exact answers_expect rfl (by decide) | cases hhome
  exact hequals.andThen (answers_expr (List.nil_subset _))

theorem answers_header (hhome : home.isDeclaration = true) :
    Answers deep name home [] [] [] input (header home input) := by
  cases home with
  | targetScopeDecl => exact answers_value rfl
  | paramDecl =>
      refine (answers_name.andThen answers_typeName).andThen (.ifAt (fun hkind => ?_)
        (fun _ => answers_done (List.Subset.refl _)))
      exact (answers_take hkind rfl (by simp) (List.Subset.refl [Kind.variableAccess])).andThen
        (answers_expr (List.nil_subset _))
  | varDecl =>
      rw [header, andThen_assoc]
      exact answers_name.andThen (answers_value rfl)
  | outputDecl =>
      rw [header, andThen_assoc]
      exact (answers_name.andThen answers_typeName).andThen (answers_value rfl)
  | resourceDecl =>
      rw [header, andThen_assoc]
      exact ((answers_name.andThen (answers_quoted _ _)).andThen answers_existing).andThen
        (answers_value rfl)
  | moduleDecl =>
      rw [header, andThen_assoc]
      exact (answers_name.andThen (answers_quoted _ _)).andThen (answers_value rfl)
  | _ => cases hhome

theorem answers_endDeclaration : Answers deep name home [] [] [] input (endDeclaration input) := by
  unfold endDeclaration
  split
  · exact answers_done (List.Subset.refl _)
  · exact .unlessAt (fun _ => answers_done (List.Subset.refl _))
      fun _ => answers_skipTo _ (by simp [Kind.isWord])

/-- Decorators and the newlines after them answer alike as children of a declaration and of the
root. -/
theorem answers_decorators (hhome : ignoresLines home = true) :
    Answers deep name home [] [] [] input (loop decoratorStep input) := by
  refine answers_loop progresses_decoratorStep ?_ ?_ _
  · intro input rule hchoose
    cases decoratorRound_of_eq hchoose with
    | decorator hkind =>
        exact (answers_decorator hkind).andThen
          (answers_takeNewlines hhome (List.nil_subset _) (List.Subset.refl _))
  · intro input rule hchoose
    cases decoratorRound_of_eq hchoose with
    | done => exact answers_done (List.Subset.refl _)

theorem quiet_of_declarationWord {node keyword : Kind}
    (h : declarationWord input = some (node, keyword)) :
    keyword.stands node = true ∧ keyword.asks node = [] := by
  unfold declarationWord at h
  split at h
  · obtain ⟨before, after, hwords, -⟩ := List.lookup_eq_some_iff.1 h
    have hmem : ((current input).text, node, keyword) ∈ declarationWords := by simp [hwords]
    simp only [declarationWords, List.mem_cons, Prod.mk.injEq, List.not_mem_nil, or_false] at hmem
    rcases hmem with ⟨-, rfl, rfl⟩ | ⟨-, rfl, rfl⟩ | ⟨-, rfl, rfl⟩ | ⟨-, rfl, rfl⟩ |
      ⟨-, rfl, rfl⟩ | ⟨-, rfl, rfl⟩ <;> decide
  · cases h

theorem answers_declaration : Answers deep name .root [] [] [] input (declaration input) := by
  refine (answers_settle (List.Subset.refl _)).andThen ?_
  let decorators := loop decoratorStep (settle input).rest
  -- The decorators are children of the declaration, if there is one, and of the root otherwise.
  have hroot : Answers deep name .root [] [] [] (settle input).rest decorators :=
    answers_decorators rfl
  obtain ⟨rule, hrule, heq⟩ := exists_undecorated decorators.trees decorators.rest
  cases hrule with
  | @declaration node keyword hword hident hkeyword hnode =>
      have hdecorators : Answers deep name node [] [] [] (settle input).rest decorators :=
        answers_decorators (by cases node <;> first | rfl | cases hnode)
      have hbody : Answers deep name node [] [] [] decorators.rest
          ((takeAs keyword ++ header node) decorators.rest) := by
        obtain ⟨hstands, hquiet⟩ := quiet_of_declarationWord hword
        exact (answers_takeAs_quiet (hident ▸ .keyword hkeyword) hstands hquiet).andThen
          (answers_header hnode)
      refine hdecorators.into ?_
      change Answers _ _ _ _ _ _ _ (undecorated decorators.trees decorators.rest)
      rw [heq]
      exact (hbody.wrap decorators.trees).andThen answers_endDeclaration
  | alone =>
      refine hroot.into ?_
      change Answers _ _ _ _ _ _ _ (undecorated decorators.trees decorators.rest)
      rw [heq]
      exact answers_keep _ (List.Subset.refl _)
  | stray =>
      refine hroot.into ?_
      change Answers _ _ _ _ _ _ _ (undecorated decorators.trees decorators.rest)
      rw [heq]
      exact (answers_keep _ (List.Subset.refl _)).andThen
        (answers_skipTo _ (by simp [Kind.isWord]))

theorem answers_document : Answers deep name home [] [] [] input (document input) := by
  refine Answers.wrap (answers_loop progresses_documentStep ?_ ?_ _) []
  · intro input rule hchoose
    cases documentRound_of_eq hchoose with
    | newline hkind => exact answers_take_quiet hkind rfl rfl
    | declaration => exact answers_declaration
  · intro input rule hchoose
    cases documentRound_of_eq hchoose with
    | fileEnd => exact answers_settle (List.Subset.refl _)

end Rule

end Caret
