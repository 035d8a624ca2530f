import Caret.Proofs.Rule.InStep
import Caret.Proofs.Tree.Objects

/-!
# A name behind a token of an object

Two inputs are the same up to a token that a key can come behind: a brace that opens an object, a
newline or a comma. In the second one a name follows it. A rule that is read on both builds the same
trees as long as it is in front of that token. Where the first input has the token in an object, the
second one has an object that starts at the same byte, with the name as a key in it.
-/

namespace Caret

/-- The kinds of the tokens of an object that a key can come behind. -/
def Kind.precedesKey : Kind → Bool
  | lBrace | newline | comma => true
  | _ => false

namespace Rule

open Tree (sizeAll Gains GainsIn HasTokenAt HasKeyAt Stays)

/-- Two inputs that are the same for so many bytes and then have such a token, in the second one
followed by a name that starts so many bytes behind the start of the token. -/
inductive Fork (name : String) (shift : Nat) : Nat → List Lexeme → List Lexeme → Prop where
  | here {first other next : Lexeme} {rest rest' : List Lexeme} :
      first.lead.map Tree.ofToken = other.lead.map Tree.ofToken →
      first.kind = other.kind → first.kind.precedesKey = true → first.token.text ≠ "" →
      next.kind = .ident → next.token.text = name →
      other.token.text.utf8ByteSize + sizeAll (next.lead.map Tree.ofToken) = shift →
      Fork name shift (sizeAll (first.lead.map Tree.ofToken)) (first :: rest)
        (other :: next :: rest')
  | there {place : Nat} {lexeme other : Lexeme} {rest rest' : List Lexeme} :
      lexeme.lead.map Tree.ofToken = other.lead.map Tree.ofToken →
      Tree.ofToken lexeme.token = Tree.ofToken other.token → lexeme.kind ≠ .eof →
      Fork name shift place rest rest' →
      Fork name shift (sizeAll (lexeme.tokens.map Tree.ofToken) + place) (lexeme :: rest)
        (other :: rest')

/-- Inputs that fork with nothing but trivia in front of the tokens, and with a name that is no
keyword anywhere. -/
structure Forked (name : String) (shift place : Nat) (input input' : List Lexeme) : Prop where
  fork : Fork name shift place input input'
  led : Led input
  led' : Led input'
  fresh : name ∉ contextualWords

/-- Two outcomes for inputs that fork at a place: both are in front of it and the same so far, or
the first one is past it, and the trees of the second one gain what they should. -/
def Parted (gains : Nat → List Tree → List Tree → Prop) (name : String) (shift place : Nat)
    (outcome outcome' : Outcome) : Prop :=
  (∃ left, place = sizeAll outcome.trees + left ∧ outcome'.trees = outcome.trees ∧
    Forked name shift left outcome.rest outcome'.rest) ∨
  gains place outcome.trees outcome'.trees

/-- A rule that does the same on inputs that fork, up to there. An object that has the token in the
first one has a counterpart in the second one, with the name as a key. -/
def Forks (name : String) (shift : Nat) (rule : Rule) : Prop :=
  ∀ place input input', Forked name shift place input input' →
    Parted (Gains name shift) name shift place (rule input) (rule input')

variable {name : String} {shift place : Nat} {input input' : List Lexeme}
  {first second body rule : Rule} {outcome outcome' : Outcome}
  {gains : Nat → List Tree → List Tree → Prop}

theorem ofToken_inj {token other : Token} (h : Tree.ofToken token = Tree.ofToken other) :
    token.kind = other.kind ∧ token.text = other.text := by
  simpa [Tree.ofToken] using h

namespace Forked

theorem kind_eq (h : Forked name shift place input input') : kind input = kind input' := by
  cases h.fork with
  | here _ hkind => exact hkind
  | there _ htoken => exact (ofToken_inj htoken).1

theorem ne_eof (h : Forked name shift place input input') : kind input ≠ .eof := by
  cases h.fork with
  | @here first other _ _ _ _ _ hkind =>
      rw [kind_cons]
      intro heof
      rw [heof] at hkind
      cases hkind
  | there _ _ heof => exact heof

theorem tail {lexeme other : Lexeme} {rest rest' : List Lexeme} {left : Nat}
    (h : Forked name shift place (lexeme :: rest) (other :: rest'))
    (hrest : Fork name shift left rest rest') : Forked name shift left rest rest' :=
  ⟨hrest, h.led.tail, h.led'.tail, h.fresh⟩

/-- Inputs that fork are inputs that part ways. -/
theorem exists_along (h : Forked name shift place input input') :
    ∃ count, Along name count input input' := by
  have hagree : ∃ count, Agree name count input input' := by
    have hfork := h.fork
    clear h
    induction hfork with
    | @here first other _ _ _ _ hsame hkind _ hident htext _ =>
        refine ⟨0, .here (hsame ▸ .same _) (fun heof => ?_) (fun hword => ?_) hident htext⟩
        · rw [heof] at hkind
          cases hkind
        · rw [hword] at hkind
          cases hkind
    | there _ htoken heof _ ih =>
        obtain ⟨count, ih⟩ := ih
        exact ⟨count + 1, .there (ofToken_inj htoken).1 (ofToken_inj htoken).2 heof ih⟩
  obtain ⟨count, hagree⟩ := hagree
  exact ⟨count, hagree, h.led, h.led', h.fresh⟩

theorem isWordAt_eq (h : Forked name shift place input input') (word : String) :
    isWordAt input word = isWordAt input' word := by
  obtain ⟨count, halong⟩ := h.exists_along
  exact halong.isWordAt_eq word

theorem declarationWord_eq (h : Forked name shift place input input') :
    declarationWord input = declarationWord input' := by
  obtain ⟨count, halong⟩ := h.exists_along
  exact halong.declarationWord_eq

theorem startsDeclaration_eq (h : Forked name shift place input input') :
    startsDeclaration input = startsDeclaration input' := by
  obtain ⟨count, halong⟩ := h.exists_along
  exact halong.startsDeclaration_eq

theorem settle (h : Forked name shift place input input') :
    (settle input').trees = (settle input).trees ∧ ∃ left,
      place = sizeAll (Rule.settle input).trees + left ∧
        Forked name shift left (Rule.settle input).rest (Rule.settle input').rest := by
  have hled := (spells_settle input).led h.led
  have hled' := (spells_settle input').led h.led'
  cases h.fork with
  | @here first other next rest rest' hlead hkind hprecedes hne hident htext hshift =>
      have hfork : Fork name shift (sizeAll (Lexeme.lead ⟨[], first.token⟩ |>.map Tree.ofToken))
          (⟨[], first.token⟩ :: rest) (⟨[], other.token⟩ :: next :: rest') :=
        .here rfl hkind hprecedes hne hident htext hshift
      exact ⟨hlead.symm, _, rfl, hfork, hled, hled', h.fresh⟩
  | @there place lexeme other rest rest' hlead htoken heof hrest =>
      have hfork : Fork name shift
          (sizeAll (Lexeme.tokens ⟨[], lexeme.token⟩ |>.map Tree.ofToken) + place)
          (⟨[], lexeme.token⟩ :: rest) (⟨[], other.token⟩ :: rest') := .there rfl htoken heof hrest
      refine ⟨hlead.symm, _, ?_, hfork, hled, hled', h.fresh⟩
      rw [Lexeme.tokens, List.map_append, Tree.sizeAll_append, Nat.add_assoc]
      rfl

end Forked

namespace Parted

theorem andThen (hstays : Stays gains)
    (hfirst : Parted gains name shift place (first input) (first input'))
    (hsecond : ∀ left, Forked name shift left (first input).rest (first input').rest →
      Parted gains name shift left (second (first input).rest) (second (first input').rest)) :
    Parted gains name shift place ((first ++ second) input) ((first ++ second) input') := by
  rw [andThen_apply, andThen_apply]
  rcases hfirst with ⟨left, hplace, htrees, hforked⟩ | hgains
  · rcases hsecond left hforked with ⟨left', hleft, htrees', hforked'⟩ | hgains
    · refine .inl ⟨left', ?_, ?_, hforked'⟩
      · rw [Tree.sizeAll_append]
        omega
      · rw [htrees, htrees']
    · refine .inr ?_
      rw [hplace]
      dsimp only
      rw [htrees]
      exact hstays.prepend hgains _
  · exact .inr (hstays.append hgains _ _)

end Parted

theorem Forks.andThen (hfirst : first.Forks name shift) (hsecond : second.Forks name shift) :
    (first ++ second).Forks name shift :=
  fun place input input' hforked => (hfirst place input input' hforked).andThen
    (Tree.stays_gains name shift) fun left => hsecond left _ _

/-- A rule that takes nothing. -/
theorem parted_of_nil (hforked : Forked name shift place input input')
    (htrees : outcome.trees = []) (htrees' : outcome'.trees = []) (hrest : outcome.rest = input)
    (hrest' : outcome'.rest = input') :
    Parted gains name shift place outcome outcome' :=
  .inl ⟨place, by simp [htrees, sizeAll], by rw [htrees, htrees'], by rwa [hrest, hrest']⟩

theorem forks_done : done.Forks name shift :=
  fun _ _ _ hforked => parted_of_nil hforked rfl rfl rfl rfl

theorem forks_report (cause : SyntaxError.Cause) : (report cause).Forks name shift :=
  fun _ _ _ hforked => parted_of_nil hforked rfl rfl rfl rfl

theorem forks_settle : settle.Forks name shift := by
  intro place input input' hforked
  obtain ⟨htrees, left, hplace, hforked'⟩ := hforked.settle
  exact .inl ⟨left, hplace, htrees, hforked'⟩

/-- A token in front of the fork is taken alike. -/
theorem parted_takeAs {lexeme other : Lexeme} {rest rest' : List Lexeme} {left : Nat} (tag : Kind)
    (hforked : Forked name shift place (lexeme :: rest) (other :: rest'))
    (hplace : place = sizeAll (lexeme.tokens.map Tree.ofToken) + left)
    (hlead : lexeme.lead.map Tree.ofToken = other.lead.map Tree.ofToken)
    (htoken : Tree.ofToken lexeme.token = Tree.ofToken other.token)
    (hrest : Fork name shift left rest rest') :
    Parted gains name shift place (takeAs tag (lexeme :: rest)) (takeAs tag (other :: rest')) := by
  have heof := hforked.ne_eof
  have heof' := hforked.kind_eq ▸ heof
  rw [takeAs_cons heof, takeAs_cons heof']
  refine .inl ⟨left, ?_, ?_, hforked.tail hrest⟩
  · rw [hplace, Lexeme.tokens, List.map_append, Tree.sizeAll_append, Tree.sizeAll_append]
    rfl
  · dsimp only
    rw [hlead, (ofToken_inj htoken).2]

theorem forks_takeAs (tag : Kind) : (takeAs tag).Forks name shift := by
  intro place input input' hforked
  have heof := hforked.ne_eof
  have heof' := hforked.kind_eq ▸ heof
  cases hforked.fork with
  | here _ _ _ hne =>
      rw [takeAs_cons heof, takeAs_cons heof']
      exact .inr (Gains.of_leaf hne _ [] _)
  | there hlead htoken _ hrest => exact parted_takeAs tag hforked rfl hlead htoken hrest

theorem parted_take {lexeme other : Lexeme} {rest rest' : List Lexeme} {left : Nat}
    (hforked : Forked name shift place (lexeme :: rest) (other :: rest'))
    (hplace : place = sizeAll (lexeme.tokens.map Tree.ofToken) + left)
    (hlead : lexeme.lead.map Tree.ofToken = other.lead.map Tree.ofToken)
    (htoken : Tree.ofToken lexeme.token = Tree.ofToken other.token)
    (hrest : Fork name shift left rest rest') :
    Parted gains name shift place (take (lexeme :: rest)) (take (other :: rest')) := by
  unfold take
  rw [← hforked.kind_eq]
  exact parted_takeAs _ hforked hplace hlead htoken hrest

theorem forks_take : take.Forks name shift := by
  intro place input input' hforked
  unfold take
  rw [← hforked.kind_eq]
  exact forks_takeAs _ _ _ _ hforked

theorem forks_ifAt {wanted : Kind} {yes no : Rule} (hyes : yes.Forks name shift)
    (hno : no.Forks name shift) : (ifAt wanted yes no).Forks name shift := by
  intro place input input' hforked
  unfold ifAt
  rw [← hforked.kind_eq]
  split
  · exact hyes _ _ _ hforked
  · exact hno _ _ _ hforked

theorem Forks.unlessAt (h : rule.Forks name shift) (kinds : List Kind) :
    (unlessAt kinds rule).Forks name shift := by
  intro place input input' hforked
  unfold Rule.unlessAt
  rw [← hforked.kind_eq]
  split
  · exact forks_done _ _ _ hforked
  · exact h _ _ _ hforked

theorem Parted.wrap {kind : Kind} (hkind : kind ≠ .object) (left : List Tree)
    (h : Parted (Gains name shift) name shift place (body input) (body input')) :
    Parted (Gains name shift) name shift (sizeAll left + place) (wrap kind left body input)
      (wrap kind left body input') := by
  rcases h with ⟨rest, hplace, htrees, hforked⟩ | hgains
  · refine .inl ⟨rest, ?_, ?_, hforked⟩
    · change _ = sizeAll [.node kind (left ++ (body input).trees)] + rest
      rw [sizeAll, sizeAll, Tree.size, Tree.sizeAll_append]
      omega
    · change [Tree.node kind (left ++ _)] = [Tree.node kind (left ++ _)]
      rw [htrees]
  · exact .inr ((hgains.prepend left).node hkind)

theorem Forks.wrap {kind : Kind} (h : body.Forks name shift) (hkind : kind ≠ .object) :
    (wrap kind [] body).Forks name shift := by
  intro place input input' hforked
  have hwrap := (h place input input' hforked).wrap hkind []
  rwa [sizeAll, Nat.zero_add] at hwrap

theorem Forks.node {kind : Kind} (h : body.Forks name shift) (hkind : kind ≠ .object) :
    (node kind body).Forks name shift :=
  forks_settle.andThen (h.wrap hkind)

theorem forks_missing : (node .missing done).Forks name shift := forks_done.node (by decide)

theorem forks_absent (expected : Expected) : (absent expected).Forks name shift :=
  fun _ _ _ hforked => forks_missing _ _ _ hforked

theorem forks_expect (wanted : Kind) : (expect wanted).Forks name shift :=
  forks_ifAt forks_take (forks_absent _)

theorem Parted.cons {lexeme other : Lexeme}
    (hlead : lexeme.lead.map Tree.ofToken = other.lead.map Tree.ofToken)
    (htoken : Tree.ofToken lexeme.token = Tree.ofToken other.token)
    (h : Parted (Gains name shift) name shift place outcome outcome') :
    Parted (Gains name shift) name shift (sizeAll (lexeme.tokens.map Tree.ofToken) + place)
      { outcome with trees := lexeme.tokens.map Tree.ofToken ++ outcome.trees }
      { outcome' with trees := other.tokens.map Tree.ofToken ++ outcome'.trees } := by
  have htokens : other.tokens.map Tree.ofToken = lexeme.tokens.map Tree.ofToken := by
    simp [Lexeme.tokens, hlead, htoken]
  rcases h with ⟨left, hplace, htrees, hforked⟩ | hgains
  · refine .inl ⟨left, ?_, ?_, hforked⟩
    · dsimp only
      rw [Tree.sizeAll_append]
      omega
    · dsimp only
      rw [htokens, htrees]
  · refine .inr ?_
    dsimp only
    rw [htokens]
    exact hgains.prepend _

/-- The token itself, taken whole and not as a child of an object. -/
theorem gains_tokens {lexeme : Lexeme} (htext : lexeme.token.text ≠ "") (more trees' : List Tree) :
    Gains name shift (sizeAll (lexeme.lead.map Tree.ofToken))
      (lexeme.tokens.map Tree.ofToken ++ more) trees' := by
  have htokens : lexeme.tokens.map Tree.ofToken ++ more = lexeme.lead.map Tree.ofToken ++
      .leaf lexeme.token.kind lexeme.token.text :: more := by
    simp [Lexeme.tokens, Tree.ofToken]
  rw [htokens]
  exact .of_leaf htext _ _ _

/-- What is taken one after the other is the same up to the token in front of the name, which is taken
from both inputs or from none. -/
theorem forks_sweep {σ : Type} (next : σ → Kind → Option σ) (state : σ) :
    (sweep next state).Forks name shift := by
  intro place input input' hforked
  have hfork := hforked.fork
  induction hfork generalizing state with
  | @here first other _ _ _ _ hkind _ hne =>
      cases hnext : next state first.kind with
      | none =>
          rw [sweep_of_none hnext, sweep_of_none (hkind ▸ hnext)]
          exact forks_done _ _ _ hforked
      | some after =>
          rw [sweep_of_some hnext]
          exact .inr (gains_tokens hne _ _)
  | @there _ lexeme other _ _ hlead htoken _ hrest ih =>
      have hkind : lexeme.kind = other.kind := (ofToken_inj htoken).1
      cases hnext : next state lexeme.kind with
      | none =>
          rw [sweep_of_none hnext, sweep_of_none (hkind ▸ hnext)]
          exact forks_done _ _ _ hforked
      | some after =>
          rw [sweep_of_some hnext, sweep_of_some (hkind ▸ hnext)]
          exact .cons hlead htoken (ih after (hforked.tail hrest))

theorem forks_takeNewlines : takeNewlines.Forks name shift :=
  takeNewlines_eq_sweep ▸ forks_sweep overNewlines ()

theorem objectsAll_takeNewlines (base : Nat) (input : List Lexeme) :
    Tree.objectsAll base (takeNewlines input).trees = [] := by
  obtain ⟨tokens, htrees⟩ := isFlat_takeNewlines input
  rw [htrees, Tree.objectsAll_map_ofToken]

/-- Behind newlines comes the same, or the name behind one of them. -/
theorem Forked.kindAfterNewlines (hforked : Forked name shift place input input') :
    kindAfterNewlines input = kindAfterNewlines input' ∨
      kindAfterNewlines input' = .ident ∧ place < sizeAll (takeNewlines input).trees := by
  induction input generalizing place input' with
  | nil => cases hforked.fork
  | cons lexeme rest ih =>
      have hkind := hforked.kind_eq
      by_cases hline : lexeme.kind = .newline
      · rw [takeNewlines_cons hline, Tree.sizeAll_append]
        cases hforked.fork with
        | here _ hsame _ hne hident _ _ =>
            refine .inr ⟨?_, ?_⟩
            · simp [Rule.kindAfterNewlines, ← hsame, hline, hident]
            · have hgains : Gains name shift (sizeAll (lexeme.lead.map Tree.ofToken))
                  (lexeme.tokens.map Tree.ofToken ++ []) [] := gains_tokens hne [] []
              have hlt := hgains.lt
              rw [List.append_nil] at hlt
              omega
        | there hlead htoken heof hrest =>
            have hline' := hkind.symm.trans hline
            rw [kind_cons] at hline'
            rw [Rule.kindAfterNewlines, Rule.kindAfterNewlines, if_pos hline, if_pos hline']
            rcases ih (hforked.tail hrest) with hsame | ⟨hident, hlt⟩
            · exact .inl hsame
            · refine .inr ⟨hident, ?_⟩
              omega
      · refine .inl ?_
        cases input' with
        | nil => cases hforked.fork
        | cons other rest' =>
            rw [kind_cons, kind_cons] at hkind
            rw [Rule.kindAfterNewlines, Rule.kindAfterNewlines, if_neg hline,
              if_neg (hkind ▸ hline), hkind]

theorem forks_takeNewlinesBefore {wanted : Kind} (hident : wanted ≠ .ident) :
    (takeNewlinesBefore wanted).Forks name shift := by
  intro place input input' hforked
  unfold takeNewlinesBefore
  rcases hforked.kindAfterNewlines with hsame | ⟨hnext, hlt⟩
  · rw [← hsame]
    split
    · exact forks_takeNewlines _ _ _ hforked
    · exact forks_done _ _ _ hforked
  · -- the name hides what is wanted, so the newlines are taken from the first input alone
    rw [hnext, if_neg hident.symm]
    split
    · refine .inr ⟨hlt, fun base start children hobject => ?_⟩
      rw [objectsAll_takeNewlines] at hobject
      cases hobject
    · exact forks_done _ _ _ hforked

theorem forks_takeUntil (stop : List Kind) : (takeUntil stop).Forks name shift :=
  takeUntil_eq_sweep stop ▸ forks_sweep (upTo stop) ()

theorem forks_takeStray (depth : Nat) : (takeStray depth).Forks name shift :=
  takeStray_eq_sweep depth ▸ forks_sweep overHoles depth

theorem forks_skipTo (stop : List Kind) (cause : SyntaxError.Cause) :
    (skipTo stop cause).Forks name shift :=
  (forks_report _).andThen (((forks_takeUntil stop).node (by decide)).unlessAt _)

theorem forks_tooDeep : tooDeep.Forks name shift := (forks_skipTo _ _).andThen forks_missing

/-- The rounds of a loop on inputs that fork: both go on alike or both end alike. -/
inductive Paces (gains : Nat → List Tree → List Tree → Prop) (name : String) (shift place : Nat)
    (input input' : List Lexeme) : Step → Step → Prop where
  | again {rule : Rule} : Parted gains name shift place (rule input) (rule input') →
      Paces gains name shift place input input' (.again rule) (.again rule)
  | last {rule : Rule} : Parted gains name shift place (rule input) (rule input') →
      Paces gains name shift place input input' (.last rule) (.last rule)

/-- A loop whose rounds keep pace, other than where a whole loop is known to. -/
theorem parted_loop (hstays : Stays gains) {choose : List Lexeme → Step}
    (hprogress : Progresses choose)
    (h : ∀ place input input', Forked name shift place input input' →
      Paces gains name shift place input input' (choose input) (choose input') ∨
        Parted gains name shift place (loop choose input) (loop choose input'))
    (hforked : Forked name shift place input input') :
    Parted gains name shift place (loop choose input) (loop choose input') := by
  induction input using loop_induction hprogress generalizing place input' with
  | last input rule hchoose =>
      rcases h place input input' hforked with hpaces | hparted
      · rw [loop_eq hprogress, loop_eq hprogress]
        rw [hchoose] at hpaces ⊢
        generalize choose input' = step at hpaces ⊢
        cases hpaces with
        | last hparted => exact hparted
      · exact hparted
  | again input rule hchoose ih =>
      rcases h place input input' hforked with hpaces | hparted
      · rw [loop_eq hprogress, loop_eq hprogress]
        rw [hchoose] at hpaces ⊢
        generalize choose input' = step at hpaces ⊢
        cases hpaces with
        | again hparted => exact hparted.andThen hstays fun _ hforked => ih hforked
      · exact hparted

theorem forks_loop {choose : List Lexeme → Step} (hprogress : Progresses choose)
    (h : ∀ place input input', Forked name shift place input input' →
      Paces (Gains name shift) name shift place input input' (choose input) (choose input')) :
    (loop choose).Forks name shift :=
  fun _ _ _ hforked => parted_loop (Tree.stays_gains name shift) hprogress
    (fun place input input' hforked => .inl (h place input input' hforked)) hforked

/-- What has no tokens of its own has none to be kept by an object. -/
theorem Parted.gainsIn (h : Parted (Gains name shift) name shift place outcome outcome')
    (hcovered : ∀ tree ∈ outcome.trees, tree.IsCovered) :
    Parted (GainsIn name shift) name shift place outcome outcome' := by
  rcases h with hin | hgains
  · exact .inl hin
  · refine .inr ⟨hgains, fun base htoken => ?_⟩
    obtain ⟨before, kind, text, after, htrees, hkind, -⟩ := htoken
    have htrivia : kind.isTrivia = true := hcovered (.leaf kind text) (by simp [htrees])
    rw [hkind] at htrivia
    cases htrivia

section Expr

variable {expr : Rule} (hexpr : expr.Forks name shift)

include hexpr

theorem forks_interpolation : (interpolation expr).Forks name shift :=
  Forks.node ((((((forks_take.andThen forks_takeNewlines).andThen hexpr).andThen
    forks_takeNewlines).andThen
    (((forks_report _).andThen ((forks_takeStray 0).node (by decide))).unlessAt _)).andThen
    (forks_expect _))) (by decide)

theorem forks_string (hspells : ∀ input, (expr input).Spells [] input) :
    (string expr).Forks name shift := by
  refine Forks.node (forks_take.andThen (forks_loop (progresses_stringStep hspells)
    fun place input input' hforked => ?_)) (by decide)
  rw [stringStep_congr hforked.kind_eq.symm]
  generalize hstep : stringStep expr input = step
  cases stringRound_of_eq hstep with
  | text => exact .again (forks_take _ _ _ hforked)
  | hole => exact .again (forks_interpolation hexpr _ _ _ hforked)
  | close => exact .last (forks_take _ _ _ hforked)
  | unclosed => exact .last (forks_report _ _ _ _ hforked)

theorem forks_property (hspells : ∀ input, (expr input).Spells [] input) :
    (property expr).Forks name shift := by
  have hkey : (propertyKey expr).Forks name shift :=
    (forks_ifAt (forks_string hexpr hspells) (forks_takeAs _)).node (by decide)
  have hvalue : (propertyValue expr).Forks name shift :=
    forks_ifAt (forks_take.andThen hexpr) ((forks_absent _).andThen (hexpr.unlessAt _))
  exact ((hkey.andThen hvalue).andThen ((forks_skipTo _ _).unlessAt _)).node (by decide)

omit hexpr in
theorem forks_list {node close : Kind} {startsItem : Kind → Bool} {item : Rule}
    {cause : SyntaxError.Cause} (hprogress : Progresses (listStep close startsItem item cause))
    (hitem : item.Forks name shift) (hnode : node ≠ .object) :
    (list node close startsItem item cause).Forks name shift := by
  refine Forks.node (forks_take.andThen (forks_loop hprogress
    fun place input input' hforked => ?_)) hnode
  rw [listStep_congr hforked.kind_eq.symm hforked.startsDeclaration_eq.symm]
  generalize hstep : listStep close startsItem item cause input = step
  cases listRound_of_eq hstep with
  | newline | comma => exact .again (forks_take _ _ _ hforked)
  | close => exact .last (forks_take _ _ _ hforked)
  | unclosed => exact .last (forks_absent _ _ _ _ hforked)
  | item => exact .again (hitem _ _ _ hforked)
  | stray => exact .again (forks_skipTo _ _ _ _ _ hforked)

theorem forks_array
    (hless : ∀ input, startsExpr (kind input) = true → (expr input).rest.length < input.length) :
    (array expr).Forks name shift :=
  forks_list (progresses_arrayItem hless) (hexpr.node (by decide)) (by decide)

theorem forks_arguments
    (hless : ∀ input, startsExpr (kind input) = true → (expr input).rest.length < input.length) :
    (arguments expr).Forks name shift :=
  forks_list (progresses_arguments hless) hexpr (by decide)

end Expr

/-! Objects -/

section Object

variable {expr : Rule}

/-- The rounds of an object. -/
def objectStep (expr : Rule) : List Lexeme → Step :=
  listStep .rBrace startsProperty (property expr) .notAProperty

theorem object_eq (expr : Rule) : object expr = node .object (take ++ loop (objectStep expr)) := rfl

theorem progresses_objectStep (hspells : ∀ input, (expr input).Spells [] input) :
    Progresses (objectStep expr) :=
  progresses_property hspells

/-- A name in an object that starts no declaration is the key of a property. -/
theorem objectStep_of_ident (hkind : kind input = .ident)
    (hfresh : (current input).text ∉ contextualWords) :
    objectStep expr input = .again (property expr) := by
  have hstarts : startsDeclaration input = false := by
    rw [← Bool.not_eq_true]
    intro hstarts
    exact hfresh (mem_contextualWords_of_startsDeclaration hstarts).2
  simp [objectStep, listStep, hkind, hstarts, closers, startsProperty, Kind.isWord]

theorem exists_key_property {next : Lexeme} {rest : List Lexeme} (hkind : next.kind = .ident) :
    ∃ more, (property expr (next :: rest)).trees = next.lead.map Tree.ofToken ++
      [.node .objectProperty (.node .propertyKey [.leaf .ident next.token.text] :: more)] := by
  have hident : kind (⟨[], next.token⟩ :: rest) = .ident := hkind
  have hkey : propertyKey expr (⟨[], next.token⟩ :: rest) =
      ⟨[.node .propertyKey [.leaf .ident next.token.text]], [], rest⟩ := by
    have hinner : ifAt .stringStart (string expr) (takeAs .ident) (⟨[], next.token⟩ :: rest) =
        ⟨[.leaf .ident next.token.text], [], rest⟩ := by
      unfold ifAt
      rw [if_neg (by rw [hident]; decide), takeAs_cons (by rw [← kind_cons, hident]; decide)]
      rfl
    rw [propertyKey, node, andThen_apply]
    simp [settle, wrap, hinner]
  have hbody : ∀ rule : Rule, ((propertyKey expr ++ rule) (⟨[], next.token⟩ :: rest)).trees =
      .node .propertyKey [.leaf .ident next.token.text] :: (rule rest).trees := by
    intro rule
    rw [andThen_apply, hkey]
    rfl
  refine ⟨((propertyValue expr ++ unlessAt (.newline :: .comma :: closers)
    (skipTo [.newline, .comma, .rBrace] .afterProperty)) rest).trees, ?_⟩
  rw [← hbody, ← andThen_assoc]
  rfl

theorem trees_take_andThen {lexeme : Lexeme} {rest : List Lexeme} (heof : lexeme.kind ≠ .eof)
    (rule : Rule) : ((take ++ rule) (lexeme :: rest)).trees =
      lexeme.lead.map Tree.ofToken ++ .leaf lexeme.kind lexeme.token.text :: (rule rest).trees := by
  have htake : take (lexeme :: rest) =
      ⟨lexeme.lead.map Tree.ofToken ++ [.leaf lexeme.kind lexeme.token.text], [], rest⟩ :=
    takeAs_cons heof _ rest
  rw [andThen_apply, htake, List.append_assoc]
  rfl

/-- With the token of an object taken, the second input goes on with the name as a key. -/
theorem parted_take_loop (hspells : ∀ input, (expr input).Spells [] input)
    {first other next : Lexeme} {rest rest' : List Lexeme}
    (hforked : Forked name shift (sizeAll (first.lead.map Tree.ofToken)) (first :: rest)
      (other :: next :: rest'))
    (hlead : first.lead.map Tree.ofToken = other.lead.map Tree.ofToken)
    (hne : first.token.text ≠ "") (hident : next.kind = .ident) (htext : next.token.text = name)
    (hshift : other.token.text.utf8ByteSize + sizeAll (next.lead.map Tree.ofToken) = shift) :
    Parted (GainsIn name shift) name shift (sizeAll (first.lead.map Tree.ofToken))
      ((take ++ loop (objectStep expr)) (first :: rest))
      ((take ++ loop (objectStep expr)) (other :: next :: rest')) := by
  have heof := hforked.ne_eof
  have heof' := hforked.kind_eq ▸ heof
  have hfresh : (current (next :: rest')).text ∉ contextualWords := htext ▸ hforked.fresh
  obtain ⟨more, hmore⟩ : ∃ more, (property expr (next :: rest')).trees = _ :=
    exists_key_property hident
  have hloop : loop (objectStep expr) (next :: rest') =
      (property expr ++ loop (objectStep expr)) (next :: rest') :=
    loop_of_again (progresses_objectStep hspells) (objectStep_of_ident hident hfresh)
  have hnext : (loop (objectStep expr) (next :: rest')).trees =
      (property expr (next :: rest')).trees ++
        (loop (objectStep expr) (property expr (next :: rest')).rest).trees := by
    rw [hloop]
    rfl
  refine .inr ?_
  rw [trees_take_andThen heof, trees_take_andThen heof', hnext, hmore, htext]
  refine ⟨.of_leaf hne _ _ _, fun base _ => ?_⟩
  refine ⟨other.lead.map Tree.ofToken ++ .leaf other.kind other.token.text ::
    next.lead.map Tree.ofToken, more,
    (loop (objectStep expr) (property expr (next :: rest')).rest).trees, by simp, ?_⟩
  rw [Tree.sizeAll_append, sizeAll, Tree.size, ← hlead, ← hshift]
  omega

/-- A separator of an object and the rounds behind it. -/
theorem parted_objectStep (hexpr : expr.Forks name shift)
    (hspells : ∀ input, (expr input).Spells [] input)
    (hforked : Forked name shift place input input') :
    Paces (GainsIn name shift) name shift place input input' (objectStep expr input)
        (objectStep expr input') ∨
      Parted (GainsIn name shift) name shift place (loop (objectStep expr) input)
        (loop (objectStep expr) input') := by
  by_cases hseparator : (kind input = .newline || kind input = .comma) = true
  · have hchoose : objectStep expr input = .again take := if_pos hseparator
    have hchoose' : objectStep expr input' = .again take := if_pos (hforked.kind_eq ▸ hseparator)
    cases hforked.fork with
    | here hlead _ _ hne hident htext hshift =>
        -- the next round of the second input takes the name, and the rounds go apart
        right
        rw [loop_of_again (progresses_objectStep hspells) hchoose,
          loop_of_again (progresses_objectStep hspells) hchoose']
        exact parted_take_loop hspells hforked hlead hne hident htext hshift
    | there hlead htoken _ hrest =>
        left
        rw [hchoose, hchoose']
        exact .again (parted_take hforked rfl hlead htoken hrest)
  · left
    unfold objectStep listStep
    dsimp only
    rw [← hforked.kind_eq, ← hforked.startsDeclaration_eq, if_neg hseparator]
    split
    · rename_i hclose
      cases hforked.fork with
      | here _ _ hprecedes =>
          rw [kind_cons] at hclose
          rw [hclose] at hprecedes
          cases hprecedes
      | there hlead htoken _ hrest => exact .last (parted_take hforked rfl hlead htoken hrest)
    · split
      · exact .last ((forks_absent _ _ _ _ hforked).gainsIn (covered_absent _ _ hforked.led))
      · split
        · have hcovered : (property expr).Covered := covered_node _ rfl
          exact .again ((forks_property hexpr hspells _ _ _ hforked).gainsIn
            (hcovered _ hforked.led))
        · exact .again ((forks_skipTo _ _ _ _ _ hforked).gainsIn
            (covered_skipTo _ _ _ hforked.led))

theorem parted_objectLoop (hexpr : expr.Forks name shift)
    (hspells : ∀ input, (expr input).Spells [] input)
    (hforked : Forked name shift place input input') :
    Parted (GainsIn name shift) name shift place (loop (objectStep expr) input)
      (loop (objectStep expr) input') :=
  parted_loop (Tree.stays_gainsIn name shift) (progresses_objectStep hspells)
    (fun _ _ _ hforked => parted_objectStep hexpr hspells hforked) hforked

theorem forks_object (hexpr : expr.Forks name shift)
    (hspells : ∀ input, (expr input).Spells [] input) : (object expr).Forks name shift := by
  rw [object_eq]
  refine forks_settle.andThen fun place input input' hforked => ?_
  have hbody : Parted (GainsIn name shift) name shift place ((take ++ loop (objectStep expr)) input)
      ((take ++ loop (objectStep expr)) input') := by
    cases hforked.fork with
    | here hlead _ _ hne hident htext hshift =>
        exact parted_take_loop hspells hforked hlead hne hident htext hshift
    | there hlead htoken _ hrest =>
        exact (parted_take hforked rfl hlead htoken hrest).andThen (Tree.stays_gainsIn name shift)
          fun _ => parted_objectLoop hexpr hspells
  rcases hbody with ⟨left, hplace, htrees, hforked'⟩ | hgains
  · refine .inl ⟨left, ?_, ?_, hforked'⟩
    · change _ =
        sizeAll [.node .object ([] ++ ((take ++ loop (objectStep expr)) input).trees)] + left
      rw [sizeAll, sizeAll, Tree.size, List.nil_append]
      exact hplace
    · change [Tree.node .object ([] ++ _)] = [Tree.node .object ([] ++ _)]
      rw [htrees]
  · exact .inr hgains.object

end Object

section Expr

variable {expr : Rule} (hexpr : expr.Forks name shift)

theorem forks_loopVariable : loopVariable.Forks name shift := by
  intro place input input' hforked
  unfold loopVariable
  rw [← hforked.kind_eq, ← hforked.isWordAt_eq]
  split
  · exact forks_take.node (by decide) _ _ _ hforked
  · exact forks_absent _ _ _ _ hforked

theorem forks_inKeyword : inKeyword.Forks name shift := by
  intro place input input' hforked
  unfold inKeyword
  rw [← hforked.isWordAt_eq]
  split
  · exact forks_takeAs _ _ _ _ hforked
  · exact forks_absent _ _ _ _ hforked

include hexpr

theorem forks_forExpr : (forExpr expr).Forks name shift := by
  have hhead : (take ++ takeAs .forKw ++ loopVariable ++ inKeyword ++ expr ++
      expect .colon ++ takeNewlines ++ expr).Forks name shift :=
    ((((((forks_take.andThen (forks_takeAs _)).andThen forks_loopVariable).andThen
      forks_inKeyword).andThen hexpr).andThen (forks_expect _)).andThen
      forks_takeNewlines).andThen hexpr
  exact (((hhead.andThen ((forks_skipTo _ _).unlessAt _)).andThen
    (forks_takeNewlinesBefore (by decide))).andThen (forks_expect _)).node (by decide)

theorem forks_paren : (paren expr).Forks name shift :=
  ((((forks_take.andThen forks_takeNewlines).andThen hexpr).andThen
    (forks_takeNewlinesBefore (by decide))).andThen (forks_expect _)).node (by decide)

omit hexpr in
/-- The token behind a bracket is in front of the fork or where it is. -/
theorem Forked.isWordAt_tail_eq (hforked : Forked name shift place input input')
    (hkind : kind input = .lBrack) (word : String) :
    isWordAt input.tail word = isWordAt input'.tail word := by
  cases hforked.fork with
  | here _ _ hprecedes =>
      rw [kind_cons] at hkind
      rw [hkind] at hprecedes
      cases hprecedes
  | there _ _ _ hrest => exact (hforked.tail hrest).isWordAt_eq word

theorem forks_primary (hspells : ∀ input, (expr input).Spells [] input)
    (hless : ∀ input, startsExpr (kind input) = true → (expr input).rest.length < input.length) :
    (primary expr).Forks name shift := by
  intro place input input' hforked
  obtain ⟨rule, hrule, heq⟩ := exists_primary expr input
  rw [heq, hrule.eq_of_kind_eq hforked.kind_eq.symm fun hbracket =>
    (hforked.isWordAt_tail_eq hbracket "for").symm]
  cases hrule with
  | literal => exact forks_take.node (by decide) _ _ _ hforked
  | string => exact forks_string hexpr hspells _ _ _ hforked
  | object => exact forks_object hexpr hspells _ _ _ hforked
  | loop => exact forks_forExpr hexpr _ _ _ hforked
  | array => exact forks_array hexpr hless _ _ _ hforked
  | paren => exact forks_paren hexpr _ _ _ hforked
  | word => exact (forks_takeAs _).node (by decide) _ _ _ hforked
  | absent => exact forks_absent _ _ _ _ hforked

end Expr

/-! Rules that go on from trees -/

/-- A rule that goes on from trees keeps the objects in them. -/
def Retains (next : List Tree → Rule) : Prop :=
  ∀ left input, ∃ more, Tree.Keeps left (next left input).trees more

/-- A rule that goes on from the same trees and does the same on inputs that fork, up to there. -/
def ForksFrom (name : String) (shift : Nat) (next : List Tree → Rule) : Prop :=
  ∀ place left input input', Forked name shift place input input' →
    Parted (Gains name shift) name shift (sizeAll left + place) (next left input)
      (next left input')

variable {next : List Tree → Rule}

theorem retains_keep : Retains keep := fun left _ => ⟨[], Tree.keeps_nil left⟩

theorem retains_wrap {kind : Kind} (hkind : kind ≠ .object) (body : Rule) :
    Retains fun left => wrap kind left body :=
  fun left input => ⟨(body input).trees, Tree.keeps_node hkind left _⟩

theorem retains_keep_andThen (rule : Rule) : Retains fun left => keep left ++ rule :=
  fun left input => ⟨(rule input).trees, Tree.keeps_append left _⟩

/-- What goes on from the trees of a rule that goes on from trees. -/
theorem Retains.into {first : List Tree → Rule} (hfirst : Retains first) (hnext : Retains next) :
    Retains fun left => (first left).into next := by
  intro left input
  obtain ⟨more, hmore⟩ := hfirst left input
  obtain ⟨more', hmore'⟩ := hnext (first left input).trees (first left input).rest
  exact ⟨more ++ more', hmore.trans hmore'⟩

theorem forksFrom_keep : ForksFrom name shift keep :=
  fun place _ _ _ hforked => .inl ⟨place, rfl, rfl, hforked⟩

theorem Forks.wrapFrom (h : body.Forks name shift) (kind : Kind) (hkind : kind ≠ .object) :
    ForksFrom name shift fun left => Rule.wrap kind left body :=
  fun place left input input' hforked => (h place input input' hforked).wrap hkind left

theorem Forks.keepFrom (h : rule.Forks name shift) :
    ForksFrom name shift fun left => keep left ++ rule :=
  fun place left input input' hforked =>
    (forksFrom_keep place left input input' hforked).andThen (Tree.stays_gains name shift)
      fun left => h left _ _

/-- The trees of a rule on inputs that fork, handed over to what comes next. -/
theorem Parted.into (h : Parted (Gains name shift) name shift place (first input) (first input'))
    (hnext : ForksFrom name shift next) (hretains : Retains next) :
    Parted (Gains name shift) name shift place (first.into next input)
      (first.into next input') := by
  rcases h with ⟨left, hplace, htrees, hforked⟩ | hgains
  · have hon := hnext left (first input).trees _ _ hforked
    rw [hplace, into_apply, into_apply, htrees]
    exact hon
  · obtain ⟨more, hmore⟩ := hretains (first input).trees (first input).rest
    obtain ⟨more', hmore'⟩ := hretains (first input').trees (first input').rest
    exact .inr (hgains.keeps hmore hmore')

namespace Level

variable {level : Level}

/-- Chains keep the objects that they go on from. -/
structure Retains (level : Level) : Prop where
  links : Rule.Retains level.links
  operators : ∀ least, Rule.Retains (level.operators least)

theorem retains_choice (level : Level) : Rule.Retains level.choice := by
  intro test input
  unfold choice ifAt
  split
  · exact retains_wrap (by decide) _ test input
  · exact retains_keep test input

theorem retains_link (level : Level) : Rule.Retains level.link := by
  intro receiver input
  have hnode : ∀ kind ∈ linkKinds, kind ≠ .object := by decide
  obtain ⟨kind, body, hkind, heq⟩ := link_eq_wrap level receiver input
  rw [heq]
  exact retains_wrap (hnode kind hkind) body receiver input

theorem retains_above {below : Option Level} (h : ∀ level ∈ below, level.Retains) :
    (above below).Retains := by
  constructor
  · intro receiver input
    rw [links_above]
    split
    · cases below with
      | none => exact retains_keep_andThen tooDeep receiver input
      | some level => exact (retains_link level).into (h level rfl).links receiver input
    · exact retains_keep receiver input
  · intro least left input
    rw [operators_above]
    split
    · exact retains_keep left input
    · split
      · exact retains_keep left input
      · cases below with
        | none => exact retains_keep_andThen tooDeep left input
        | some level =>
            exact (retains_wrap (by decide) _).into ((h level rfl).operators least) left input

end Level

theorem retains_level (budget : Nat) : (level budget).Retains :=
  level_induction (fun _ hbelow _ => Level.retains_above hbelow) budget

/-- The rules of a level on inputs that fork. -/
structure Level.Forks (name : String) (shift : Nat) (level : Level) : Prop where
  expr : level.expr.Forks name shift
  unary : level.unary.Forks name shift
  links : ForksFrom name shift level.links
  operators : ∀ least, ForksFrom name shift (level.operators least)

namespace Level

variable {level : Level}

theorem Forks.binary (h : level.Forks name shift) (hretains : level.Retains) (least : Nat) :
    (level.binary least).Forks name shift :=
  forks_settle.andThen fun _ _ _ hforked =>
    (h.unary _ _ _ hforked).into (h.operators least) (hretains.operators least)

theorem Forks.choice (h : level.Forks name shift) : ForksFrom name shift level.choice := by
  have hbranch : (take ++ level.expr ++ expect .colon ++ level.expr).Forks name shift :=
    ((forks_take.andThen h.expr).andThen (forks_expect _)).andThen h.expr
  intro place test input input' hforked
  unfold Level.choice ifAt
  rw [← hforked.kind_eq]
  split
  · exact hbranch.wrapFrom .ternaryExpr (by decide) _ test _ _ hforked
  · exact forksFrom_keep _ test _ _ hforked

theorem Forks.ternary (h : level.Forks name shift) (hretains : level.Retains) :
    level.ternary.Forks name shift := by
  rw [ternary_eq]
  exact forks_settle.andThen fun _ _ _ hforked =>
    (h.binary hretains 1 _ _ _ hforked).into h.choice (retains_choice level)

theorem forks_member : member.Forks name shift := by
  intro place input input' hforked
  unfold member
  rw [← hforked.kind_eq]
  split
  · exact forks_takeAs _ _ _ _ hforked
  · exact forks_absent _ _ _ _ hforked

theorem Forks.link (h : level.Forks name shift) (hprogress : level.Progresses) :
    ForksFrom name shift level.link := by
  intro place receiver input input' hforked
  unfold Level.link
  rw [← hforked.kind_eq]
  split
  · exact (forks_take.andThen forks_member).wrapFrom .propertyAccess (by decide) _ receiver _ _
      hforked
  · exact ((forks_take.andThen h.expr).andThen (forks_expect _)).wrapFrom .arrayAccess
      (by decide) _ receiver _ _ hforked
  · exact (forks_arguments h.expr hprogress.expr).wrapFrom .callExpr (by decide) _ receiver _ _
      hforked

section Above

variable {below : Option Level} (hspells : ∀ level ∈ below, level.Spells)
  (hretains : ∀ level ∈ below, level.Retains) (hprogress : ∀ level ∈ below, level.Progresses)
  (h : ∀ level ∈ below, level.Forks name shift)

include hretains h

theorem forks_operators (least : Nat) : ForksFrom name shift ((above below).operators least) := by
  intro place left input input' hforked
  rw [operators_above, operators_above, ← hforked.kind_eq]
  split
  · exact forksFrom_keep _ _ _ _ hforked
  · rename_i precedence _
    split
    · exact forksFrom_keep _ _ _ _ hforked
    · cases below with
      | none => exact forks_tooDeep.keepFrom _ left _ _ hforked
      | some level =>
          have hbody : (take ++ level.binary (precedence + 1)).Forks name shift :=
            forks_take.andThen ((h level rfl).binary (hretains level rfl) _)
          exact (hbody.wrapFrom .binaryExpr (by decide) _ left _ _ hforked).into
            ((h level rfl).operators least) ((hretains level rfl).operators least)

include hprogress

theorem forks_links : ForksFrom name shift (above below).links := by
  intro place receiver input input' hforked
  rw [links_above, links_above, ← hforked.kind_eq]
  split
  · cases below with
    | none => exact forks_tooDeep.keepFrom _ receiver _ _ hforked
    | some level =>
        exact ((h level rfl).link (hprogress level rfl) _ receiver _ _ hforked).into
          (h level rfl).links (hretains level rfl).links
  · exact forksFrom_keep _ _ _ _ hforked

include hspells

theorem forks_above : (above below).Forks name shift := by
  have hall := spells_above hspells
  have hlinks : ForksFrom name shift (above below).links := forks_links hretains hprogress h
  have hexpr : (above below).expr.Forks name shift := by
    cases below with
    | none => exact forks_tooDeep
    | some level => exact (h level rfl).ternary (hretains level rfl)
  have hchain : (above below).chain.Forks name shift := forks_settle.andThen fun _ _ _ hforked =>
    (forks_primary hexpr hall.expr (progresses_above hspells hprogress).expr _ _ _ hforked).into
      hlinks (retains_above hretains).links
  refine ⟨hexpr, fun place input input' hforked => ?_, hlinks, forks_operators hretains h⟩
  rw [unary_above, unary_above, ← hforked.kind_eq]
  split
  · cases below with
    | none => exact forks_tooDeep _ _ _ hforked
    | some level => exact (forks_take.andThen (h level rfl).unary).node (by decide) _ _ _ hforked
  · exact hchain _ _ _ hforked

end Above

end Level

theorem forks_level (budget : Nat) : (level budget).Forks name shift :=
  level_induction (fun _ hbelow known => Level.forks_above (known spells_level)
    (known retains_level) (known progresses_level) hbelow) budget

/-! The rules of documents -/

theorem forks_expr : expr.Forks name shift := (forks_level maxDepth).expr

theorem forks_outermost_chain : outermost.chain.Forks name shift :=
  forks_settle.andThen fun _ _ _ hforked =>
    (forks_primary forks_expr spells_expr (progresses_level maxDepth).expr _ _ _ hforked).into
      (forks_level maxDepth).links (retains_level maxDepth).links

theorem forks_decorator : decorator.Forks name shift := by
  have hbody : (take ++ ifAt .ident outermost.chain (absent .decoratorName)).Forks name shift :=
    forks_take.andThen (forks_ifAt forks_outermost_chain (forks_absent _))
  exact (hbody.node (by decide)).andThen ((forks_skipTo _ _).unlessAt _)

theorem forks_decorators : (loop decoratorStep).Forks name shift := by
  refine forks_loop progresses_decoratorStep fun place input input' hforked => ?_
  unfold decoratorStep
  rw [← hforked.kind_eq]
  split
  · exact .again (forks_decorator.andThen forks_takeNewlines _ _ _ hforked)
  · exact .last (forks_done _ _ _ hforked)

theorem forks_name : Rule.name.Forks name shift :=
  forks_ifAt (forks_take.node (by decide)) (forks_absent _)

theorem forks_typeName : typeName.Forks name shift :=
  forks_ifAt (forks_take.node (by decide)) (forks_absent _)

theorem forks_quoted {kind : Kind} (hkind : kind ≠ .object) (expected : Expected) :
    (quoted kind expected).Forks name shift :=
  forks_ifAt ((forks_string forks_expr spells_expr).node hkind) (forks_absent _)

theorem forks_existing : existing.Forks name shift := by
  intro place input input' hforked
  unfold existing
  rw [← hforked.isWordAt_eq]
  split
  · exact forks_takeAs _ _ _ _ hforked
  · exact forks_done _ _ _ hforked

theorem forks_header (kind : Kind) : (header kind).Forks name shift := by
  refine header_induction (motive := fun rule => rule.Forks name shift) (fun hpart => ?_) .andThen
  cases hpart with
  | name => exact forks_name
  | typeName => exact forks_typeName
  | resourceType | modulePath => exact forks_quoted (by decide) _
  | existing => exact forks_existing
  | equals => exact forks_expect _
  | value => exact forks_expr
  | default => exact forks_ifAt (forks_take.andThen forks_expr) forks_done
  | done => exact forks_done

theorem forks_endDeclaration : endDeclaration.Forks name shift := by
  intro place input input' hforked
  unfold endDeclaration
  rw [← hforked.startsDeclaration_eq]
  split
  · exact forks_done _ _ _ hforked
  · exact (forks_skipTo _ _).unlessAt _ _ _ _ hforked

theorem ne_object_of_declarationWord {kind keyword : Kind}
    (h : declarationWord input = some (kind, keyword)) : kind ≠ .object := by
  rintro rfl
  cases (declarationWord_eq_some h).2.2

theorem retains_undecorated : Retains undecorated := by
  intro decorators input
  cases hword : declarationWord input with
  | none =>
      rw [undecorated_of_none hword]
      split
      · exact retains_keep decorators input
      · exact retains_keep_andThen _ decorators input
  | some found =>
      obtain ⟨kind, keyword⟩ := found
      rw [undecorated_of_some hword]
      exact ⟨_, (Tree.keeps_node (ne_object_of_declarationWord hword) decorators _).trans
        (Tree.keeps_append _ _)⟩

theorem forksFrom_undecorated : ForksFrom name shift undecorated := by
  intro place decorators input input' hforked
  cases hword : declarationWord input with
  | some found =>
      obtain ⟨kind, keyword⟩ := found
      rw [undecorated_of_some hword, undecorated_of_some (hforked.declarationWord_eq ▸ hword)]
      have hbody : (takeAs keyword ++ header kind).Forks name shift :=
        (forks_takeAs _).andThen (forks_header kind)
      exact (hbody.wrapFrom kind (ne_object_of_declarationWord hword) _ decorators _ _
        hforked).andThen (Tree.stays_gains name shift) fun left => forks_endDeclaration left _ _
  | none =>
      have heof := hforked.ne_eof
      have heof' := hforked.kind_eq ▸ heof
      rw [undecorated_of_none hword, undecorated_of_none (hforked.declarationWord_eq ▸ hword)]
      simp only [heof, heof', decide_false, Bool.and_false, Bool.false_eq_true, if_false]
      exact (forks_skipTo _ _).keepFrom _ decorators _ _ hforked

theorem forks_declaration : declaration.Forks name shift :=
  forks_settle.andThen fun _ _ _ hforked =>
    (forks_decorators _ _ _ hforked).into forksFrom_undecorated retains_undecorated

/-- Documents that fork are the same up to there, and where an object of the first one has the
token, the second one has an object with the name as a key. -/
theorem forks_document : document.Forks name shift := by
  have hloop : (loop documentStep).Forks name shift := by
    refine forks_loop progresses_documentStep fun place input input' hforked => ?_
    unfold documentStep
    rw [← hforked.kind_eq]
    split
    · exact absurd ‹_› hforked.ne_eof
    · exact .again (forks_take _ _ _ hforked)
    · exact .again (forks_declaration _ _ _ hforked)
  exact hloop.wrap (by decide)

end Rule

end Caret
