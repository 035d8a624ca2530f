import Caret.Rule.Literal

/-!
# Lexemes one after the other

Newlines, what is left out in front of the next declaration and what is left out in front of the end
of a hole are taken in the same way: one lexeme after the other, up to one whose kind ends it. What
is common to the three is proved of `sweep`.
-/

namespace Caret

namespace Rule

variable {σ : Type} {next : σ → Kind → Option σ} {state : σ} {lexeme : Lexeme}
  {rest : List Lexeme}

/-- Takes lexemes while there is a state behind the kind of the next one. -/
def sweep (next : σ → Kind → Option σ) : σ → Rule
  | _, [] => done []
  | state, lexeme :: rest =>
    match next state lexeme.kind with
    | none => done (lexeme :: rest)
    | some after =>
      let more := sweep next after rest
      { more with trees := lexeme.tokens.map Tree.ofToken ++ more.trees }

theorem sweep_of_none (h : next state lexeme.kind = none) :
    sweep next state (lexeme :: rest) = done (lexeme :: rest) := by
  rw [sweep, h]

theorem sweep_of_some {after : σ} (h : next state lexeme.kind = some after) :
    sweep next state (lexeme :: rest) =
      { sweep next after rest with
        trees := lexeme.tokens.map Tree.ofToken ++ (sweep next after rest).trees } := by
  rw [sweep, h]

theorem errors_sweep (next : σ → Kind → Option σ) (state : σ) (input : List Lexeme) :
    (sweep next state input).errors = [] := by
  fun_induction sweep next state input with
  | case1 state => rfl
  | case2 state lexeme rest hnone => rfl
  | case3 state lexeme rest after hsome more ih => exact ih

/-- What comes behind is of a kind that ends the sweep. -/
theorem kind_rest_sweep {p : Kind → Prop} (hend : p .eof)
    (hstop : ∀ state kind, next state kind = none → p kind) (state : σ) (input : List Lexeme) :
    p (kind (sweep next state input).rest) := by
  fun_induction sweep next state input with
  | case1 state => exact hend
  | case2 state lexeme rest hnone => exact hstop _ _ hnone
  | case3 state lexeme rest after hsome more ih => exact ih

/-- All that comes out are tokens: those that may be taken, and what is in front of them. -/
theorem exists_tokens_sweep (next : σ → Kind → Option σ) (state : σ) (input : List Lexeme) :
    ∃ tokens : List Token, (sweep next state input).trees = tokens.map Tree.ofToken ∧
      ∀ token ∈ tokens, ∃ lexeme ∈ input, token ∈ lexeme.lead ∨
        token = lexeme.token ∧ ∃ state, (next state token.kind).isSome = true := by
  fun_induction sweep next state input with
  | case1 state => exact ⟨[], rfl, by simp⟩
  | case2 state lexeme rest hnone => exact ⟨[], rfl, by simp⟩
  | case3 state lexeme rest after hsome more ih =>
      obtain ⟨tokens, htrees, htokens⟩ := ih
      refine ⟨lexeme.tokens ++ tokens, by rw [List.map_append, ← htrees], fun token hmem => ?_⟩
      rcases List.mem_append.1 hmem with hmem | hmem
      · refine ⟨lexeme, List.mem_cons_self, ?_⟩
        rcases List.mem_append.1 hmem with hlead | hmem
        · exact .inl hlead
        · obtain rfl := List.mem_singleton.1 hmem
          exact .inr ⟨rfl, state, Option.isSome_of_eq_some hsome⟩
      · obtain ⟨other, hother, h⟩ := htokens token hmem
        exact ⟨other, List.mem_cons_of_mem _ hother, h⟩

/-- Something comes out where a token may be taken. -/
theorem trees_sweep_ne_nil {input : List Lexeme} (hend : next state .eof = none)
    (h : next state (kind input) ≠ none) : (sweep next state input).trees ≠ [] := by
  cases input with
  | nil => exact absurd hend h
  | cons lexeme rest =>
      obtain ⟨after, hsome⟩ := Option.ne_none_iff_exists'.1 h
      rw [sweep_of_some hsome]
      simp [Lexeme.tokens]

/-- A rule that makes no nodes: all that comes out of it are tokens. -/
def IsFlat (rule : Rule) : Prop :=
  ∀ input, ∃ tokens : List Token, (rule input).trees = tokens.map Tree.ofToken

theorem isFlat_done : done.IsFlat := fun _ => ⟨[], rfl⟩

theorem isFlat_sweep (next : σ → Kind → Option σ) (state : σ) : (sweep next state).IsFlat :=
  fun input => (exists_tokens_sweep next state input).imp fun _ h => h.1

/-- The end of the file is never taken. -/
def StopsAtEnd (next : σ → Kind → Option σ) : Prop := ∀ state, next state .eof = none

theorem StopsAtEnd.ne_eof (h : StopsAtEnd next) {kind : Kind} {after : σ}
    (hsome : next state kind = some after) : kind ≠ .eof := by
  rintro rfl
  rw [h state] at hsome
  cases hsome

/-! The three sweeps -/

/-- Newlines alone are taken. -/
def overNewlines (_ : Unit) (kind : Kind) : Option Unit :=
  if kind = .newline then some () else none

/-- Everything is taken up to the end of the file or to one of the given kinds. -/
def upTo (stop : List Kind) (_ : Unit) (kind : Kind) : Option Unit :=
  if kind ∈ Kind.eof :: stop then none else some ()

/-- Everything is taken up to the end of the hole, the holes in it included; the state is how many of
them are open. -/
def overHoles : Nat → Kind → Option Nat
  | _, .eof => none
  | depth, .interpStart => some (depth + 1)
  | 0, .interpEnd => none
  | depth + 1, .interpEnd => some depth
  | depth, _ => some depth

theorem overNewlines_eq_none_iff {kind : Kind} :
    overNewlines () kind = none ↔ kind ≠ .newline := by
  simp [overNewlines]

theorem upTo_eq_none_iff {stop : List Kind} {kind : Kind} :
    upTo stop () kind = none ↔ kind ∈ Kind.eof :: stop := by
  unfold upTo
  split <;> simp [*]

theorem overHoles_of_other {kind : Kind} (hstart : kind ≠ .interpStart) (hend : kind ≠ .interpEnd)
    (heof : kind ≠ .eof) (depth : Nat) : overHoles depth kind = some depth := by
  cases kind <;> first | rfl | contradiction

theorem overHoles_eq_none {depth : Nat} {kind : Kind} (h : overHoles depth kind = none) :
    kind ∈ [Kind.interpEnd, .eof] := by
  unfold overHoles at h
  split at h
  · simp
  · cases h
  · simp
  · cases h
  · cases h

theorem stopsAtEnd_overNewlines : StopsAtEnd overNewlines := fun _ => rfl

theorem stopsAtEnd_upTo (stop : List Kind) : StopsAtEnd (upTo stop) :=
  fun _ => if_pos List.mem_cons_self

theorem stopsAtEnd_overHoles : StopsAtEnd overHoles := fun _ => rfl

theorem takeNewlines_eq_sweep : takeNewlines = sweep overNewlines () := by
  funext input
  induction input with
  | nil => rfl
  | cons lexeme rest ih =>
      by_cases hkind : lexeme.kind = .newline
      · have hnext : overNewlines () lexeme.kind = some () := if_pos hkind
        rw [takeNewlines, if_pos hkind, sweep_of_some hnext, ih]
      · rw [takeNewlines, if_neg hkind, sweep_of_none (if_neg hkind)]
        rfl

theorem takeUntil_eq_sweep (stop : List Kind) : takeUntil stop = sweep (upTo stop) () := by
  funext input
  induction input with
  | nil => rfl
  | cons lexeme rest ih =>
      by_cases hkind : lexeme.kind ∈ Kind.eof :: stop
      · rw [takeUntil, if_pos (by simpa using hkind), sweep_of_none (if_pos hkind)]
        rfl
      · have hnext : upTo stop () lexeme.kind = some () := if_neg hkind
        rw [takeUntil, if_neg (by simpa using hkind), sweep_of_some hnext, ih]

theorem takeStray_eq_sweep (depth : Nat) : takeStray depth = sweep overHoles depth := by
  funext input
  fun_induction takeStray depth input with
  | case1 depth => rfl
  | case2 depth lexeme rest heof =>
      rw [sweep_of_none (by rw [heof]; rfl)]
      rfl
  | case3 lexeme rest take depth hstart ih =>
      have hnext : overHoles depth lexeme.kind = some (depth + 1) := by rw [hstart]; rfl
      rw [sweep_of_some hnext, ← ih]
  | case4 lexeme rest hend =>
      rw [sweep_of_none (by rw [hend]; rfl)]
      rfl
  | case5 lexeme rest take depth hend ih =>
      have hnext : overHoles (depth + 1) lexeme.kind = some depth := by rw [hend]; rfl
      rw [sweep_of_some hnext, ← ih]
  | case6 lexeme rest take depth heof hstart houter hinner ih =>
      have hend : lexeme.kind ≠ .interpEnd := fun hend => by
        cases depth with
        | zero => exact houter hend rfl
        | succ depth => exact hinner depth hend rfl
      rw [sweep_of_some (overHoles_of_other hstart hend heof depth), ← ih]

theorem isFlat_takeNewlines : takeNewlines.IsFlat :=
  takeNewlines_eq_sweep ▸ isFlat_sweep overNewlines ()

theorem isFlat_takeNewlinesBefore (wanted : Kind) : (takeNewlinesBefore wanted).IsFlat := by
  intro input
  unfold takeNewlinesBefore
  split
  · exact isFlat_takeNewlines input
  · exact isFlat_done input

theorem isFlat_takeUntil (stop : List Kind) : (takeUntil stop).IsFlat :=
  takeUntil_eq_sweep stop ▸ isFlat_sweep (upTo stop) ()

theorem isFlat_takeStray (depth : Nat) : (takeStray depth).IsFlat :=
  takeStray_eq_sweep depth ▸ isFlat_sweep overHoles depth

/-- What is taken up to one of the given kinds ends in front of one. -/
theorem kind_takeUntil (stop : List Kind) (input : List Lexeme) :
    kind (takeUntil stop input).rest ∈ Kind.eof :: stop := by
  rw [takeUntil_eq_sweep]
  exact kind_rest_sweep (p := (· ∈ Kind.eof :: stop)) List.mem_cons_self
    (fun _ _ => upTo_eq_none_iff.1) () input

theorem kind_takeNewlines_ne (input : List Lexeme) :
    kind (takeNewlines input).rest ≠ .newline := by
  rw [takeNewlines_eq_sweep]
  exact kind_rest_sweep (p := (· ≠ .newline)) nofun (fun _ _ => overNewlines_eq_none_iff.1) () input

/-- What is skipped in a hole ends where the hole does. -/
theorem kind_takeStray (depth : Nat) (input : List Lexeme) :
    kind (takeStray depth input).rest ∈ [Kind.interpEnd, .eof] := by
  rw [takeStray_eq_sweep]
  exact kind_rest_sweep (p := (· ∈ [Kind.interpEnd, .eof])) (by simp)
    (fun _ _ => overHoles_eq_none) depth input

end Rule

end Caret
