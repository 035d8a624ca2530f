import Caret.Proofs.Rule.Operators
import Caret.Proofs.Rule.Strings

/-!
# Faults and the marks that they leave

Wherever a rule records an error, it leaves a mark in the tree: a placeholder, a node of the tokens
that are skipped, or a string without its end. It leaves no mark without an error, but for the
placeholder behind a line that nests too deeply, which has a skipped line in front of it. The error
is recorded at the token that the rule has come to, and rules only ever go on to later tokens.
-/

namespace Caret

/-- The kinds of nodes that ask for nothing when they are made. -/
def Kind.isBare (kind : Kind) : Bool :=
  !kind.isToken && decide (kind ∉ [Kind.missing, .error, .string, .binaryExpr, .unaryExpr,
    .propertyAccess, .arrayAccess, .callExpr])

namespace Tree

def isStringEnd : Tree → Bool
  | leaf kind _ => kind = .stringEnd
  | node _ _ => false

/-- Whether trees hold the end of a string as one of them. -/
def hasEnd (trees : List Tree) : Bool := trees.any isStringEnd

/-- A node that is no mark of a fault. -/
structure Stands (kind : Kind) (children : List Tree) : Prop where
  isNode : kind.isToken = false
  isPlain : kind ≠ .missing ∧ kind ≠ .error
  closed : kind = .string → hasEnd children = true
  binds : Binds kind children

theorem stands_of_isBare {kind : Kind} (h : kind.isBare = true) (children : List Tree) :
    Stands kind children := by
  have hbinds : Binds kind children := by
    cases kind <;> first | exact trivial | cases h
  simp only [Kind.isBare, Bool.and_eq_true, Bool.not_eq_true', List.mem_cons, List.not_mem_nil,
    or_false, decide_eq_true_eq, not_or] at h
  exact ⟨h.1, ⟨h.2.1, h.2.2.1⟩, fun heq => absurd heq h.2.2.2.1, hbinds⟩

theorem stands_of_receives {kind : Kind} {children : List Tree}
    (hkind : kind = .propertyAccess ∨ kind = .arrayAccess ∨ kind = .callExpr)
    (h : Receives children) : Stands kind children := by
  rcases hkind with rfl | rfl | rfl <;> exact ⟨rfl, by decide, by simp, h⟩

theorem hasEnd_of_isCovered {trees : List Tree} (h : ∀ tree ∈ trees, tree.IsCovered) :
    hasEnd trees = false := by
  rw [hasEnd, List.any_eq_false]
  intro tree hmem hend
  have hcovered := h tree hmem
  cases tree with
  | leaf kind text =>
      rw [isStringEnd, decide_eq_true_eq] at hend
      rw [IsCovered, hend] at hcovered
      cases hcovered
  | node kind children => cases hend

theorem hasEnd_append (left right : List Tree) :
    hasEnd (left ++ right) = (hasEnd left || hasEnd right) := List.any_append

end Tree

open Tree (Stands hasEnd)

namespace Rule

/-- The ways in which rules get from some trees and an input to other trees, the errors that they
record, and what is left of the input. -/
inductive Accounts :
    List Tree → List Lexeme → List Tree → List SyntaxError → List Lexeme → Prop where
  | done (trees : List Tree) (input : List Lexeme) : Accounts trees input trees [] input
  | settle (trees : List Tree) (lead : List Token) (token : Token) (rest : List Lexeme) :
      Accounts trees (⟨lead, token⟩ :: rest) (trees ++ lead.map Tree.ofToken) [] (⟨[], token⟩ :: rest)
  | take (trees : List Tree) (lead : List Token) {token : Token} {kind : Kind}
      (rest : List Lexeme) (heof : token.kind ≠ .eof) (hbecomes : token.kind.Becomes kind)
      (hkind : kind ≠ .errorToken) :
      Accounts trees (⟨lead, token⟩ :: rest)
        (trees ++ (lead.map Tree.ofToken ++ [.leaf kind token.text])) [] rest
  | absent (trees : List Tree) (cause : SyntaxError.Cause) (input : List Lexeme) :
      Accounts trees input (trees ++ [.node .missing []]) [⟨cause, (current input).span⟩] input
  | skip (trees : List Tree) (cause : SyntaxError.Cause) (tokens : List Token)
      {input rest : List Lexeme} {leaves : List (Kind × String)} (hreads : Reads input leaves rest) :
      Accounts trees input (trees ++ [.node .error (tokens.map Tree.ofToken)])
        [⟨cause, (current input).span⟩] rest
  | fill {trees children : List Tree} (hskipped : .node .error children ∈ trees)
      (input : List Lexeme) : Accounts trees input (trees ++ [.node .missing []]) [] input
  | cutOff (trees : List Tree) {children : List Tree} {errors : List SyntaxError}
      {input rest : List Lexeme} (hinner : Accounts [] input children errors rest)
      (hopen : hasEnd children = false) :
      Accounts trees input (trees ++ [.node .string children])
        (errors ++ [⟨.unterminatedString, (current rest).span⟩]) rest
  | wrap (trees : List Tree) {left children : List Tree} {errors : List SyntaxError}
      {input rest : List Lexeme} {kind : Kind} (hinner : Accounts left input children errors rest)
      (hstands : Stands kind children) :
      Accounts (trees ++ left) input (trees ++ [.node kind children]) errors rest
  | trans {first second third : List Tree} {errors more : List SyntaxError}
      {input middle rest : List Lexeme} : Accounts first input second errors middle →
        Accounts second middle third more rest → Accounts first input third (errors ++ more) rest

namespace Accounts

variable {left trees : List Tree} {errors : List SyntaxError} {input rest : List Lexeme}

/-- What is there already stays in front. -/
theorem frame (before : List Tree) (h : Accounts left input trees errors rest) :
    Accounts (before ++ left) input (before ++ trees) errors rest := by
  induction h with
  | done trees input => exact .done _ _
  | settle trees lead token rest =>
      rw [← List.append_assoc]
      exact .settle _ _ _ _
  | take trees lead rest heof hbecomes hkind =>
      rw [← List.append_assoc]
      exact .take _ _ _ heof hbecomes hkind
  | absent trees cause input =>
      rw [← List.append_assoc]
      exact .absent _ _ _
  | skip trees cause tokens hreads =>
      rw [← List.append_assoc]
      exact .skip _ _ _ hreads
  | fill hskipped input =>
      rw [← List.append_assoc]
      exact .fill (List.mem_append_right _ hskipped) _
  | cutOff trees hinner hopen _ =>
      rw [← List.append_assoc]
      exact .cutOff _ hinner hopen
  | wrap trees hinner hstands _ =>
      rw [← List.append_assoc, ← List.append_assoc]
      exact .wrap _ hinner hstands
  | trans _ _ ihfirst ihsecond => exact ihfirst.trans ihsecond

theorem reads (h : Accounts left input trees errors rest) : ∃ leaves, Reads input leaves rest := by
  induction h with
  | done trees input => exact ⟨[], .done _⟩
  | settle trees lead token rest => exact ⟨_, .settle lead token rest⟩
  | take trees lead rest heof hbecomes hkind => exact ⟨_, .take lead rest heof hbecomes⟩
  | absent trees cause input => exact ⟨[], .done _⟩
  | skip trees cause tokens hreads => exact ⟨_, hreads⟩
  | fill hskipped input => exact ⟨[], .done _⟩
  | cutOff trees hinner hopen ih => exact ih
  | wrap trees hinner hstands ih => exact ih
  | trans _ _ ihfirst ihsecond =>
      obtain ⟨leaves, hreads⟩ := ihfirst
      obtain ⟨more, hmore⟩ := ihsecond
      exact ⟨_, hreads.trans hmore⟩

theorem led (h : Accounts left input trees errors rest) (hinput : Led input) : Led rest := by
  obtain ⟨leaves, hreads⟩ := h.reads
  exact hreads.led hinput

end Accounts

end Rule

/-- An outcome that accounts for what is read of a grouped input behind the given trees. -/
def Outcome.Accounts (outcome : Outcome) (left : List Tree) (input : List Lexeme) : Prop :=
  Rule.Led input → Rule.Accounts left input outcome.trees outcome.errors outcome.rest

namespace Rule

variable {first second body inner : Rule} {left : List Tree} {input : List Lexeme} {kind : Kind}

theorem accounts_keep (left : List Tree) (input : List Lexeme) :
    (keep left input).Accounts left input := fun _ => .done left input

theorem accounts_done (input : List Lexeme) : (done input).Accounts [] input :=
  accounts_keep [] input

theorem accounts_andThen (hfirst : (first input).Accounts left input)
    (hsecond : (second (first input).rest).Accounts [] (first input).rest) :
    ((first ++ second) input).Accounts left input := by
  intro hinput
  have haccounts := hfirst hinput
  have hmore := (hsecond (haccounts.led hinput)).frame (first input).trees
  rw [List.append_nil] at hmore
  exact haccounts.trans hmore

theorem accounts_into {next : List Tree → Rule} (hfirst : (first input).Accounts left input)
    (hnext : Led input → (next (first input).trees (first input).rest).Accounts
      (first input).trees (first input).rest) :
    (first.into next input).Accounts left input := fun hinput =>
  (hfirst hinput).trans (hnext hinput ((hfirst hinput).led hinput))

theorem accounts_wrap (h : (body input).Accounts [] input)
    (hstands : Led input → Stands kind (left ++ (body input).trees)) :
    (wrap kind left body input).Accounts left input := by
  intro hinput
  have haccounts := (h hinput).frame left
  rw [List.append_nil] at haccounts
  exact haccounts.wrap [] (hstands hinput)

theorem accounts_settle (input : List Lexeme) : (settle input).Accounts [] input := by
  intro _
  cases input with
  | nil => exact .done _ _
  | cons lexeme rest => exact .settle [] lexeme.lead lexeme.token rest

theorem accounts_node (hkind : kind.isBare = true)
    (h : (body (settle input).rest).Accounts [] (settle input).rest) :
    (node kind body input).Accounts [] input :=
  accounts_andThen (accounts_settle input)
    (accounts_wrap h fun _ => Tree.stands_of_isBare hkind _)

theorem accounts_takeAs (h : (Rule.kind input).Becomes kind) (hkind : kind ≠ .errorToken) :
    (takeAs kind input).Accounts [] input := by
  intro hinput
  cases input with
  | nil => exact .done _ _
  | cons lexeme rest =>
      rw [takeAs]
      split
      · exact accounts_settle _ hinput
      · rename_i heof
        exact .take [] lexeme.lead rest heof h hkind

theorem accounts_take (h : Rule.kind input ≠ .errorToken) : (take input).Accounts [] input :=
  accounts_takeAs (.same _) h

theorem accounts_take_of {tag : Kind} (hkind : Rule.kind input = tag) (htag : tag ≠ .errorToken) :
    (take input).Accounts [] input := accounts_take (hkind ▸ htag)

theorem accounts_ifAt {yes no : Rule}
    (hyes : Rule.kind input = kind → (yes input).Accounts left input)
    (hno : Rule.kind input ≠ kind → (no input).Accounts left input) :
    (ifAt kind yes no input).Accounts left input := by
  unfold ifAt
  split
  · exact hyes ‹_›
  · exact hno ‹_›

theorem accounts_unlessAt {kinds : List Kind}
    (h : Rule.kind input ∉ kinds → (inner input).Accounts [] input) :
    (unlessAt kinds inner input).Accounts [] input := by
  unfold unlessAt
  split
  · exact accounts_done input
  · exact h (by simpa using ‹¬kinds.contains (Rule.kind input) = true›)

theorem report_node_apply (cause : SyntaxError.Cause) (kind : Kind) (body : Rule)
    (input : List Lexeme) :
    (report cause ++ node kind body) input =
      ⟨(settle input).trees ++ [.node kind (body (settle input).rest).trees],
        ⟨cause, (current (settle input).rest).span⟩ :: (body (settle input).rest).errors,
        (body (settle input).rest).rest⟩ := by
  cases input <;> rfl

/-- What is reported is accounted for behind the trivia in front of it. -/
theorem accounts_report_node {cause : SyntaxError.Cause}
    (h : Accounts (settle input).trees (settle input).rest
      ((settle input).trees ++ [.node kind (body (settle input).rest).trees])
      [⟨cause, (current (settle input).rest).span⟩] (body (settle input).rest).rest)
    (hquiet : (body (settle input).rest).errors = []) :
    ((report cause ++ node kind body) input).Accounts [] input := by
  intro hinput
  have hsettle := accounts_settle input hinput
  have herrors : (settle input).errors = [] := by cases input <;> rfl
  rw [herrors] at hsettle
  rw [report_node_apply, hquiet]
  exact hsettle.trans h

theorem accounts_report_missing (cause : SyntaxError.Cause) (input : List Lexeme) :
    ((report cause ++ node .missing done) input).Accounts [] input :=
  accounts_report_node (.absent _ _ _) rfl

theorem accounts_absent (expected : Expected) (input : List Lexeme) :
    (absent expected input).Accounts [] input := accounts_report_missing _ input

theorem accounts_expect {wanted : Kind} (h : wanted ≠ .errorToken) (input : List Lexeme) :
    (expect wanted input).Accounts [] input :=
  accounts_ifAt (fun hkind => accounts_take_of hkind h) fun _ => accounts_absent _ input

/-- Skipped tokens are put into a node of their own. -/
theorem accounts_report_error (cause : SyntaxError.Cause) {skipped : Rule}
    (hspells : ∀ input, (skipped input).Spells [] input)
    (hflat : skipped.IsFlat) (hquiet : ∀ input, (skipped input).errors = []) (input : List Lexeme) :
    ((report cause ++ node .error skipped) input).Accounts [] input := by
  obtain ⟨tokens, htrees⟩ := hflat (settle input).rest
  obtain ⟨leaves, hreads, -⟩ := hspells (settle input).rest
  refine accounts_report_node ?_ (hquiet _)
  rw [htrees]
  exact .skip _ cause tokens hreads

theorem errors_takeUntil (stop : List Kind) (input : List Lexeme) :
    (takeUntil stop input).errors = [] := by
  rw [takeUntil_eq_sweep, errors_sweep]

theorem errors_takeStray (depth : Nat) (input : List Lexeme) :
    (takeStray depth input).errors = [] := by
  rw [takeStray_eq_sweep, errors_sweep]

theorem andThen_congr (h : second (first input).rest = inner (first input).rest) :
    (first ++ second) input = (first ++ inner) input := by
  rw [andThen_apply, andThen_apply, h]

theorem skipTo_of_mem {stop : List Kind} (cause : SyntaxError.Cause)
    (h : Rule.kind input ∈ .eof :: stop) : skipTo stop cause input = report cause input := by
  have hskip : skipTo stop cause input = (report cause ++ done) input :=
    andThen_congr (if_pos (List.contains_iff_mem.2 h))
  rw [hskip]
  rfl

theorem skipTo_of_not_mem {stop : List Kind} (cause : SyntaxError.Cause)
    (h : Rule.kind input ∉ .eof :: stop) :
    skipTo stop cause input = (report cause ++ node .error (takeUntil stop)) input :=
  andThen_congr (if_neg (mt List.contains_iff_mem.1 h))

/-- Where there is something to skip, it leaves a mark. -/
theorem accounts_skipTo {stop : List Kind} (cause : SyntaxError.Cause)
    (h : Rule.kind input ∉ .eof :: stop) : (skipTo stop cause input).Accounts [] input := by
  rw [skipTo_of_not_mem cause h]
  exact accounts_report_error cause (spells_takeUntil stop) (isFlat_takeUntil stop)
    (errors_takeUntil stop) input

theorem accounts_unlessAt_skipTo {kinds stop : List Kind} (cause : SyntaxError.Cause)
    (h : ∀ kind ∈ Kind.eof :: stop, kind ∈ kinds) (input : List Lexeme) :
    (unlessAt kinds (skipTo stop cause) input).Accounts [] input :=
  accounts_unlessAt fun hkind => accounts_skipTo cause fun hstop => hkind (h _ hstop)

/-- What nests too deeply leaves a placeholder behind what is skipped, or alone where there is
nothing to skip. -/
theorem accounts_tooDeep (input : List Lexeme) : (tooDeep input).Accounts [] input := by
  -- At the end of a line nothing is skipped, and the placeholder is the mark of the error.
  by_cases h : Rule.kind input ∈ [Kind.eof, .newline]
  · have heq : tooDeep input = (report .nestingTooDeep ++ node .missing done) input := by
      rw [tooDeep, andThen_apply, skipTo_of_mem _ h]
      rfl
    rw [heq]
    exact accounts_report_missing _ input
  · intro hinput
    have hskip := accounts_skipTo .nestingTooDeep h hinput
    have hsettle := (accounts_settle _ (hskip.led hinput)).frame
      (skipTo [.newline] .nestingTooDeep input).trees
    rw [List.append_nil] at hsettle
    have hmem : ∃ children,
        Tree.node .error children ∈ (skipTo [.newline] .nestingTooDeep input).trees := by
      rw [skipTo_of_not_mem _ h, report_node_apply]
      exact ⟨_, List.mem_append_right _ List.mem_cons_self⟩
    obtain ⟨children, hmem⟩ := hmem
    have hfill := Accounts.fill (List.mem_append_left (settle (skipTo [.newline] .nestingTooDeep
      input).rest).trees hmem) (settle (skipTo [.newline] .nestingTooDeep input).rest).rest
    rw [List.append_assoc] at hfill
    exact hskip.trans (hsettle.trans hfill)

/-- The lexeme in front is taken whole, and the rest is read by a rule that looks at it alone. -/
theorem accounts_cons {lexeme : Lexeme} {rest : List Lexeme} {more : Outcome}
    (heof : lexeme.kind ≠ .eof) (hkind : lexeme.kind ≠ .errorToken) (h : more.Accounts [] rest) :
    Outcome.Accounts { more with trees := lexeme.tokens.map Tree.ofToken ++ more.trees } []
      (lexeme :: rest) := by
  intro hinput
  have hmore := (h hinput.tail).frame (lexeme.tokens.map Tree.ofToken)
  rw [List.append_nil] at hmore
  rw [Lexeme.tokens, List.map_append] at hmore ⊢
  exact (Accounts.take [] lexeme.lead rest heof (.same _) hkind).trans hmore

theorem accounts_takeNewlines (input : List Lexeme) : (takeNewlines input).Accounts [] input := by
  induction input with
  | nil => exact accounts_done []
  | cons lexeme rest ih =>
      unfold takeNewlines
      split
      · rename_i hkind
        exact accounts_cons (by simp [hkind]) (by simp [hkind]) ih
      · exact accounts_done _

theorem accounts_takeNewlinesBefore (wanted : Kind) (input : List Lexeme) :
    (takeNewlinesBefore wanted input).Accounts [] input := by
  unfold takeNewlinesBefore
  split
  · exact accounts_takeNewlines input
  · exact accounts_done input

theorem accounts_loop {choose : List Lexeme → Step}
    (h : ∀ input, ((choose input).rule input).Accounts [] input) (input : List Lexeme) :
    (loop choose input).Accounts [] input :=
  loop_of_rounds (p := fun input outcome => outcome.Accounts [] input) accounts_done
    accounts_andThen h input

/-! The rules that make nodes inside of declarations -/

section Expr

variable {expr : Rule} (hexpr : ∀ input, (expr input).Accounts [] input)
  (hspells : ∀ input, (expr input).Spells [] input)

include hexpr

theorem accounts_interpolation (h : Rule.kind input = .interpStart) :
    (interpolation expr input).Accounts [] input := by
  refine accounts_node rfl (accounts_andThen (accounts_andThen (accounts_andThen (accounts_andThen
    (accounts_andThen (accounts_take (by rw [kind_settle, h]; decide))
    (accounts_takeNewlines _)) (hexpr _)) (accounts_takeNewlines _)) ?_)
    (accounts_expect (by decide) _))
  exact accounts_unlessAt fun _ => accounts_report_error _ (spells_takeStray 0)
    (isFlat_takeStray 0) (errors_takeStray 0) _

/-- What is read of a string behind its start: an error for its end, or the end. -/
def Concludes (outcome : Outcome) (input : List Lexeme) : Prop :=
  Led input → ∃ errors, Accounts [] input outcome.trees errors outcome.rest ∧
    (hasEnd outcome.trees = true ∧ outcome.errors = errors ∨
      hasEnd outcome.trees = false ∧
        outcome.errors = errors ++ [⟨.unterminatedString, (current outcome.rest).span⟩])

omit hexpr in
theorem concludes_andThen (hfirst : (first input).Accounts [] input)
    (hopen : Led input → hasEnd (first input).trees = false)
    (hsecond : Concludes (second (first input).rest) (first input).rest) :
    Concludes ((first ++ second) input) input := by
  intro hinput
  have haccounts := hfirst hinput
  obtain ⟨errors, hmore, hend⟩ := hsecond (haccounts.led hinput)
  have hframe := hmore.frame (first input).trees
  rw [List.append_nil] at hframe
  refine ⟨_, haccounts.trans hframe, ?_⟩
  rw [andThen_apply]
  dsimp only
  rw [Tree.hasEnd_append, hopen hinput, Bool.false_or]
  rcases hend with ⟨hend, herrors⟩ | ⟨hend, herrors⟩
  · exact .inl ⟨hend, by rw [herrors]⟩
  · exact .inr ⟨hend, by rw [herrors, List.append_assoc]⟩

omit hexpr in
theorem hasEnd_take (hinput : Led input) (heof : Rule.kind input ≠ .eof) :
    hasEnd (take input).trees = decide (Rule.kind input = .stringEnd) := by
  cases input with
  | nil => exact absurd rfl heof
  | cons lexeme rest =>
      have hlead : hasEnd (lexeme.lead.map Tree.ofToken) = false :=
        Tree.hasEnd_of_isCovered fun tree hmem =>
          Tree.isCovered_of_mem_lead (hinput lexeme List.mem_cons_self).1 hmem
      rw [take, takeAs_cons heof, Tree.hasEnd_append, hlead]
      simp [hasEnd, Tree.isStringEnd]

include hspells

theorem concludes_loop_stringStep (input : List Lexeme) :
    Concludes (loop (stringStep expr) input) input := by
  have hprogress := progresses_stringStep hspells
  induction input using loop_induction hprogress with
  | last input inner hchoose =>
      rw [loop_of_last hprogress hchoose]
      cases stringRound_of_eq hchoose with
      | close hkind =>
          intro hinput
          refine ⟨_, accounts_take (by rw [hkind]; decide) hinput, .inl ⟨?_, rfl⟩⟩
          rw [hasEnd_take hinput (by rw [hkind]; decide), hkind]
          rfl
      | unclosed => exact fun _ => ⟨[], .done [] input, .inr ⟨rfl, rfl⟩⟩
  | again input inner hchoose ih =>
      rw [loop_of_again hprogress hchoose]
      cases stringRound_of_eq hchoose with
      | text hkind =>
          refine concludes_andThen (accounts_take (by rw [hkind]; decide)) (fun hinput => ?_) ih
          rw [hasEnd_take hinput (by rw [hkind]; decide), hkind]
          rfl
      | hole hkind =>
          exact concludes_andThen (accounts_interpolation hexpr hkind)
            (fun hinput => Tree.hasEnd_of_isCovered (covered_node _ rfl input hinput)) ih

theorem accounts_string (h : Rule.kind input = .stringStart) :
    (string expr input).Accounts [] input := by
  refine accounts_andThen (accounts_settle input) fun hinput => ?_
  have hkind : Rule.kind (settle input).rest = .stringStart := by rwa [kind_settle]
  have hbody : Concludes ((take ++ loop (stringStep expr)) (settle input).rest) (settle input).rest := by
    refine concludes_andThen (accounts_take (by rw [hkind]; decide)) (fun hinput => ?_)
      (concludes_loop_stringStep hexpr hspells _)
    rw [hasEnd_take hinput (by rw [hkind]; decide), hkind]
    rfl
  obtain ⟨errors, haccounts, ⟨hend, herrors⟩ | ⟨hopen, herrors⟩⟩ := hbody hinput
  · rw [← herrors] at haccounts
    exact haccounts.wrap [] ⟨rfl, by decide, fun _ => hend, trivial⟩
  · have hcut := haccounts.cutOff [] hopen
    rw [← herrors] at hcut
    exact hcut

theorem accounts_property (h : startsProperty (Rule.kind input) = true) :
    (property expr input).Accounts [] input := by
  rw [← kind_settle] at h
  refine accounts_node rfl (accounts_andThen (accounts_andThen ?_ ?_)
    (accounts_unlessAt_skipTo _ (by decide) _))
  · rw [← kind_settle] at h
    refine accounts_node rfl (accounts_ifAt (accounts_string hexpr hspells) fun hquote => ?_)
    simp only [startsProperty, hquote, decide_false, Bool.or_false] at h
    exact accounts_takeAs (.name h) (by decide)
  · exact accounts_ifAt
      (fun hkind => accounts_andThen (accounts_take (by rw [hkind]; decide)) (hexpr _))
      fun _ => accounts_andThen (accounts_absent _ _) (accounts_unlessAt fun _ => hexpr _)

omit hexpr hspells in
theorem accounts_list {node close : Kind} {startsItem : Kind → Bool} {item : Rule}
    {cause : SyntaxError.Cause} (hnode : node.isBare = true) (hclose : close ≠ .errorToken)
    (hitem : ∀ input, startsItem (Rule.kind input) = true → (item input).Accounts [] input)
    (h : Rule.kind input ≠ .errorToken) :
    (list node close startsItem item cause input).Accounts [] input := by
  refine accounts_node hnode (accounts_andThen (accounts_take (by rwa [kind_settle]))
    (accounts_loop (fun input => ?_) _))
  generalize hstep : listStep close startsItem item cause input = step
  cases listRound_of_eq hstep with
  | newline hkind | comma hkind => exact accounts_take_of hkind (by decide)
  | close _ hkind => exact accounts_take_of hkind hclose
  | unclosed => exact accounts_absent _ input
  | item _ hstart => exact hitem input hstart
  | stray hinside hother hend =>
      refine accounts_skipTo _ fun hmem => ?_
      simp only [List.mem_cons, List.not_mem_nil, or_false] at hmem
      rcases hmem with hkind | hkind | hkind | hkind
      · exact hend (by rw [hkind]; decide)
      · exact hinside.1 hkind
      · exact hinside.2 hkind
      · exact hother hkind

theorem accounts_object (h : Rule.kind input = .lBrace) : (object expr input).Accounts [] input :=
  accounts_list rfl (by decide) (fun _ => accounts_property hexpr hspells) (by rw [h]; decide)

omit hspells in
theorem accounts_array (h : Rule.kind input = .lBrack) : (array expr input).Accounts [] input :=
  accounts_list rfl (by decide) (fun _ _ => accounts_node rfl (hexpr _)) (by rw [h]; decide)

omit hspells in
theorem accounts_arguments (h : Rule.kind input = .lParen) :
    (arguments expr input).Accounts [] input :=
  accounts_list rfl (by decide) (fun input _ => hexpr input) (by rw [h]; decide)

omit hspells in
theorem accounts_forExpr (hbracket : Rule.kind input = .lBrack)
    (hfor : isWordAt input.tail "for" = true) : (forExpr expr input).Accounts [] input := by
  have hvariable : ∀ input, (loopVariable input).Accounts [] input := by
    intro input
    unfold loopVariable
    split
    · rename_i hname
      simp only [Bool.and_eq_true, decide_eq_true_eq] at hname
      exact accounts_node rfl (accounts_take (by rw [kind_settle, hname.1]; decide))
    · exact accounts_absent _ input
  have hin : ∀ input, (inKeyword input).Accounts [] input := by
    intro input
    unfold inKeyword
    split
    · exact accounts_takeAs (kind_eq_of_isWordAt ‹_› ▸ .keyword rfl) (by decide)
    · exact accounts_absent _ input
  refine accounts_node rfl (accounts_andThen (accounts_andThen (accounts_andThen (accounts_andThen
    (accounts_andThen (accounts_andThen (accounts_andThen (accounts_andThen (accounts_andThen
    (accounts_andThen (accounts_take (by rw [kind_settle, hbracket]; decide))
    (accounts_takeAs ?_ (by decide))) (hvariable _)) (hin _)) (hexpr _))
    (accounts_expect (by decide) _)) (accounts_takeNewlines _)) (hexpr _))
    (accounts_unlessAt_skipTo _ (by decide) _)) (accounts_takeNewlinesBefore _ _))
    (accounts_expect (by decide) _))
  rw [kind_eq_of_isWordAt (isWordAt_rest_take hbracket hfor)]
  exact .keyword rfl

omit hspells in
theorem accounts_paren (h : Rule.kind input = .lParen) : (paren expr input).Accounts [] input :=
  accounts_node rfl (accounts_andThen (accounts_andThen (accounts_andThen (accounts_andThen
    (accounts_take (by rw [kind_settle, h]; decide)) (accounts_takeNewlines _)) (hexpr _))
    (accounts_takeNewlinesBefore _ _)) (accounts_expect (by decide) _))

theorem accounts_primary (input : List Lexeme) : (primary expr input).Accounts [] input := by
  have hliteral : ∀ kind ∈ literalKinds, kind ≠ .errorToken := by decide
  obtain ⟨rule, hrule, heq⟩ := exists_primary expr input
  rw [heq]
  cases hrule with
  | literal hkind =>
      exact accounts_node rfl (accounts_take (by rw [kind_settle]; exact hliteral _ hkind))
  | string hkind => exact accounts_string hexpr hspells hkind
  | object hkind => exact accounts_object hexpr hspells hkind
  | loop hkind hfor => exact accounts_forExpr hexpr hkind hfor
  | array hkind => exact accounts_array hexpr hkind
  | paren hkind => exact accounts_paren hexpr hkind
  | word hword =>
      rw [← kind_settle] at hword
      exact accounts_node rfl (accounts_takeAs (.name hword) (by decide))
  | absent => exact accounts_absent _ input

end Expr

open Tree (Firm)

/-- The rules of a level account for what they read, chains from operands that are tight enough. -/
structure Level.Accounts (level : Level) : Prop where
  expr : ∀ input, (level.expr input).Accounts [] input
  unary : ∀ input, (level.unary input).Accounts [] input
  links : ∀ receiver input, Tree.EndsInNode receiver → Firm 9 receiver →
    (level.links receiver input).Accounts receiver input
  operators : ∀ least left input, (∀ tree ∈ left, tree.IsCovered) → Carries least left input →
    (level.operators least left input).Accounts left input

namespace Level

variable {level : Level} {receiver : List Tree} {least : Nat}

theorem Accounts.binary (h : level.Accounts) (hcovered : level.Covered)
    (horders : level.Orders) (hleast : least ≤ 8) (input : List Lexeme) :
    (level.binary least input).Accounts [] input :=
  accounts_andThen (accounts_settle input) (accounts_into (h.unary _) fun hinput =>
    h.operators _ _ _ (hcovered.unary _ hinput) (horders.carries_unary hleast _ _))

theorem Accounts.ternary (h : level.Accounts) (hcovered : level.Covered)
    (horders : level.Orders) (input : List Lexeme) : (level.ternary input).Accounts [] input := by
  rw [ternary_eq]
  refine accounts_andThen (accounts_settle input) (accounts_into
    (h.binary hcovered horders (by decide) _) fun _ => accounts_ifAt (fun hkind => ?_)
    fun _ => accounts_keep _ _)
  exact accounts_wrap (accounts_andThen (accounts_andThen (accounts_andThen
    (accounts_take (by rw [hkind]; decide)) (h.expr _)) (accounts_expect (by decide) _)) (h.expr _))
    fun _ => Tree.stands_of_isBare rfl _

theorem accounts_member (input : List Lexeme) : (member input).Accounts [] input := by
  unfold member
  split
  · exact accounts_takeAs (.name ‹_›) (by decide)
  · exact accounts_absent _ input

theorem Accounts.link (h : level.Accounts) (hends : Tree.EndsInNode receiver) (hfirm : Firm 9 receiver)
    (hstart : startsLink (Rule.kind input) = true) :
    (level.link receiver input).Accounts receiver input := by
  have hreceives : ∀ more, Tree.Receives (receiver ++ more) := fun more =>
    ⟨receiver, more, rfl, hends, hfirm⟩
  unfold Level.link
  split
  · rename_i hdot
    exact accounts_wrap (accounts_andThen (accounts_take (by rw [hdot]; decide)) (accounts_member _))
      fun _ => Tree.stands_of_receives (.inl rfl) (hreceives _)
  · rename_i hbracket
    exact accounts_wrap (accounts_andThen (accounts_andThen (accounts_take (by rw [hbracket]; decide))
      (h.expr _)) (accounts_expect (by decide) _)) fun _ =>
        Tree.stands_of_receives (.inr (.inl rfl)) (hreceives _)
  · rename_i hdot hbracket
    have hparen : Rule.kind input = .lParen := eq_lParen_of_startsLink hstart hdot hbracket
    exact accounts_wrap (accounts_arguments h.expr hparen) fun _ =>
      Tree.stands_of_receives (.inr (.inr rfl)) (hreceives _)

theorem accounts_keep_tooDeep (left : List Tree) (input : List Lexeme) :
    ((keep left ++ tooDeep) input).Accounts left input :=
  accounts_andThen (accounts_keep left input) (accounts_tooDeep input)

theorem accounts_above {below : Option Level} (hspells : ∀ level ∈ below, level.Spells)
    (hcovered : ∀ level ∈ below, level.Covered) (horders : ∀ level ∈ below, level.Orders)
    (h : ∀ level ∈ below, level.Accounts) : (above below).Accounts := by
  have hexpr : ∀ input, ((above below).expr input).Accounts [] input := by
    intro input
    cases below with
    | none => exact accounts_tooDeep input
    | some level =>
        exact (h level rfl).ternary (hcovered level rfl) (horders level rfl) input
  have hlinks : ∀ receiver input, Tree.EndsInNode receiver → Firm 9 receiver →
      ((above below).links receiver input).Accounts receiver input := by
    intro receiver input hends hfirm
    rw [links_above]
    split
    · cases below with
      | none => exact accounts_keep_tooDeep receiver input
      | some level =>
          exact accounts_into ((h level rfl).link hends hfirm ‹_›) fun _ =>
            (h level rfl).links _ _ (endsInNode_link level receiver input) (firm_link _ _ _)
    · exact accounts_keep receiver input
  refine ⟨hexpr, fun input => ?_, hlinks, fun least left input hleft hcarries => ?_⟩
  · rw [unary_above]
    split
    · rename_i hsign
      have hsign' : Rule.kind input ≠ .errorToken := by
        rcases hsign with hsign | hsign <;> rw [hsign] <;> decide
      cases below with
      | none => exact accounts_tooDeep input
      | some level =>
          refine accounts_andThen (accounts_settle input) (accounts_wrap (accounts_andThen
            (accounts_take (by rwa [kind_settle])) ((h level rfl).unary _)) fun _ =>
            ⟨rfl, by decide, nofun, ?_⟩)
          exact ((firm_takeAs _ _).mono (by decide)).append ((horders level rfl).unary _)
    · exact accounts_andThen (accounts_settle input) (accounts_into
        (accounts_primary hexpr (spells_above hspells).expr _) fun _ =>
          hlinks _ _ (endsInNode_primary _ _) (firm_primary _ _))
  · rw [operators_above]
    split
    · exact accounts_keep left input
    · rename_i precedence hsome
      split
      · exact accounts_keep left input
      · rename_i hge
        cases below with
        | none => exact accounts_keep_tooDeep left input
        | some level =>
            have hoperator : Rule.kind input ≠ .errorToken := by
              intro herror
              rw [herror] at hsome
              cases hsome
            have hseven := (Kind.precedence_le hsome).2
            have hbody : ((take ++ level.binary (precedence + 1)) input).Accounts [] input :=
              accounts_andThen (accounts_take hoperator) ((h level rfl).binary
                (hcovered level rfl) (horders level rfl) (by omega) _)
            rw [Nat.not_lt] at hge
            exact accounts_into (accounts_wrap hbody fun hinput => ⟨rfl, by decide, nofun,
              ((horders level rfl).operation (hspells level rfl) (hcovered level rfl) hinput hleft
                (hcarries.2 precedence hsome) hsome).1⟩) fun hinput => (h level rfl).operators _ _ _
              (covered_wrap left _ rfl input hinput)
              ((horders level rfl).carries_operation (hspells level rfl) (hcovered level rfl) hinput
                hleft (hcarries.2 precedence hsome) hsome hge)

end Level

theorem accounts_level (budget : Nat) : (level budget).Accounts :=
  level_induction (fun _ hbelow known => Level.accounts_above (known spells_level)
    (known covered_level) (known orders_level) hbelow) budget

/-! The rules of documents -/

theorem accounts_expr (input : List Lexeme) : (expr input).Accounts [] input :=
  (accounts_level maxDepth).expr input

theorem accounts_decorator (h : Rule.kind input = .atSign) :
    (decorator input).Accounts [] input := by
  refine accounts_andThen (accounts_node rfl (accounts_andThen
    (accounts_take (by rw [kind_settle, h]; decide))
    (accounts_ifAt (fun _ => ?_) fun _ => accounts_absent _ _)))
    (accounts_unlessAt_skipTo _ (by decide) _)
  exact accounts_andThen (accounts_settle _) (accounts_into (accounts_primary accounts_expr
    spells_expr _) fun _ => (accounts_level maxDepth).links _ _ (endsInNode_primary _ _)
      (firm_primary _ _))

theorem accounts_decorators (input : List Lexeme) :
    (loop decoratorStep input).Accounts [] input := by
  refine accounts_loop (fun input => ?_) input
  generalize hstep : decoratorStep input = step
  cases decoratorRound_of_eq hstep with
  | decorator hkind => exact accounts_andThen (accounts_decorator hkind) (accounts_takeNewlines _)
  | done => exact accounts_done input

/-- Behind decorators there is no newline. -/
theorem loop_decoratorStep_cases (input : List Lexeme) :
    loop decoratorStep input = done input ∨ (loop decoratorStep input).trees ≠ [] ∧
      Rule.kind (loop decoratorStep input).rest ≠ .newline := by
  induction input using loop_induction progresses_decoratorStep with
  | last input inner hchoose =>
      rw [loop_of_last progresses_decoratorStep hchoose]
      cases decoratorRound_of_eq hchoose with
      | done => exact .inl rfl
  | again input inner hchoose ih =>
      rw [loop_of_again progresses_decoratorStep hchoose]
      cases decoratorRound_of_eq hchoose with
      | decorator =>
          refine .inr ⟨?_, ?_⟩
          · simp [andThen_apply, decorator, node, wrap]
          · rw [andThen_apply]
            rcases ih with hdone | ⟨-, hrest⟩
            · rw [hdone]
              exact kind_takeNewlines_ne _
            · exact hrest

theorem accounts_quoted {tag : Kind} (htag : tag.isBare = true) (expected : Expected)
    (input : List Lexeme) : (quoted tag expected input).Accounts [] input :=
  accounts_ifAt (fun hkind => accounts_node htag (accounts_string accounts_expr spells_expr
    (by rwa [kind_settle]))) fun _ => accounts_absent _ _

theorem accounts_header (kind : Kind) (input : List Lexeme) :
    (header kind input).Accounts [] input := by
  have hident : ∀ {tag : Kind} (expected : Expected) (input : List Lexeme), tag.isBare = true →
      (ifAt .ident (node tag take) (absent expected) input).Accounts [] input :=
    fun expected input htag => accounts_ifAt (fun hkind => accounts_node htag
      (accounts_take (by rw [kind_settle, hkind]; decide))) fun _ => accounts_absent _ _
  refine header_induction (motive := fun rule => ∀ input, (rule input).Accounts [] input)
    (fun hpart input => ?_)
    (fun hfirst hsecond input => accounts_andThen (hfirst input) (hsecond _)) input
  cases hpart with
  | name | typeName => exact hident _ input rfl
  | resourceType | modulePath => exact accounts_quoted rfl _ input
  | existing =>
      unfold existing
      split
      · exact accounts_takeAs (kind_eq_of_isWordAt ‹_› ▸ .keyword rfl) (by decide)
      · exact accounts_done input
  | equals => exact accounts_expect (by decide) input
  | value => exact accounts_expr input
  | default =>
      exact accounts_ifAt (fun hkind => accounts_andThen (accounts_take (by rw [hkind]; decide))
        (accounts_expr _)) fun _ => accounts_done _
  | done => exact accounts_done input

theorem accounts_undecorated {decorators : List Tree}
    (h : decorators ≠ [] ∨ Rule.kind input ≠ .eof) (hline : Rule.kind input ≠ .newline) :
    (undecorated decorators input).Accounts decorators input := by
  have hend : ∀ input, (endDeclaration input).Accounts [] input := by
    intro input
    unfold endDeclaration
    split
    · exact accounts_done input
    · exact accounts_unlessAt_skipTo _ (by decide) input
  obtain ⟨rule, hrule, heq⟩ := exists_undecorated decorators input
  rw [heq]
  cases hrule with
  | @declaration kind keyword _ hident hkeyword hdeclaration =>
      refine accounts_andThen (accounts_wrap (accounts_andThen (accounts_takeAs
        (hident ▸ .keyword hkeyword) ?_) (accounts_header kind _)) fun _ =>
        Tree.stands_of_isBare ?_ _) (hend _)
      · rintro rfl
        cases hkeyword
      · cases kind <;> first | rfl | cases hdeclaration
  | alone => exact accounts_keep decorators input
  | stray _ hlast =>
      -- An error without anything to skip would leave no mark: there must be a token on this line.
      refine accounts_andThen (accounts_keep decorators input) (accounts_skipTo _ ?_)
      change Rule.kind input ∉ [Kind.eof, .newline]
      have heof : Rule.kind input ≠ .eof := hlast.elim (fun hnil => h.resolve_left (not_not.2 hnil)) id
      simp [heof, hline]

theorem accounts_declaration (heof : Rule.kind input ≠ .eof) (hline : Rule.kind input ≠ .newline) :
    (declaration input).Accounts [] input := by
  rw [← kind_settle] at heof hline
  refine accounts_andThen (accounts_settle input)
    (accounts_into (accounts_decorators _) fun _ => ?_)
  -- Decorators take the newlines behind them, so what follows them is a token or the end.
  rcases loop_decoratorStep_cases (settle input).rest with hdone | ⟨htrees, hrest⟩
  · rw [hdone]
    exact accounts_undecorated (.inr heof) hline
  · exact accounts_undecorated (.inl htrees) hrest

/-- Reading a document accounts for all errors. -/
theorem accounts_document (input : List Lexeme) : (document input).Accounts [] input := by
  refine accounts_wrap (accounts_loop (fun input => ?_) input) fun _ => Tree.stands_of_isBare rfl _
  generalize hstep : documentStep input = step
  cases documentRound_of_eq hstep with
  | fileEnd => exact accounts_settle input
  | newline hkind => exact accounts_take_of hkind (by decide)
  | declaration heof hline => exact accounts_declaration heof hline

end Rule

end Caret
