import Caret.Proofs.Rule.Covered
import Caret.Proofs.Rule.Progress
import Caret.Proofs.Tree.Strings

/-!
# The rules keep strings together

Every rule leaves trees in which strings and holes have their own tokens: a string takes the tokens
of its body until something else comes, and a hole that misses the token that closes it has reached
the end of the text. No other node takes a token of a string, but for the error nodes in which
recovery puts what it skips.
-/

namespace Caret

open Tree (StrungAll leavesAll Holds)

namespace Rule

/-- The leaves that are read of an input up to its end. -/
def Behind (input : List Lexeme) (after : List (Kind × String)) : Prop :=
  ∃ eof : Token, eof.kind = .eof ∧ Reads input after [⟨[], eof⟩]

/-- Trees in which strings and holes have their own tokens, with the given input left. -/
def Threads (rest : List Lexeme) (trees : List Tree) : Prop :=
  ∀ after, Behind rest after → StrungAll after trees

/-- Trees outside of strings in which strings and holes have their own tokens, with the given input
left. -/
structure Apart (rest : List Lexeme) (trees : List Tree) : Prop where
  apart : ∀ tree ∈ trees, tree.kind.isApart = true
  threads : Threads rest trees

variable {input rest : List Lexeme} {left right trees : List Tree}

theorem Threads.append (hleft : Threads input left) (hright : Threads rest right)
    (hreads : Reads input (leavesAll right) rest) : Threads rest (left ++ right) := by
  intro after hafter
  obtain ⟨eof, heof, hmore⟩ := hafter
  refine Tree.strungAll_append.2 ⟨?_, hright after ⟨eof, heof, hmore⟩⟩
  exact hleft _ ⟨eof, heof, hreads.trans hmore⟩

theorem threads_tokens (rest : List Lexeme) (tokens : List Token) :
    Threads rest (tokens.map Tree.ofToken) :=
  fun after _ => Tree.strungAll_map_ofToken after tokens

theorem Threads.tokens_append (tokens : List Token) (h : Threads rest trees) :
    Threads rest (tokens.map Tree.ofToken ++ trees) := fun after hafter =>
  Tree.strungAll_append.2 ⟨Tree.strungAll_map_ofToken _ tokens, h after hafter⟩

theorem Threads.cons_leaf (kind : Kind) (text : String) (h : Threads rest trees) :
    Threads rest (.leaf kind text :: trees) := fun after hafter => ⟨trivial, h after hafter⟩

theorem apart_nil (rest : List Lexeme) : Apart rest [] := ⟨by simp, fun _ _ => trivial⟩

theorem Apart.append (hleft : Apart input left) (hright : Apart rest right)
    (hreads : Reads input (leavesAll right) rest) : Apart rest (left ++ right) :=
  ⟨List.forall_mem_append.2 ⟨hleft.apart, hright.apart⟩,
    hleft.threads.append hright.threads hreads⟩

/-- Behind the end of the file there is nothing. -/
theorem Reads.eq_of_kind_eof {leaves : List (Kind × String)} (h : Reads input leaves rest)
    (heof : Rule.kind input = .eof) (hclean : ∀ lexeme ∈ input.head?, lexeme.lead = []) :
    leaves = [] ∧ rest = input := by
  induction h with
  | done input => exact ⟨rfl, rfl⟩
  | settle lead token rest =>
      obtain rfl : lead = [] := hclean _ rfl
      exact ⟨rfl, rfl⟩
  | take lead rest hkind => exact absurd heof hkind
  | trans _ _ ihfirst ihsecond =>
      obtain ⟨rfl, rfl⟩ := ihfirst heof hclean
      obtain ⟨rfl, rfl⟩ := ihsecond heof hclean
      exact ⟨rfl, rfl⟩

theorem Behind.eq_nil {after : List (Kind × String)} (h : Behind input after)
    (heof : Rule.kind input = .eof) (hclean : ∀ lexeme ∈ input.head?, lexeme.lead = []) :
    after = [] := by
  obtain ⟨eof, -, hreads⟩ := h
  exact (hreads.eq_of_kind_eof heof hclean).1

theorem isBodyPart_of_becomes {kind leaf : Kind} (h : kind.Becomes leaf) :
    leaf.isBodyPart = kind.isBodyPart := by
  cases h with
  | same => rfl
  | keyword hleaf => cases leaf <;> first | rfl | cases hleaf
  | name hkind => cases kind <;> first | rfl | cases hkind

/-- The first leaf behind an input is trivia or the first token of it. -/
theorem Behind.head_isBodyPart {after : List (Kind × String)} (h : Behind input after)
    (hinput : Led input) (hkind : (Rule.kind input).isBodyPart = false) :
    ∀ next ∈ after.head?, next.1.isBodyPart = false := by
  obtain ⟨eof, -, hreads⟩ := h
  obtain ⟨taken, htokens, hstands⟩ := hreads.exists_taken
  intro next hnext
  cases hstands with
  | nil => cases hnext
  | @cons token _ taken leaves hstand _ =>
      obtain rfl := Option.some.inj hnext
      rw [isBodyPart_of_becomes hstand.1]
      cases input with
      | nil => simp at htokens
      | cons lexeme rest =>
          obtain ⟨hlead, -⟩ := hinput lexeme List.mem_cons_self
          obtain ⟨lead, last⟩ := lexeme
          cases lead with
          | nil =>
              obtain ⟨rfl, -⟩ := List.cons.inj htokens
              exact hkind
          | cons first lead =>
              obtain ⟨rfl, -⟩ := List.cons.inj htokens
              have htrivia := hlead _ List.mem_cons_self
              unfold Token.isTrivia at htrivia
              revert htrivia
              generalize first.kind = kind
              cases kind <;> first | (intro _; rfl) | nofun

theorem isApart_of_isTrivia {kind : Kind} (h : kind.isTrivia = true) : kind.isApart = true := by
  cases kind <;> first | rfl | cases h

theorem apart_tokens {tokens : List Token} (rest : List Lexeme)
    (h : ∀ token ∈ tokens, token.kind.isApart = true) : Apart rest (tokens.map Tree.ofToken) :=
  ⟨List.forall_mem_map.2 h, threads_tokens rest tokens⟩

theorem Apart.lead_append {lead : List Token} (h : Apart rest trees)
    (hlead : ∀ token ∈ lead, token.isTrivia = true) :
    Apart rest (lead.map Tree.ofToken ++ trees) :=
  ⟨List.forall_mem_append.2 ⟨List.forall_mem_map.2 fun token hmem =>
    isApart_of_isTrivia (hlead token hmem), h.apart⟩, h.threads.tokens_append lead⟩

end Rule

/-- An outcome that adds trees outside of strings to the given ones, and in which strings and holes
have their own tokens. -/
structure Outcome.Weaves (outcome : Outcome) (left : List Tree) (input : List Lexeme) : Prop where
  spells : outcome.Spells left input
  apart : Rule.Led input → Rule.Apart input left → Rule.Apart outcome.rest outcome.trees

theorem Outcome.Spells.reads {outcome : Outcome} {input : List Lexeme}
    (h : outcome.Spells [] input) : Rule.Reads input (leavesAll outcome.trees) outcome.rest := by
  obtain ⟨leaves, hreads, hleaves⟩ := h
  rwa [hleaves]

namespace Rule

variable {first second body inner : Rule} {input : List Lexeme} {left : List Tree} {kind : Kind}

theorem weaves_keep (left : List Tree) (input : List Lexeme) : (keep left input).Weaves left input :=
  ⟨spells_keep left input, fun _ h => h⟩

theorem weaves_done (input : List Lexeme) : (done input).Weaves [] input := weaves_keep [] input

theorem weaves_report (cause : SyntaxError.Cause) (input : List Lexeme) :
    (report cause input).Weaves [] input :=
  ⟨spells_report cause input, fun _ h => h⟩

theorem weaves_andThen (hfirst : (first input).Weaves left input)
    (hsecond : (second (first input).rest).Weaves [] (first input).rest) :
    ((first ++ second) input).Weaves left input := by
  refine ⟨spells_andThen hfirst.spells hsecond.spells, fun hinput hleft => ?_⟩
  have hrest := hsecond.apart (hfirst.spells.led hinput) (apart_nil _)
  exact (hfirst.apart hinput hleft).append hrest hsecond.spells.reads

theorem weaves_into {next : List Tree → Rule} (hfirst : (first input).Weaves left input)
    (hnext : (next (first input).trees (first input).rest).Weaves (first input).trees
      (first input).rest) : (first.into next input).Weaves left input :=
  ⟨spells_into hfirst.spells hnext.spells, fun hinput hleft =>
    hnext.apart (hfirst.spells.led hinput) (hfirst.apart hinput hleft)⟩

/-- The kinds of nodes that hold nothing of a string but strings. -/
def IsOuter (kind : Kind) : Prop := kind.isApart = true ∧ kind ≠ .string ∧ kind ≠ .error

instance : DecidablePred IsOuter := fun _ => inferInstanceAs (Decidable (_ ∧ _ ∧ _))

theorem IsOuter.holds (h : IsOuter kind) {children : List Tree}
    (hchildren : ∀ tree ∈ children, tree.kind.isApart = true) (after : List (Kind × String)) :
    Holds kind children after := by
  obtain ⟨hapart, hstring, herror⟩ := h
  unfold Holds
  split
  · exact absurd rfl hstring
  · cases hapart
  · trivial
  · exact hchildren

theorem Threads.node {rest : List Lexeme} {children : List Tree} (h : Threads rest children)
    (hholds : ∀ after, Behind rest after → Holds kind children after) :
    Threads rest [.node kind children] :=
  fun after hafter => ⟨⟨hholds after hafter, h after hafter⟩, trivial⟩

theorem Apart.node {rest : List Lexeme} {children : List Tree} (hkind : kind.isApart = true)
    (hholds : ∀ after, Behind rest after → Holds kind children after)
    (hthreads : Threads rest children) : Apart rest [.node kind children] :=
  ⟨List.forall_mem_singleton.2 hkind, hthreads.node hholds⟩

theorem weaves_wrap (hkind : IsOuter kind) (h : (body input).Weaves [] input) :
    (wrap kind left body input).Weaves left input := by
  refine ⟨spells_wrap kind left h.spells, fun hinput hleft => ?_⟩
  have hchildren := hleft.append (h.apart hinput (apart_nil _)) h.spells.reads
  exact Apart.node hkind.1 (fun after _ => hkind.holds hchildren.apart after) hchildren.threads

theorem weaves_settle (input : List Lexeme) : (settle input).Weaves [] input := by
  refine ⟨spells_settle input, fun hinput _ => ?_⟩
  cases input with
  | nil => exact apart_nil _
  | cons lexeme rest =>
      refine apart_tokens _ fun token hmem => isApart_of_isTrivia ?_
      exact (hinput lexeme List.mem_cons_self).1 token hmem

theorem weaves_node (hkind : IsOuter kind)
    (h : (body (settle input).rest).Weaves [] (settle input).rest) :
    (node kind body input).Weaves [] input :=
  weaves_andThen (weaves_settle input) (weaves_wrap hkind h)

theorem weaves_takeAs (hbecomes : (Rule.kind input).Becomes kind) (hkind : kind.isApart = true) :
    (takeAs kind input).Weaves [] input := by
  refine ⟨spells_takeAs hbecomes, fun hinput _ => ?_⟩
  cases input with
  | nil => exact apart_nil _
  | cons lexeme rest =>
      rw [takeAs]
      split
      · exact (weaves_settle _).apart hinput (apart_nil _)
      · have hlead : ∀ token ∈ lexeme.lead, token.kind.isApart = true := fun token hmem =>
          isApart_of_isTrivia ((hinput lexeme List.mem_cons_self).1 token hmem)
        refine ⟨List.forall_mem_append.2 ⟨List.forall_mem_map.2 hlead,
          List.forall_mem_singleton.2 hkind⟩, fun after _ => ?_⟩
        exact Tree.strungAll_append.2 ⟨Tree.strungAll_map_ofToken _ _, trivial, trivial⟩

theorem weaves_take (h : (Rule.kind input).isApart = true) : (take input).Weaves [] input :=
  weaves_takeAs (.same _) h

theorem weaves_ifAt {yes no : Rule}
    (hyes : Rule.kind input = kind → (yes input).Weaves left input)
    (hno : Rule.kind input ≠ kind → (no input).Weaves left input) :
    (ifAt kind yes no input).Weaves left input := by
  unfold ifAt
  split
  · exact hyes ‹_›
  · exact hno ‹_›

theorem weaves_unlessAt (kinds : List Kind) (h : (inner input).Weaves [] input) :
    (unlessAt kinds inner input).Weaves [] input := by
  unfold unlessAt
  split
  · exact weaves_done input
  · exact h

theorem weaves_absent (expected : Expected) (input : List Lexeme) :
    (absent expected input).Weaves [] input :=
  weaves_andThen (weaves_report _ input) (weaves_node (by decide) (weaves_done _))

theorem weaves_expect (hkind : kind.isApart = true) (input : List Lexeme) :
    (expect kind input).Weaves [] input :=
  weaves_ifAt (fun h => weaves_take (h ▸ hkind)) fun _ => weaves_absent _ input

theorem weaves_takeNewlines (input : List Lexeme) : (takeNewlines input).Weaves [] input := by
  refine ⟨spells_takeNewlines input, fun hinput _ => ?_⟩
  obtain ⟨tokens, htrees, htokens⟩ := exists_tokens_takeNewlines hinput
  rw [htrees]
  refine apart_tokens _ fun token hmem => ?_
  rcases htokens token hmem with htrivia | hline
  · exact isApart_of_isTrivia htrivia
  · rw [hline]
    rfl

theorem weaves_takeNewlinesBefore (wanted : Kind) (input : List Lexeme) :
    (takeNewlinesBefore wanted input).Weaves [] input := by
  unfold takeNewlinesBefore
  split
  · exact weaves_takeNewlines input
  · exact weaves_done input

/-- Error nodes hold tokens of every kind, and nothing but tokens. -/
theorem weaves_error (hspells : ∀ input, (body input).Spells [] input)
    (hflat : body.IsFlat) (input : List Lexeme) : (node .error body input).Weaves [] input := by
  refine weaves_andThen (weaves_settle input) ⟨spells_wrap .error [] (hspells _), fun _ _ => ?_⟩
  obtain ⟨tokens, heq⟩ := hflat (settle input).rest
  refine Apart.node rfl (fun _ _ => trivial) ?_
  rw [heq]
  exact threads_tokens _ tokens

theorem weaves_skipTo (stop : List Kind) (cause : SyntaxError.Cause) (input : List Lexeme) :
    (skipTo stop cause input).Weaves [] input :=
  weaves_andThen (weaves_report cause input) (weaves_unlessAt _
    (weaves_error (spells_takeUntil stop) (isFlat_takeUntil stop) _))

theorem weaves_tooDeep (input : List Lexeme) : (tooDeep input).Weaves [] input :=
  weaves_andThen (weaves_skipTo _ _ input) (weaves_node (by decide) (weaves_done _))

theorem weaves_loop {choose : List Lexeme → Step}
    (h : ∀ input, ((choose input).rule input).Weaves [] input) (input : List Lexeme) :
    (loop choose input).Weaves [] input :=
  loop_of_rounds (p := fun input outcome => outcome.Weaves [] input) weaves_done
    weaves_andThen h input

/-! Strings -/

/-- What is read between the token that opens a hole and the one that closes it. -/
def inHole (expr : Rule) : Rule :=
  takeNewlines ++ (expr ++ (takeNewlines ++
    unlessAt [.interpEnd, .eof] (report .strayInHole ++ node .error (takeStray 0))))

theorem interpolation_eq (expr : Rule) :
    interpolation expr = node .interpolation (take ++ (inHole expr ++ expect .interpEnd)) := by
  simp only [interpolation, inHole, andThen_assoc]

theorem kind_rest_inHole (expr : Rule) (input : List Lexeme) :
    Rule.kind (inHole expr input).rest = .interpEnd ∨
      Rule.kind (inHole expr input).rest = .eof := by
  rw [inHole, andThen_apply, andThen_apply, andThen_apply]
  generalize (takeNewlines (expr (takeNewlines input).rest).rest).rest = input
  change Rule.kind (unlessAt _ _ input).rest = _ ∨ Rule.kind (unlessAt _ _ input).rest = _
  unfold unlessAt
  split
  · rename_i hkind
    have hends : Rule.kind input = .interpEnd ∨ Rule.kind input = .eof := by simpa using hkind
    exact hends
  · have hends := kind_takeStray 0 (settle input).rest
    rwa [List.mem_cons, List.mem_singleton] at hends

/-- The trees that a string takes behind its quote: what stands in its body, and the quote that
closes it unless something else comes. -/
def Fills (rest : List Lexeme) (trees : List Tree) : Prop :=
  ∃ body, (∀ tree ∈ body, tree.IsBody) ∧
    ((∃ closing, trees = body ++ [.leaf .stringEnd closing]) ∨
      trees = body ∧ (Rule.kind rest).isBodyPart = false)

theorem Fills.append {rest : List Lexeme} {left right : List Tree} (hright : Fills rest right)
    (hleft : ∀ tree ∈ left, tree.IsBody) : Fills rest (left ++ right) := by
  obtain ⟨body, hbody, hend⟩ := hright
  refine ⟨left ++ body, List.forall_mem_append.2 ⟨hleft, hbody⟩, ?_⟩
  rcases hend with ⟨closing, rfl⟩ | ⟨rfl, hkind⟩
  · exact .inl ⟨closing, by simp⟩
  · exact .inr ⟨rfl, hkind⟩

theorem isBody_lead {lead : List Token} (h : ∀ token ∈ lead, token.isTrivia = true) :
    ∀ tree ∈ lead.map Tree.ofToken, tree.IsBody :=
  List.forall_mem_map.2 fun token hmem => .inl (h token hmem)

theorem take_of_kind {lexeme : Lexeme} (h : lexeme.kind = kind) (heof : kind ≠ .eof)
    (rest : List Lexeme) :
    take (lexeme :: rest) =
      ⟨lexeme.lead.map Tree.ofToken ++ [.leaf kind lexeme.token.text], [], rest⟩ := by
  rw [take, kind_cons, h, takeAs, if_neg (by rwa [h])]

/-- The token that closes a hole is taken where it stands, and it is missed at the end of the text
alone. -/
theorem exists_expect_interpEnd (hinput : Led input)
    (hends : Rule.kind input = .interpEnd ∨ Rule.kind input = .eof) :
    ∃ (lead : List Token) (last : Tree),
      (expect .interpEnd input).trees = lead.map Tree.ofToken ++ [last] ∧
      (∀ token ∈ lead, token.isTrivia = true) ∧ Threads (expect .interpEnd input).rest [last] ∧
      ((∃ closing, last = .leaf .interpEnd closing) ∨ last = .node .missing [] ∧
        ∀ after, Behind (expect .interpEnd input).rest after → after = []) := by
  have hlead : ∀ lexeme ∈ input.head?, ∀ token ∈ lexeme.lead, token.isTrivia = true :=
    fun lexeme hmem => (hinput lexeme (List.mem_of_head? hmem)).1
  unfold expect ifAt
  split
  · rename_i hkind
    cases input with
    | nil => cases hkind
    | cons lexeme rest =>
        rw [take_of_kind hkind (by decide)]
        exact ⟨lexeme.lead, _, rfl, hlead lexeme rfl, fun _ _ => ⟨trivial, trivial⟩,
          .inl ⟨_, rfl⟩⟩
  · rename_i hkind
    have heof := hends.resolve_left hkind
    have hmissing : Threads (settle input).rest [.node .missing []] := fun _ _ =>
      ⟨⟨by simp [Holds], trivial⟩, trivial⟩
    refine ⟨input.head?.elim [] Lexeme.lead, .node .missing [], ?_, ?_, hmissing, .inr ⟨rfl, ?_⟩⟩
    · cases input <;> rfl
    · cases input with
      | nil => simp
      | cons lexeme rest => exact hlead lexeme rfl
    · intro after hafter
      have hbehind : Behind (settle input).rest after := hafter
      refine hbehind.eq_nil (by rwa [kind_settle]) ?_
      cases input with
      | nil => simp [settle]
      | cons lexeme rest => simp [settle]

section Expr

variable {expr : Rule} (hexpr : ∀ input, (expr input).Weaves [] input)

include hexpr

theorem weaves_inHole (input : List Lexeme) : (inHole expr input).Weaves [] input :=
  weaves_andThen (weaves_takeNewlines _) (weaves_andThen (hexpr _)
    (weaves_andThen (weaves_takeNewlines _) (weaves_unlessAt _
      (weaves_andThen (weaves_report _ _)
        (weaves_error (spells_takeStray 0) (isFlat_takeStray 0) _)))))

/-- A hole takes the token that closes it unless the text ends. -/
theorem threads_interpolation (hinput : Led input) (hstart : Rule.kind input = .interpStart) :
    (∃ (lead : List Token) (children : List Tree),
      (interpolation expr input).trees =
        lead.map Tree.ofToken ++ [.node .interpolation children] ∧
      ∀ token ∈ lead, token.isTrivia = true) ∧
    Threads (interpolation expr input).rest (interpolation expr input).trees := by
  obtain ⟨lexeme, rest, rfl⟩ : ∃ lexeme rest, input = lexeme :: rest := by
    cases input with
    | nil => cases hstart
    | cons lexeme rest => exact ⟨lexeme, rest, rfl⟩
  have hopening : (Lexeme.mk [] lexeme.token).kind = .interpStart := hstart
  have htake := take_of_kind hopening (by decide) rest
  have hinside := (weaves_inHole hexpr rest).apart hinput.tail (apart_nil _)
  have hled := (weaves_inHole hexpr rest).spells.led hinput.tail
  obtain ⟨lead, last, htrees, hlead, hlast, hclosing⟩ :=
    exists_expect_interpEnd hled (kind_rest_inHole expr rest)
  have hreads := (spells_expect .interpEnd (inHole expr rest).rest).reads
  rw [interpolation_eq, node, andThen_apply, settle, wrap, andThen_apply, htake]
  dsimp only
  rw [andThen_apply]
  dsimp only
  rw [htrees] at hreads ⊢
  refine ⟨⟨lexeme.lead, _, rfl, (hinput lexeme List.mem_cons_self).1⟩, ?_⟩
  have hchildren := (hinside.threads.append (hlast.tokens_append lead) hreads).cons_leaf
    .interpStart lexeme.token.text
  refine (hchildren.node fun after hafter => ?_).tokens_append lexeme.lead
  refine ⟨lexeme.token.text, (inHole expr rest).trees ++ lead.map Tree.ofToken, ?_, ?_⟩
  · refine List.forall_mem_append.2 ⟨hinside.apart, List.forall_mem_map.2 fun token hmem => ?_⟩
    exact isApart_of_isTrivia (hlead token hmem)
  · rcases hclosing with ⟨closing, rfl⟩ | ⟨rfl, hnone⟩
    · exact .inl ⟨closing, by simp⟩
    · exact .inr ⟨by simp, hnone after hafter⟩

/-- A round of a string that another one follows takes a part of the body. -/
theorem fills_round (hinput : Led input) (hchoose : stringStep expr input = .again inner) :
    (∀ tree ∈ (inner input).trees, tree.IsBody) ∧ Threads (inner input).rest (inner input).trees := by
  cases stringRound_of_eq hchoose with
  | text hkind =>
      cases input with
      | nil => cases hkind
      | cons lexeme rest =>
          rw [take_of_kind hkind (by decide)]
          refine ⟨List.forall_mem_append.2 ⟨isBody_lead (hinput lexeme List.mem_cons_self).1, ?_⟩, ?_⟩
          · exact List.forall_mem_singleton.2 (.inr rfl)
          · exact Threads.tokens_append lexeme.lead fun _ _ => ⟨trivial, trivial⟩
  | hole hkind =>
      obtain ⟨⟨lead, children, htrees, hlead⟩, hthreads⟩ := threads_interpolation hexpr hinput hkind
      refine ⟨?_, hthreads⟩
      rw [htrees]
      exact List.forall_mem_append.2 ⟨isBody_lead hlead, List.forall_mem_singleton.2 rfl⟩

omit hexpr in
theorem fills_last (hinput : Led input) (hchoose : stringStep expr input = .last inner) :
    Fills (inner input).rest (inner input).trees ∧ Threads (inner input).rest (inner input).trees := by
  cases stringRound_of_eq hchoose with
  | close hkind =>
      cases input with
      | nil => cases hkind
      | cons lexeme rest =>
          rw [take_of_kind hkind (by decide)]
          refine ⟨⟨_, isBody_lead (hinput lexeme List.mem_cons_self).1, .inl ⟨_, rfl⟩⟩, ?_⟩
          exact Threads.tokens_append lexeme.lead fun _ _ => ⟨trivial, trivial⟩
  | unclosed htext hstart hend =>
      refine ⟨⟨[], by simp, .inr ⟨rfl, ?_⟩⟩, fun _ _ => trivial⟩
      change (Rule.kind input).isBodyPart = false
      generalize Rule.kind input = kind at *
      cases kind <;> first | rfl | contradiction

theorem fills_loop (input : List Lexeme) : Led input →
    Fills (loop (stringStep expr) input).rest (loop (stringStep expr) input).trees ∧
      Threads (loop (stringStep expr) input).rest (loop (stringStep expr) input).trees := by
  have hspells := fun input => (hexpr input).spells
  have hprogress := progresses_stringStep hspells
  induction input using loop_induction hprogress with
  | last input inner hchoose =>
      intro hinput
      rw [loop_of_last hprogress hchoose]
      exact fills_last hinput hchoose
  | again input inner hchoose ih =>
      intro hinput
      have hround := spells_stringStep hspells input
      rw [hchoose] at hround
      obtain ⟨hbody, hthreads⟩ := fills_round hexpr hinput hchoose
      obtain ⟨hfills, hmore⟩ := ih (hround.led hinput)
      rw [loop_of_again hprogress hchoose, andThen_apply]
      exact ⟨hfills.append hbody, hthreads.append hmore
        (spells_loop (spells_stringStep hspells) _).reads⟩

theorem weaves_string (h : Rule.kind input = .stringStart) :
    (string expr input).Weaves [] input := by
  refine ⟨spells_string (fun input => (hexpr input).spells) input, fun hinput _ => ?_⟩
  cases input with
  | nil => cases h
  | cons lexeme rest =>
      have hquote : (Lexeme.mk [] lexeme.token).kind = .stringStart := h
      have htake := take_of_kind hquote (by decide) rest
      obtain ⟨⟨body, hbody, hend⟩, hthreads⟩ := fills_loop hexpr rest hinput.tail
      have hled := (spells_loop (spells_stringStep fun input => (hexpr input).spells) rest).led
        hinput.tail
      rw [string, node, andThen_apply, settle, wrap, andThen_apply, htake]
      dsimp only
      have hholds : ∀ after, Behind (loop (stringStep expr) rest).rest after →
          Holds .string (.leaf .stringStart lexeme.token.text ::
            (loop (stringStep expr) rest).trees) after := by
        intro after hafter
        refine ⟨lexeme.token.text, body, hbody, ?_⟩
        rcases hend with ⟨closing, heq⟩ | ⟨heq, hkind⟩
        · exact .inl ⟨closing, by rw [heq]⟩
        · exact .inr ⟨by rw [heq], hafter.head_isBodyPart hled hkind⟩
      have hstring := Apart.node rfl hholds (hthreads.cons_leaf .stringStart lexeme.token.text)
      exact hstring.lead_append (hinput lexeme List.mem_cons_self).1

/-! The rules in brackets -/

theorem weaves_property (hword : startsProperty (Rule.kind input) = true) :
    (property expr input).Weaves [] input := by
  rw [← kind_settle] at hword
  refine weaves_node (by decide) (weaves_andThen (weaves_andThen (weaves_node (by decide) ?_) ?_)
    (weaves_unlessAt _ (weaves_skipTo _ _ _)))
  · rw [← kind_settle] at hword
    refine weaves_ifAt (weaves_string hexpr) fun hquote => weaves_takeAs (.name ?_) rfl
    simp only [startsProperty, Bool.or_eq_true, decide_eq_true_eq] at hword
    exact hword.resolve_right hquote
  · exact weaves_ifAt (fun hcolon => weaves_andThen (weaves_take (by rw [hcolon]; rfl)) (hexpr _))
      fun _ => weaves_andThen (weaves_absent _ _) (weaves_unlessAt _ (hexpr _))

omit hexpr in
theorem weaves_list {tag close : Kind} {startsItem : Kind → Bool} {item : Rule}
    {cause : SyntaxError.Cause} (htag : IsOuter tag) (hclose : close.isApart = true)
    (hitem : ∀ input, startsItem (Rule.kind input) = true → (item input).Weaves [] input)
    (hopening : (Rule.kind input).isApart = true) :
    (list tag close startsItem item cause input).Weaves [] input := by
  refine weaves_node htag (weaves_andThen (weaves_take (by rwa [kind_settle]))
    (weaves_loop (fun input => ?_) _))
  generalize hstep : listStep close startsItem item cause input = step
  cases listRound_of_eq hstep with
  | newline hkind | comma hkind => exact weaves_take (by rw [hkind]; rfl)
  | close _ hkind => exact weaves_take (hkind ▸ hclose)
  | unclosed => exact weaves_absent _ input
  | item _ hstart => exact hitem input hstart
  | stray => exact weaves_skipTo _ _ input

theorem weaves_arguments (hopening : (Rule.kind input).isApart = true) :
    (arguments expr input).Weaves [] input :=
  weaves_list (by decide) rfl (fun input _ => hexpr input) hopening

theorem weaves_forExpr (hbracket : Rule.kind input = .lBrack)
    (hfor : isWordAt input.tail "for" = true) : (forExpr expr input).Weaves [] input := by
  have hvariable : ∀ input, (loopVariable input).Weaves [] input := by
    intro input
    unfold loopVariable
    split
    · rename_i hword
      simp only [Bool.and_eq_true, decide_eq_true_eq] at hword
      exact weaves_node (by decide) (weaves_take (by rw [kind_settle, hword.1]; rfl))
    · exact weaves_absent _ input
  have hin : ∀ input, (inKeyword input).Weaves [] input := by
    intro input
    unfold inKeyword
    split
    · exact weaves_takeAs (kind_eq_of_isWordAt ‹_› ▸ .keyword rfl) rfl
    · exact weaves_absent _ input
  refine weaves_node (by decide) (weaves_andThen (weaves_andThen (weaves_andThen (weaves_andThen
    (weaves_andThen (weaves_andThen (weaves_andThen (weaves_andThen (weaves_andThen (weaves_andThen
    (weaves_take (by rw [kind_settle, hbracket]; rfl)) (weaves_takeAs ?_ rfl)) (hvariable _))
    (hin _)) (hexpr _)) (weaves_expect rfl _)) (weaves_takeNewlines _)) (hexpr _))
    (weaves_unlessAt _ (weaves_skipTo _ _ _))) (weaves_takeNewlinesBefore _ _)) (weaves_expect rfl _))
  rw [kind_eq_of_isWordAt (isWordAt_rest_take hbracket hfor)]
  exact .keyword rfl

theorem weaves_primary (input : List Lexeme) : (primary expr input).Weaves [] input := by
  have hliteral : ∀ kind ∈ literalKinds, kind.isApart = true := by decide
  obtain ⟨rule, hrule, heq⟩ := exists_primary expr input
  rw [heq]
  cases hrule with
  | literal hkind =>
      exact weaves_node (by decide) (weaves_take (by rw [kind_settle]; exact hliteral _ hkind))
  | string hkind => exact weaves_string hexpr hkind
  | object hkind =>
      exact weaves_list (by decide) rfl (fun _ hword => weaves_property hexpr hword)
        (by rw [hkind]; rfl)
  | loop hkind hfor => exact weaves_forExpr hexpr hkind hfor
  | array hkind =>
      exact weaves_list (by decide) rfl (fun _ _ => weaves_node (by decide) (hexpr _))
        (by rw [hkind]; rfl)
  | paren hkind =>
      exact weaves_node (by decide) (weaves_andThen (weaves_andThen (weaves_andThen
        (weaves_andThen (weaves_take (by rw [kind_settle, hkind]; rfl)) (weaves_takeNewlines _))
        (hexpr _)) (weaves_takeNewlinesBefore _ _)) (weaves_expect rfl _))
  | word hword =>
      exact weaves_node (by decide) (weaves_takeAs (by rw [kind_settle]; exact .name hword) rfl)
  | absent => exact weaves_absent _ input

end Expr

/-- The rules of a level keep strings together, and chains go on from trees outside of strings. -/
structure Level.Weaves (level : Level) : Prop where
  expr : ∀ input, (level.expr input).Weaves [] input
  unary : ∀ input, (level.unary input).Weaves [] input
  links : ∀ receiver input, (level.links receiver input).Weaves receiver input
  operators : ∀ least left input, (level.operators least left input).Weaves left input

namespace Level

variable {level : Level}

theorem Weaves.binary (h : level.Weaves) (least : Nat) (input : List Lexeme) :
    (level.binary least input).Weaves [] input :=
  weaves_andThen (weaves_settle input) (weaves_into (h.unary _) (h.operators _ _ _))

theorem Weaves.chain (h : level.Weaves) (input : List Lexeme) :
    (level.chain input).Weaves [] input :=
  weaves_andThen (weaves_settle input) (weaves_into (weaves_primary h.expr _) (h.links _ _))

theorem Weaves.ternary (h : level.Weaves) (input : List Lexeme) :
    (level.ternary input).Weaves [] input := by
  rw [ternary_eq]
  refine weaves_andThen (weaves_settle input) (weaves_into (h.binary 1 _) ?_)
  refine weaves_ifAt (fun hquestion => weaves_wrap (by decide) ?_) fun _ => weaves_keep _ _
  exact weaves_andThen (weaves_andThen (weaves_andThen (weaves_take (by rw [hquestion]; rfl))
    (h.expr _)) (weaves_expect rfl _)) (h.expr _)

theorem Weaves.link (h : level.Weaves) (receiver : List Tree)
    (hstart : startsLink (Rule.kind input) = true) :
    (level.link receiver input).Weaves receiver input := by
  have hmember : ∀ input, (member input).Weaves [] input := by
    intro input
    unfold member
    split
    · exact weaves_takeAs (.name ‹_›) rfl
    · exact weaves_absent _ input
  have hkind : (Rule.kind input).isApart = true := by
    generalize Rule.kind input = kind at hstart
    cases kind <;> first | rfl | cases hstart
  unfold Level.link
  split
  · exact weaves_wrap (by decide) (weaves_andThen (weaves_take hkind) (hmember _))
  · exact weaves_wrap (by decide) (weaves_andThen (weaves_andThen (weaves_take hkind) (h.expr _))
      (weaves_expect rfl _))
  · exact weaves_wrap (by decide) (weaves_arguments h.expr hkind)

theorem weaves_above {below : Option Level} (h : ∀ level ∈ below, level.Weaves) :
    (above below).Weaves := by
  have hexpr : ∀ input, ((above below).expr input).Weaves [] input := by
    intro input
    cases below with
    | none => exact weaves_tooDeep input
    | some level => exact (h level rfl).ternary input
  have hlinks : ∀ receiver input, ((above below).links receiver input).Weaves receiver input := by
    intro receiver input
    rw [links_above]
    split
    · cases below with
      | none => exact weaves_andThen (weaves_keep _ _) (weaves_tooDeep _)
      | some level => exact weaves_into ((h level rfl).link _ ‹_›) ((h level rfl).links _ _)
    · exact weaves_keep _ _
  refine ⟨hexpr, fun input => ?_, hlinks, fun least left input => ?_⟩
  · rw [unary_above]
    split
    · rename_i hkind
      cases below with
      | none => exact weaves_tooDeep input
      | some level =>
          refine weaves_node (by decide) (weaves_andThen (weaves_take ?_) ((h level rfl).unary _))
          rw [kind_settle]
          rcases hkind with hkind | hkind <;> rw [hkind] <;> rfl
    · exact weaves_andThen (weaves_settle input) (weaves_into (weaves_primary hexpr _) (hlinks _ _))
  · rw [operators_above]
    split
    · exact weaves_keep _ _
    · rename_i precedence hprecedence
      split
      · exact weaves_keep _ _
      · cases below with
        | none => exact weaves_andThen (weaves_keep _ _) (weaves_tooDeep _)
        | some level =>
            refine weaves_into (weaves_wrap (by decide) (weaves_andThen (weaves_take ?_)
              ((h level rfl).binary _ _))) ((h level rfl).operators _ _ _)
            generalize Rule.kind input = kind at hprecedence
            cases kind <;> first | rfl | cases hprecedence

end Level

theorem weaves_level (budget : Nat) : (level budget).Weaves :=
  level_induction (fun _ hbelow _ => Level.weaves_above hbelow) budget

/-! The rules of documents -/

theorem weaves_expr (input : List Lexeme) : (expr input).Weaves [] input :=
  (weaves_level maxDepth).expr input

theorem weaves_decorator (hat : Rule.kind input = .atSign) : (decorator input).Weaves [] input :=
  weaves_andThen (weaves_node (by decide) (weaves_andThen
    (weaves_take (by rw [kind_settle, hat]; rfl)) (weaves_ifAt
    (fun _ => (weaves_level maxDepth).chain _) fun _ => weaves_absent _ _)))
    (weaves_unlessAt _ (weaves_skipTo _ _ _))

theorem weaves_header (kind : Kind) (input : List Lexeme) : (header kind input).Weaves [] input := by
  have hident : ∀ {tag : Kind} {expected : Expected}, IsOuter tag →
      ∀ input, (ifAt .ident (node tag take) (absent expected) input).Weaves [] input :=
    fun htag input => weaves_ifAt (fun hkind => weaves_node htag (weaves_take
      (by rw [kind_settle, hkind]; rfl))) fun _ => weaves_absent _ _
  have hquoted : ∀ {tag : Kind} {expected : Expected}, IsOuter tag →
      ∀ input, (quoted tag expected input).Weaves [] input :=
    fun htag input => weaves_ifAt (fun hkind => weaves_node htag (weaves_string weaves_expr
      (by rwa [kind_settle]))) fun _ => weaves_absent _ _
  refine header_induction (motive := fun rule => ∀ input, (rule input).Weaves [] input)
    (fun hpart input => ?_) (fun hfirst hsecond input => weaves_andThen (hfirst input) (hsecond _))
    input
  cases hpart with
  | name | typeName => exact hident (by decide) input
  | resourceType | modulePath => exact hquoted (by decide) input
  | existing =>
      unfold existing
      split
      · exact weaves_takeAs (kind_eq_of_isWordAt ‹_› ▸ .keyword rfl) rfl
      · exact weaves_done input
  | equals => exact weaves_expect rfl input
  | value => exact weaves_expr input
  | default =>
      exact weaves_ifAt (fun hkind => weaves_andThen (weaves_take (by rw [hkind]; rfl))
        (weaves_expr _)) fun _ => weaves_done _
  | done => exact weaves_done input

theorem weaves_undecorated (decorators : List Tree) (input : List Lexeme) :
    (undecorated decorators input).Weaves decorators input := by
  have hend : ∀ input, (endDeclaration input).Weaves [] input := by
    intro input
    unfold endDeclaration
    split
    · exact weaves_done input
    · exact weaves_unlessAt _ (weaves_skipTo _ _ _)
  obtain ⟨rule, hrule, heq⟩ := exists_undecorated decorators input
  rw [heq]
  cases hrule with
  | @declaration tag keyword _ hident hkeyword hdeclaration =>
      have htag : IsOuter tag := by
        cases tag <;> first | decide | cases hdeclaration
      have hapart : keyword.isApart = true := by
        cases keyword <;> first | rfl | cases hkeyword
      exact weaves_andThen (weaves_wrap htag (weaves_andThen
        (weaves_takeAs (hident ▸ .keyword hkeyword) hapart) (weaves_header _ _))) (hend _)
  | alone => exact weaves_keep _ _
  | stray => exact weaves_andThen (weaves_keep _ _) (weaves_skipTo _ _ _)

theorem weaves_declaration (input : List Lexeme) : (declaration input).Weaves [] input := by
  refine weaves_andThen (weaves_settle input) (weaves_into (weaves_loop (fun input => ?_) _)
    (weaves_undecorated _ _))
  generalize hstep : decoratorStep input = step
  cases decoratorRound_of_eq hstep with
  | decorator hkind => exact weaves_andThen (weaves_decorator hkind) (weaves_takeNewlines _)
  | done => exact weaves_done input

theorem weaves_document (input : List Lexeme) : (document input).Weaves [] input := by
  refine weaves_wrap (by decide) (weaves_loop (fun input => ?_) input)
  generalize hstep : documentStep input = step
  cases documentRound_of_eq hstep with
  | fileEnd => exact weaves_settle input
  | newline hkind => exact weaves_take (by rw [hkind]; rfl)
  | declaration => exact weaves_declaration input

end Rule

end Caret
