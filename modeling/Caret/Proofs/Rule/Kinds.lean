import Caret.Proofs.Rule.Covered

/-!
# The kinds of the trees that a rule leaves

Which kinds the trees of a rule have follows from the rules it is made of: trivia, the kinds its tokens
are tagged with, and those of its nodes. Each property of kinds that trivia have is kept in this way.
-/

namespace Caret

namespace Rule

variable {p : Kind → Prop} {first second body : Rule} {input : List Lexeme}

/-- A rule whose trees are of certain kinds. -/
def Only (p : Kind → Prop) (rule : Rule) : Prop :=
  ∀ input, Led input → (∀ tree ∈ (rule input).trees, p tree.kind) ∧ Led (rule input).rest

theorem Only.andThen (hfirst : first.Only p) (hsecond : second.Only p) :
    (first ++ second).Only p := by
  intro input hinput
  obtain ⟨htrees, hrest⟩ := hfirst input hinput
  obtain ⟨htrees', hrest'⟩ := hsecond _ hrest
  refine ⟨fun tree hmem => ?_, hrest'⟩
  rcases List.mem_append.1 hmem with hmem | hmem
  · exact htrees tree hmem
  · exact htrees' tree hmem

theorem only_done : done.Only p := fun _ hinput => ⟨by simp [done], hinput⟩

theorem Covered.only (h : body.Covered) (hspells : ∀ input, (body input).Spells [] input)
    (hkinds : ∀ kind, kind.isTrivia = true ∨ kind.isToken = false → p kind) : body.Only p := by
  refine fun input hinput => ⟨fun tree hmem => hkinds _ ?_, (hspells input).led hinput⟩
  have hcovered := h input hinput tree hmem
  cases tree with
  | leaf kind text => exact .inl hcovered
  | node kind children => exact .inr hcovered

theorem only_settle (htrivia : ∀ kind, kind.isTrivia = true → p kind) : settle.Only p := by
  refine fun input hinput => ⟨fun tree hmem => ?_, (spells_settle input).led hinput⟩
  cases input with
  | nil => simp [settle] at hmem
  | cons lexeme rest =>
      obtain ⟨token, htoken, rfl⟩ := List.mem_map.1 hmem
      exact htrivia _ ((hinput lexeme List.mem_cons_self).1 token htoken)

theorem only_takeAs {tag : Kind} (htrivia : ∀ kind, kind.isTrivia = true → p kind)
    (htag : p tag) (hinput : Led input) :
    ∀ tree ∈ (takeAs tag input).trees, p tree.kind := by
  intro tree hmem
  cases input with
  | nil => simp [takeAs] at hmem
  | cons lexeme rest =>
      rw [takeAs] at hmem
      split at hmem
      · exact (only_settle htrivia _ hinput).1 tree hmem
      · rcases List.mem_append.1 hmem with hmem | hmem
        · obtain ⟨token, htoken, rfl⟩ := List.mem_map.1 hmem
          exact htrivia _ ((hinput lexeme List.mem_cons_self).1 token htoken)
        · obtain rfl := List.mem_singleton.1 hmem
          exact htag

theorem only_node {tag : Kind} (htrivia : ∀ kind, kind.isTrivia = true → p kind)
    (hspells : ∀ input, (node tag body input).Spells [] input) (htag : p tag) :
    (node tag body).Only p := by
  refine fun input hinput => ⟨fun tree hmem => ?_, (hspells input).led hinput⟩
  rcases List.mem_append.1 hmem with hmem | hmem
  · exact (only_settle htrivia input hinput).1 tree hmem
  · obtain rfl := List.mem_singleton.1 hmem
    exact htag

theorem only_takeNewlines (htrivia : ∀ kind, kind.isTrivia = true → p kind)
    (hline : p .newline) : takeNewlines.Only p := by
  refine fun input hinput => ⟨?_, (spells_takeNewlines input).led hinput⟩
  obtain ⟨tokens, htrees, htokens⟩ := exists_tokens_takeNewlines hinput
  rw [htrees]
  refine List.forall_mem_map.2 fun token hmem => ?_
  change p token.kind
  rcases htokens token hmem with hkind | hkind
  · exact htrivia _ hkind
  · rwa [hkind]

theorem only_ifAt {wanted : Kind} {yes no : Rule} (hinput : Led input)
    (hyes : kind input = wanted → (∀ tree ∈ (yes input).trees, p tree.kind) ∧ Led (yes input).rest)
    (hno : no.Only p) :
    (∀ tree ∈ (ifAt wanted yes no input).trees, p tree.kind) ∧
      Led (ifAt wanted yes no input).rest := by
  unfold ifAt
  split
  · exact hyes ‹_›
  · exact hno input hinput

theorem Only.unlessAt (h : body.Only p) (kinds : List Kind) : (unlessAt kinds body).Only p := by
  intro input hinput
  unfold Rule.unlessAt
  split
  · exact only_done input hinput
  · exact h input hinput

theorem only_report (cause : SyntaxError.Cause) : (report cause).Only p :=
  fun _ hinput => ⟨by simp [report], hinput⟩

theorem only_skipTo (stop : List Kind) (cause : SyntaxError.Cause)
    (htrivia : ∀ kind, kind.isTrivia = true → p kind) (herror : p .error) :
    (skipTo stop cause).Only p :=
  (only_report cause).andThen ((only_node htrivia (fun _ => spells_node _ (spells_takeUntil _ _))
    herror).unlessAt _)

theorem only_absent (expected : Expected) (htrivia : ∀ kind, kind.isTrivia = true → p kind)
    (hmissing : p .missing) : (absent expected).Only p :=
  fun input hinput => (only_report _).andThen
    (only_node htrivia (fun _ => spells_node _ (spells_done _)) hmissing) input hinput

theorem only_loop {choose : List Lexeme → Step}
    (h : ∀ input, Led input → (∀ tree ∈ ((choose input).rule input).trees, p tree.kind) ∧
      Led ((choose input).rule input).rest) : (loop choose).Only p := by
  refine loop_of_rounds (p := fun input outcome => Led input →
    (∀ tree ∈ outcome.trees, p tree.kind) ∧ Led outcome.rest) only_done ?_ h
  intro first second input hfirst hsecond hinput
  obtain ⟨htrees, hrest⟩ := hfirst hinput
  obtain ⟨htrees', hrest'⟩ := hsecond hrest
  exact ⟨List.forall_mem_append.2 ⟨htrees, htrees'⟩, hrest'⟩

theorem only_expect {wanted : Kind} (htrivia : ∀ kind, kind.isTrivia = true → p kind)
    (hmissing : p .missing) (hwanted : p wanted) : (expect wanted).Only p :=
  fun input hinput => only_ifAt hinput
    (fun hkind => ⟨only_takeAs htrivia (hkind ▸ hwanted) hinput, (spells_take input).led hinput⟩)
    (only_absent _ htrivia hmissing)

theorem ne_of_isTrivia {kind other : Kind} (hother : other.isTrivia = false)
    (h : kind.isTrivia = true) : kind ≠ other := by
  rintro rfl
  rw [hother] at h
  cases h

end Rule

end Caret
