import Caret.Proofs.Rule.Seals

/-!
# What goes on behind the lines

A rule is read on some lines with the end of the file behind them, and on the same lines with a
declaration there. It does the same on both as long as there are lines left. Once they are used up,
it stops in both, or it takes tokens of the declaration, and which of the two it is can be told from
the trees that it leaves in front of the end of the file.
-/

namespace Caret

namespace Tree

/-- Whether a node goes on with tokens that come behind the last one in it, whatever they are: after
the value of a property, the body of a loop and the arguments of a decorator everything up to the
end of the line is an error, and a parenthesis or a choice that misses its last expression takes the
next word for that. -/
def goesOn (kind : Kind) (children : List Tree) : Bool :=
  match kind with
  | .objectProperty | .forExpr | .decorator => true
  | .parenExpr | .ternaryExpr => [Kind.missing, .missing].isSuffixOf (children.map Tree.kind)
  | _ => false

mutual

/-- Whether one of the nodes around the last token goes on behind it. -/
def swallows : Tree → Bool
  | leaf _ _ => false
  | node kind children => goesOn kind children || swallowsAll children

def swallowsAll : List Tree → Bool
  | [] => false
  | tree :: trees => if (leavesAll trees).isEmpty then tree.swallows else swallowsAll trees

end

variable {left right trees : List Tree}

theorem swallowsAll_append_of_leaves (left : List Tree) (h : leavesAll right ≠ []) :
    swallowsAll (left ++ right) = swallowsAll right := by
  induction left with
  | nil => rfl
  | cons tree trees ih =>
      have hne : leavesAll (trees ++ right) ≠ [] := by simp [leavesAll_append, h]
      simp [swallowsAll, hne, ih]

theorem swallowsAll_append_of_bare (hleft : leavesAll left ≠ []) (h : leavesAll right = []) :
    swallowsAll (left ++ right) = swallowsAll left := by
  induction left with
  | nil => exact absurd rfl hleft
  | cons tree trees ih =>
      have hiff : leavesAll (trees ++ right) = leavesAll trees := by simp [leavesAll_append, h]
      rw [List.cons_append, swallowsAll, swallowsAll, hiff]
      split
      · rfl
      · exact ih (by simpa using ‹¬(leavesAll trees).isEmpty = true›)

/-- Trees the last of which is a node that holds a token and is no placeholder. -/
def EndsInToken (trees : List Tree) : Prop :=
  ∃ before kind children, trees = before ++ [.node kind children] ∧ kind ≠ .missing

theorem EndsInToken.append (left : List Tree) (h : EndsInToken right) :
    EndsInToken (left ++ right) := by
  obtain ⟨before, kind, children, rfl, hkind⟩ := h
  exact ⟨left ++ before, kind, children, (List.append_assoc ..).symm, hkind⟩

end Tree

namespace Rule

open Tree (leavesAll swallowsAll goesOn)

/-- Lexemes up to the end of a line, without strings. -/
inductive Lines : List Lexeme → Prop where
  | newline (lexeme : Lexeme) : lexeme.kind = .newline → lexeme.token.text ≠ "" → Lines [lexeme]
  | cons (lexeme : Lexeme) {rest : List Lexeme} :
      lexeme.kind ≠ .eof → lexeme.kind ≠ .stringStart → Lines rest → Lines (lexeme :: rest)

/-- The end of the file, and a declaration in its place. -/
structure Follows (fin stop : List Lexeme) : Prop where
  fin : ∃ eof : Token, eof.kind = .eof ∧ fin = [⟨[], eof⟩]
  clean : (settle stop).rest = stop
  starts : startsDeclaration stop = true
  var : isWordAt stop "var" = true

/-- The outcomes of a rule for some lines with the end of the file and with a declaration behind
them. Either lines are left, or they are used up and so are those in front of the declaration, or
tokens of the declaration are taken; the trees of the first outcome tell the last two apart. -/
inductive Parts (fin stop : List Lexeme) (stays takes : List Tree → Prop) (a b : Outcome) :
    Prop where
  | before (post : List Lexeme) : Lines post → a.rest = post ++ fin → b.rest = post ++ stop →
      Parts fin stop stays takes a b
  | at : a.rest = fin → b.rest = stop → leavesAll a.trees ≠ [] → stays a.trees →
      Parts fin stop stays takes a b
  | past : a.rest = fin → b.rest.length < stop.length → leavesAll a.trees ≠ [] → takes a.trees →
      Parts fin stop stays takes a b

/-- What holds of some trees together is up to the last of them that holds a token. -/
structure Local (motive : List Tree → Prop) : Prop where
  prepend : ∀ left {right}, leavesAll right ≠ [] → motive right → motive (left ++ right)
  append : ∀ {left} right, leavesAll left ≠ [] → leavesAll right = [] → motive left →
    motive (left ++ right)

theorem local_const (p : Prop) : Local fun _ => p :=
  ⟨fun _ _ _ h => h, fun _ _ _ h => h⟩

theorem local_swallowsAll (answer : Bool) : Local fun trees => swallowsAll trees = answer := by
  constructor
  · intro left right hleaves h
    rwa [Tree.swallowsAll_append_of_leaves left hleaves]
  · intro left right hleaves hbare h
    rwa [Tree.swallowsAll_append_of_bare hleaves hbare]

section

variable {fin stop pre post input input' : List Lexeme} {stays takes stays' takes' : List Tree → Prop}
  {first first' second body : Rule} {a b : Outcome}

/-! The two ends -/

theorem Follows.kind_fin (h : Follows fin stop) : kind fin = .eof := by
  obtain ⟨eof, heof, rfl⟩ := h.fin
  exact heof

theorem Follows.kind_stop (h : Follows fin stop) : kind stop = .ident :=
  kind_eq_of_isWordAt h.var

/-- Nothing is taken from the end of the file. -/
theorem Follows.nothing (h : Follows fin stop) {left : List Tree} (hspells : a.Spells left fin) :
    a.rest = fin ∧ leavesAll a.trees = leavesAll left := by
  obtain ⟨eof, heof, rfl⟩ := h.fin
  obtain ⟨leaves, hreads, hleaves⟩ := hspells
  obtain ⟨hrest, rfl⟩ := hreads.of_end heof rfl
  exact ⟨hrest, by rw [hleaves, List.append_nil]⟩

/-! Lines -/

theorem Lines.whole (h : Lines pre) : Whole pre := by
  induction h with
  | newline lexeme hkind => exact .newline lexeme hkind
  | cons lexeme heof _ _ ih => exact .cons lexeme heof ih

theorem Lines.kind_append (h : Lines pre) (right : List Lexeme) : kind (pre ++ right) = kind pre :=
  h.whole.kind_append right

theorem Lines.isWordAt_append (h : Lines pre) (right : List Lexeme) (word : String) :
    isWordAt (pre ++ right) word = isWordAt pre word := h.whole.isWordAt_append right word

theorem Lines.kind_ne_eof (h : Lines pre) : kind pre ≠ .eof := h.whole.kind_ne_eof

theorem Lines.kind_ne_stringStart (h : Lines pre) : kind pre ≠ .stringStart := by
  cases h with
  | newline lexeme hkind htext => simp [kind_cons, hkind]
  | cons lexeme heof hstring hrest => exact hstring

/-- On a line that goes on, there is something behind the first token. -/
theorem Lines.tail (h : Lines pre) (hkind : kind pre ≠ .newline) : Lines pre.tail := by
  cases h with
  | newline lexeme hnewline htext => exact absurd hnewline hkind
  | cons lexeme heof hstring hrest => exact hrest

theorem Lines.tail_append (h : Lines pre) (right : List Lexeme) :
    (pre ++ right).tail = pre.tail ++ right := h.whole.tail_append right

theorem Lines.declarationWord_append (h : Lines pre) (right : List Lexeme) :
    declarationWord (pre ++ right) = declarationWord pre := h.whole.declarationWord_append right

theorem Lines.startsDeclaration_append (h : Lines pre) (right : List Lexeme) :
    startsDeclaration (pre ++ right) = startsDeclaration pre :=
  h.whole.startsDeclaration_append right

/-- Trivia in front of the first token makes no difference. -/
theorem Lines.settle (h : Lines pre) :
    ∃ post, Lines post ∧ current post = current pre ∧ post.tail = pre.tail ∧
      ∀ right, (settle (pre ++ right)).rest = post ++ right := by
  cases h with
  | newline lexeme hkind htext =>
      exact ⟨[⟨[], lexeme.token⟩], .newline _ hkind htext, rfl, rfl, fun _ => rfl⟩
  | cons lexeme heof hstring hrest =>
      exact ⟨⟨[], lexeme.token⟩ :: _, .cons _ heof hstring hrest, rfl, rfl, fun _ => rfl⟩

theorem Lines.takeAs (h : Lines pre) (tag : Kind) (right : List Lexeme) :
    (takeAs tag (pre ++ right)).rest = pre.tail ++ right ∧
      ∃ (lead : List Token) (text : String),
        (Rule.takeAs tag (pre ++ right)).trees = lead.map Tree.ofToken ++ [.leaf tag text] := by
  have heof : ∀ {lexeme : Lexeme} {rest : List Lexeme}, kind (lexeme :: rest) ≠ .eof →
      Rule.takeAs tag (lexeme :: rest) =
        ⟨lexeme.lead.map Tree.ofToken ++ [.leaf tag lexeme.token.text], [], rest⟩ := by
    intro lexeme rest hkind
    rw [kind_cons] at hkind
    rw [Rule.takeAs, if_neg hkind]
  cases h with
  | newline lexeme hkind htext =>
      rw [List.singleton_append, heof (by simp [kind_cons, hkind])]
      exact ⟨rfl, _, _, rfl⟩
  | cons lexeme hne hstring hrest =>
      rw [List.cons_append, heof hne]
      exact ⟨rfl, _, _, rfl⟩

/-! Putting outcomes together -/

theorem Parts.mono (h : Parts fin stop stays takes a b)
    (hstays : ∀ trees, leavesAll trees ≠ [] → stays trees → stays' trees)
    (htakes : ∀ trees, leavesAll trees ≠ [] → takes trees → takes' trees) :
    Parts fin stop stays' takes' a b := by
  cases h with
  | before post hpost ha hb => exact .before post hpost ha hb
  | «at» ha hb hleaves h => exact .at ha hb hleaves (hstays _ hleaves h)
  | past ha hb hleaves h => exact .past ha hb hleaves (htakes _ hleaves h)

/-- What was there before does not matter. -/
theorem Parts.prepend (left left' : List Tree) (errors errors' : List SyntaxError)
    (hstays : ∀ {right}, leavesAll right ≠ [] → stays right → stays (left ++ right))
    (htakes : ∀ {right}, leavesAll right ≠ [] → takes right → takes (left ++ right))
    (h : Parts fin stop stays takes a b) :
    Parts fin stop stays takes ⟨left ++ a.trees, errors ++ a.errors, a.rest⟩
      ⟨left' ++ b.trees, errors' ++ b.errors, b.rest⟩ := by
  cases h with
  | before post hpost ha hb => exact .before post hpost ha hb
  | «at» ha hb hleaves h =>
      exact .at ha hb (by simp [Tree.leavesAll_append, hleaves]) (hstays hleaves h)
  | past ha hb hleaves h =>
      exact .past ha hb (by simp [Tree.leavesAll_append, hleaves]) (htakes hleaves h)

/-- What holds of trees still does with others in front of them. -/
def Grows (motive : List Tree → Prop) : Prop :=
  ∀ left {right}, leavesAll right ≠ [] → motive right → motive (left ++ right)

/-- The second rule reads on where the first one stops, and takes nothing of a declaration. -/
theorem Parts.seq (hfollows : Follows fin stop) (hstays : Grows stays') (htakes : Grows takes')
    (hfirst : Parts fin stop stays takes (first input) (first' input'))
    (hsecond : ∀ post, Lines post → (first input).rest = post ++ fin →
      Parts fin stop stays' takes' (second (post ++ fin)) (second (post ++ stop)))
    (hspells : ∀ input, (second input).Spells [] input) (hstop : (second stop).rest = stop)
    (hstay : ∀ trees, leavesAll trees ≠ [] → stays trees → stays' (trees ++ (second fin).trees))
    (htake : ∀ trees, leavesAll trees ≠ [] → takes trees → takes' (trees ++ (second fin).trees)) :
    Parts fin stop stays' takes' ((first ++ second) input) ((first' ++ second) input') := by
  rw [andThen_apply, andThen_apply]
  have hfin := (hfollows.nothing (hspells fin)).1
  cases hfirst with
  | before post hpost ha hb =>
      have hparts := hsecond post hpost ha
      rw [ha, hb]
      exact hparts.prepend _ _ _ _ (hstays _) (htakes _)
  | «at» ha hb hleaves h =>
      rw [ha, hb]
      exact .at hfin hstop (by simp [Tree.leavesAll_append, hleaves]) (hstay _ hleaves h)
  | past ha hb hleaves h =>
      rw [ha]
      exact .past hfin (Nat.lt_of_le_of_lt (hspells _).length_le hb)
        (by simp [Tree.leavesAll_append, hleaves]) (htake _ hleaves h)

/-- The second rule takes a declaration that comes right behind what the first one reads. -/
theorem Parts.seq_takes (hfollows : Follows fin stop) (hstays : Grows stays')
    (htakes : Grows takes')
    (hfirst : Parts fin stop stays takes (first input) (first' input'))
    (hsecond : ∀ post, Lines post → (first input).rest = post ++ fin →
      Parts fin stop stays' takes' (second (post ++ fin)) (second (post ++ stop)))
    (hspells : ∀ input, (second input).Spells [] input)
    (hstop : (second stop).rest.length < stop.length)
    (hstay : ∀ trees, leavesAll trees ≠ [] → stays trees → takes' (trees ++ (second fin).trees))
    (htake : ∀ trees, leavesAll trees ≠ [] → takes trees → takes' (trees ++ (second fin).trees)) :
    Parts fin stop stays' takes' ((first ++ second) input) ((first' ++ second) input') := by
  rw [andThen_apply, andThen_apply]
  have hfin := (hfollows.nothing (hspells fin)).1
  cases hfirst with
  | before post hpost ha hb =>
      have hparts := hsecond post hpost ha
      rw [ha, hb]
      exact hparts.prepend _ _ _ _ (hstays _) (htakes _)
  | «at» ha hb hleaves h =>
      rw [ha, hb]
      exact .past hfin hstop (by simp [Tree.leavesAll_append, hleaves]) (hstay _ hleaves h)
  | past ha hb hleaves h =>
      rw [ha]
      exact .past hfin (Nat.lt_of_le_of_lt (hspells _).length_le hb)
        (by simp [Tree.leavesAll_append, hleaves]) (htake _ hleaves h)

theorem Parts.andThen (hfollows : Follows fin stop) (hstays : Local stays) (htakes : Local takes)
    (hfirst : Parts fin stop stays takes (first input) (first' input'))
    (hsecond : ∀ post, Lines post → (first input).rest = post ++ fin →
      Parts fin stop stays takes (second (post ++ fin)) (second (post ++ stop)))
    (hspells : ∀ input, (second input).Spells [] input) (hstop : (second stop).rest = stop) :
    Parts fin stop stays takes ((first ++ second) input) ((first' ++ second) input') := by
  have hbare := (hfollows.nothing (hspells fin)).2
  exact hfirst.seq hfollows hstays.prepend htakes.prepend hsecond hspells hstop
    (fun _ hleaves => hstays.append _ hleaves hbare) fun _ hleaves => htakes.append _ hleaves hbare

theorem Parts.andThen_takes (hfollows : Follows fin stop) (hstays : Local stays)
    (hfirst : Parts fin stop (fun _ => True) (fun _ => True) (first input) (first' input'))
    (hsecond : ∀ post, Lines post → (first input).rest = post ++ fin →
      Parts fin stop stays (fun _ => True) (second (post ++ fin)) (second (post ++ stop)))
    (hspells : ∀ input, (second input).Spells [] input)
    (hstop : (second stop).rest.length < stop.length) :
    Parts fin stop stays (fun _ => True) ((first ++ second) input) ((first' ++ second) input') :=
  hfirst.seq_takes hfollows hstays.prepend (fun _ _ _ h => h) hsecond hspells hstop
    (fun _ _ _ => trivial) fun _ _ _ => trivial

/-- Trees that end in a node which holds what was read, and that read nothing more. -/
def Operand (trees : List Tree) : Prop := swallowsAll trees = false ∧ Tree.EndsInToken trees

theorem Parts.wrap_of {kind : Kind} {left left' : List Tree}
    (h : Parts fin stop stays takes (body input) (body input'))
    (hstays : ∀ trees, leavesAll trees ≠ [] → stays trees → stays' [.node kind (left ++ trees)])
    (htakes : ∀ trees, leavesAll trees ≠ [] → takes trees → takes' [.node kind (left ++ trees)]) :
    Parts fin stop stays' takes' (wrap kind left body input) (wrap kind left' body input') := by
  have hnode : ∀ {trees : List Tree}, leavesAll trees ≠ [] →
      leavesAll [Tree.node kind (left ++ trees)] ≠ [] := by
    intro trees hleaves
    simp [leavesAll, Tree.leaves, Tree.leavesAll_append, hleaves]
  cases h with
  | before post hpost ha hb => exact .before post hpost ha hb
  | «at» ha hb hleaves h => exact .at ha hb (hnode hleaves) (hstays _ hleaves h)
  | past ha hb hleaves h => exact .past ha hb (hnode hleaves) (htakes _ hleaves h)

theorem Parts.wrap {kind : Kind} {left left' : List Tree} (hkind : kind ≠ .missing)
    (h : Parts fin stop stays takes (body input) (body input'))
    (hstays : ∀ trees, leavesAll trees ≠ [] → stays trees →
      (goesOn kind (left ++ trees) || swallowsAll (left ++ trees)) = false)
    (htakes : ∀ trees, leavesAll trees ≠ [] → takes trees →
      (goesOn kind (left ++ trees) || swallowsAll (left ++ trees)) = true) :
    Parts fin stop Operand (swallowsAll · = true) (Rule.wrap kind left body input)
      (Rule.wrap kind left' body input') :=
  h.wrap_of (fun trees hleaves h => ⟨hstays trees hleaves h, [], kind, _, rfl, hkind⟩) htakes

/-- A node of a kind that never goes on. -/
theorem Parts.wrap_quiet {kind : Kind} {left left' : List Tree} (hkind : kind ≠ .missing)
    (hquiet : ∀ children, goesOn kind children = false)
    (h : Parts fin stop (swallowsAll · = false) (swallowsAll · = true) (body input) (body input')) :
    Parts fin stop Operand (swallowsAll · = true) (Rule.wrap kind left body input)
      (Rule.wrap kind left' body input') := by
  refine h.wrap hkind (fun trees hleaves h => ?_) fun trees hleaves h => ?_
  · rw [hquiet, Tree.swallowsAll_append_of_leaves left hleaves, h, Bool.false_or]
  · rw [hquiet, Tree.swallowsAll_append_of_leaves left hleaves, h, Bool.false_or]

/-- A node of a kind that always goes on. -/
theorem Parts.wrap_goesOn {kind : Kind} {left left' : List Tree} (hkind : kind ≠ .missing)
    (hgoesOn : ∀ children, goesOn kind children = true)
    (h : Parts fin stop (fun _ => False) (fun _ => True) (body input) (body input')) :
    Parts fin stop Operand (swallowsAll · = true) (Rule.wrap kind left body input)
      (Rule.wrap kind left' body input') :=
  h.wrap hkind (fun _ _ h => h.elim) fun _ _ _ => by rw [hgoesOn, Bool.true_or]

theorem Operand.prepend (left : List Tree) {right : List Tree} (hleaves : leavesAll right ≠ [])
    (h : Operand right) : Operand (left ++ right) :=
  ⟨(local_swallowsAll false).prepend left hleaves h.1, h.2.append left⟩

/-- Trivia in front of a node stays outside of it. -/
theorem Parts.settle_grows {rule : Rule} (hstays : Grows stays) (htakes : Grows takes)
    (hpre : Lines pre)
    (h : ∀ post, Lines post → current post = current pre → post.tail = pre.tail →
      Parts fin stop stays takes (rule (post ++ fin)) (rule (post ++ stop))) :
    Parts fin stop stays takes ((settle ++ rule) (pre ++ fin)) ((settle ++ rule) (pre ++ stop)) := by
  obtain ⟨post, hpost, hcurrent, htail, hsettle⟩ := hpre.settle
  have hparts := h post hpost hcurrent htail
  rw [andThen_apply, andThen_apply, hsettle, hsettle]
  exact hparts.prepend _ _ _ _ (hstays _) (htakes _)

theorem Parts.settle {rule : Rule} (hpre : Lines pre)
    (h : ∀ post, Lines post → current post = current pre → post.tail = pre.tail →
      Parts fin stop Operand (swallowsAll · = true) (rule (post ++ fin)) (rule (post ++ stop))) :
    Parts fin stop Operand (swallowsAll · = true) ((Rule.settle ++ rule) (pre ++ fin))
      ((Rule.settle ++ rule) (pre ++ stop)) :=
  settle_grows (fun left _ => Operand.prepend left) (local_swallowsAll true).prepend hpre h

/-! Rules that leave a line to read -/

/-- A rule that stops somewhere on the lines, whatever comes behind them. -/
def Advances (rule : Rule) (pre : List Lexeme) : Prop :=
  ∃ post, Lines post ∧ ∀ right, (rule (pre ++ right)).rest = post ++ right

theorem Advances.parts (h : body.Advances pre) :
    Parts fin stop stays takes (body (pre ++ fin)) (body (pre ++ stop)) := by
  obtain ⟨post, hpost, hrest⟩ := h
  exact .before post hpost (hrest fin) (hrest stop)

theorem Advances.andThen (hfirst : first.Advances pre)
    (hsecond : ∀ post, Lines post → second.Advances post) : (first ++ second).Advances pre := by
  obtain ⟨middle, hmiddle, hrest⟩ := hfirst
  obtain ⟨post, hpost, hrest'⟩ := hsecond middle hmiddle
  exact ⟨post, hpost, fun right => by rw [andThen_apply, hrest, hrest']⟩

theorem advances_of_rest (hpre : Lines pre) (h : ∀ input, (body input).rest = input) :
    body.Advances pre := ⟨pre, hpre, fun right => h (pre ++ right)⟩

theorem advances_takeAs (tag : Kind) (hpre : Lines pre) (hkind : kind pre ≠ .newline) :
    (takeAs tag).Advances pre :=
  ⟨pre.tail, hpre.tail hkind, fun right => (hpre.takeAs tag right).1⟩

theorem advances_take (hpre : Lines pre) (hkind : kind pre ≠ .newline) : take.Advances pre :=
  ⟨pre.tail, hpre.tail hkind, fun right => (hpre.takeAs _ right).1⟩

theorem advances_node {tag : Kind} (hpre : Lines pre)
    (h : ∀ post, Lines post → kind post = kind pre → body.Advances post) :
    (node tag body).Advances pre := by
  obtain ⟨post, hpost, hcurrent, -, hsettle⟩ := hpre.settle
  obtain ⟨last, hlast, hrest⟩ := h post hpost (congrArg Token.kind hcurrent)
  refine ⟨last, hlast, fun right => ?_⟩
  rw [node, andThen_apply, hsettle]
  exact hrest right

theorem advances_ifAt {wanted : Kind} {yes no : Rule} (hpre : Lines pre)
    (hyes : kind pre = wanted → yes.Advances pre) (hno : kind pre ≠ wanted → no.Advances pre) :
    (ifAt wanted yes no).Advances pre := by
  by_cases hkind : kind pre = wanted
  · obtain ⟨post, hpost, hrest⟩ := hyes hkind
    refine ⟨post, hpost, fun right => ?_⟩
    rw [ifAt, if_pos (by rwa [hpre.kind_append]), hrest]
  · obtain ⟨post, hpost, hrest⟩ := hno hkind
    refine ⟨post, hpost, fun right => ?_⟩
    rw [ifAt, if_neg (by rwa [hpre.kind_append]), hrest]

theorem advances_unlessAt (kinds : List Kind) (hpre : Lines pre)
    (h : kind pre ∉ kinds → body.Advances pre) : (unlessAt kinds body).Advances pre := by
  by_cases hkind : kind pre ∈ kinds
  · refine ⟨pre, hpre, fun right => ?_⟩
    rw [unlessAt, if_pos (by simpa [hpre.kind_append] using hkind)]
    rfl
  · obtain ⟨post, hpost, hrest⟩ := h hkind
    refine ⟨post, hpost, fun right => ?_⟩
    rw [unlessAt, if_neg (by simpa [hpre.kind_append] using hkind), hrest]

theorem advances_absent (expected : Expected) (hpre : Lines pre) :
    (absent expected).Advances pre := by
  obtain ⟨post, hpost, hrest⟩ : (node .missing done).Advances pre :=
    advances_node hpre fun post hpost _ => advances_of_rest hpost fun _ => rfl
  exact ⟨post, hpost, hrest⟩

theorem advances_expect (wanted : Kind) (hwanted : wanted ≠ .newline) (hpre : Lines pre) :
    (expect wanted).Advances pre :=
  advances_ifAt hpre (fun hkind => advances_take hpre (by rwa [hkind]))
    fun _ => advances_absent _ hpre

/-- Recovery stops at the end of the line at the latest. -/
theorem advances_takeUntil {kinds : List Kind} (hkinds : .newline ∈ kinds) (hpre : Lines pre) :
    (takeUntil kinds).Advances pre := by
  induction hpre with
  | newline lexeme hkind htext =>
      refine ⟨[lexeme], .newline _ hkind htext, fun right => ?_⟩
      simp [takeUntil, hkind, hkinds]
  | cons lexeme heof hstring hrest ih =>
      by_cases hstop : lexeme.kind ∈ kinds
      · refine ⟨_, .cons lexeme heof hstring hrest, fun right => ?_⟩
        simp [takeUntil, hstop]
      · obtain ⟨post, hpost, hmore⟩ := ih
        refine ⟨post, hpost, fun right => ?_⟩
        simp [takeUntil, heof, hstop, hmore]

theorem advances_skipTo (kinds : List Kind) (cause : SyntaxError.Cause)
    (hkinds : .newline ∈ kinds) (hpre : Lines pre) : (skipTo kinds cause).Advances pre := by
  obtain ⟨post, hpost, hrest⟩ : (unlessAt (.eof :: kinds) (node .error (takeUntil kinds))).Advances
      pre :=
    advances_unlessAt _ hpre fun _ => advances_node hpre fun _ hpost _ =>
      advances_takeUntil hkinds hpost
  exact ⟨post, hpost, hrest⟩

theorem advances_tooDeep (hpre : Lines pre) : tooDeep.Advances pre :=
  (advances_skipTo _ _ List.mem_cons_self hpre).andThen fun _ hpost =>
    advances_node hpost fun _ hlast _ => advances_of_rest hlast fun _ => rfl

/-! What the rules do at the declaration -/

theorem Follows.rest_absent (h : Follows fin stop) (expected : Expected) :
    (absent expected stop).rest = stop := h.clean

theorem Follows.rest_expect (h : Follows fin stop) {wanted : Kind} (hwanted : wanted ≠ .ident) :
    (expect wanted stop).rest = stop := by
  rw [expect, ifAt, if_neg (by rw [h.kind_stop]; exact hwanted.symm)]
  exact h.rest_absent _

theorem Follows.trees_expect (h : Follows fin stop) {wanted : Kind} (hwanted : wanted ≠ .eof) :
    (expect wanted fin).trees = [.node .missing []] := by
  obtain ⟨eof, heof, rfl⟩ := h.fin
  rw [expect, ifAt, if_neg (by rw [kind_cons, Lexeme.kind, heof]; exact hwanted.symm)]
  rfl

theorem Follows.rest_takeNewlines (h : Follows fin stop) : (takeNewlines stop).rest = stop := by
  rw [takeNewlines_of_ne (by rw [h.kind_stop]; decide)]
  rfl

/-! Newlines -/

/-- Newlines are all there is, or they are in front of more. -/
theorem Lines.takeNewlines (h : Lines pre) :
    (∀ right, kind right ≠ .newline →
      kindAfterNewlines (pre ++ right) = kind right ∧
        (takeNewlines (pre ++ right)).rest = right ∧
        ∃ tokens : List Token, tokens ≠ [] ∧
          (Rule.takeNewlines (pre ++ right)).trees = tokens.map Tree.ofToken) ∨
      ∃ post, Lines post ∧ kind post ≠ .newline ∧ ∀ right,
        kindAfterNewlines (pre ++ right) = kind post ∧
          (Rule.takeNewlines (pre ++ right)).rest = post ++ right := by
  induction h with
  | newline lexeme hkind htext =>
      refine .inl fun right hright => ⟨?_, ?_, lexeme.tokens, ?_, ?_⟩
      · rw [List.singleton_append, kindAfterNewlines, if_pos hkind, kindAfterNewlines_of_ne hright]
      · simp [Rule.takeNewlines, hkind, takeNewlines_of_ne hright, done]
      · simp [Lexeme.tokens]
      · simp [Rule.takeNewlines, hkind, takeNewlines_of_ne hright, done]
  | @cons lexeme rest heof hstring hrest ih =>
      by_cases hkind : lexeme.kind = .newline
      · rcases ih with hall | ⟨post, hpost, hline, hmore⟩
        · refine .inl fun right hright => ?_
          obtain ⟨hafter, hright', tokens, -, htokens⟩ := hall right hright
          refine ⟨?_, ?_, lexeme.tokens ++ tokens, by simp [Lexeme.tokens], ?_⟩
          · rwa [List.cons_append, kindAfterNewlines, if_pos hkind]
          · simpa [Rule.takeNewlines, hkind] using hright'
          · simp [Rule.takeNewlines, hkind, htokens]
        · refine .inr ⟨post, hpost, hline, fun right => ?_⟩
          obtain ⟨hafter, hright⟩ := hmore right
          refine ⟨?_, ?_⟩
          · rwa [List.cons_append, kindAfterNewlines, if_pos hkind]
          · simpa [Rule.takeNewlines, hkind] using hright
      · refine .inr ⟨_, .cons lexeme heof hstring hrest, hkind, fun right => ⟨?_, ?_⟩⟩
        · exact kindAfterNewlines_of_ne hkind
        · rw [takeNewlines_of_ne (show kind (lexeme :: rest ++ right) ≠ .newline from hkind)]
          rfl

theorem leavesAll_tokens_ne_nil {tokens : List Token} (h : tokens ≠ []) :
    leavesAll (tokens.map Tree.ofToken) ≠ [] := by
  rw [Tree.leavesAll_map_ofToken]
  simpa using h

theorem swallowsAll_tokens (tokens : List Token) :
    swallowsAll (tokens.map Tree.ofToken) = false := by
  induction tokens with
  | nil => rfl
  | cons token tokens ih =>
      rw [List.map_cons, swallowsAll]
      split
      · rfl
      · exact ih

theorem parts_takeNewlines (hfollows : Follows fin stop) (hpre : Lines pre) :
    Parts fin stop (fun trees => ∃ tokens : List Token, trees = tokens.map Tree.ofToken) takes
      (takeNewlines (pre ++ fin)) (takeNewlines (pre ++ stop)) := by
  rcases hpre.takeNewlines with hall | ⟨post, hpost, -, hmore⟩
  · obtain ⟨-, hfin, tokens, hne, htokens⟩ := hall fin (by rw [hfollows.kind_fin]; decide)
    obtain ⟨-, hstop, -⟩ := hall stop (by rw [hfollows.kind_stop]; decide)
    exact .at hfin hstop (htokens ▸ leavesAll_tokens_ne_nil hne) ⟨tokens, htokens⟩
  · exact .before post hpost (hmore fin).2 (hmore stop).2

/-- Newlines in front of a closing token are taken with lines left. -/
theorem parts_takeNewlinesBefore (hfollows : Follows fin stop) (wanted : Kind)
    (hwanted : wanted ≠ .eof ∧ wanted ≠ .ident) (hpre : Lines pre) :
    Parts fin stop stays takes (takeNewlinesBefore wanted (pre ++ fin))
      (takeNewlinesBefore wanted (pre ++ stop)) := by
  unfold takeNewlinesBefore
  rcases hpre.takeNewlines with hall | ⟨post, hpost, hline, hmore⟩
  · obtain ⟨hfin, -⟩ := hall fin (by rw [hfollows.kind_fin]; decide)
    obtain ⟨hstop, -⟩ := hall stop (by rw [hfollows.kind_stop]; decide)
    rw [hfin, hstop, hfollows.kind_fin, hfollows.kind_stop, if_neg hwanted.1.symm,
      if_neg hwanted.2.symm]
    exact .before pre hpre rfl rfl
  · rw [(hmore fin).1, (hmore stop).1]
    split
    · exact .before post hpost (hmore fin).2 (hmore stop).2
    · exact .before pre hpre rfl rfl

theorem Follows.rest_takeNewlinesBefore (h : Follows fin stop) {wanted : Kind}
    (hwanted : wanted ≠ .ident) : (takeNewlinesBefore wanted stop).rest = stop := by
  rw [takeNewlinesBefore, kindAfterNewlines_of_ne (by rw [h.kind_stop]; decide), h.kind_stop,
    if_neg hwanted.symm]
  rfl

theorem take_cons {lexeme : Lexeme} (h : lexeme.kind ≠ .eof) (rest : List Lexeme) :
    take (lexeme :: rest) = ⟨lexeme.tokens.map Tree.ofToken, [], rest⟩ := by
  rw [take, takeAs, if_neg h, Lexeme.tokens, List.map_append]
  rfl

/-- A token may be the last one of the lines. -/
theorem parts_take (hpre : Lines pre) :
    Parts fin stop (swallowsAll · = false) takes (take (pre ++ fin)) (take (pre ++ stop)) := by
  cases hpre with
  | newline lexeme hkind htext =>
      have heof : lexeme.kind ≠ .eof := by rw [hkind]; decide
      have htake := take_cons heof
      rw [List.singleton_append, List.singleton_append, htake, htake]
      exact .at rfl rfl (leavesAll_tokens_ne_nil (by simp [Lexeme.tokens]))
        (swallowsAll_tokens _)
  | cons lexeme heof hstring hrest =>
      rw [List.cons_append, List.cons_append, take_cons heof, take_cons heof]
      exact .before _ hrest rfl rfl

/-! Loops -/

/-- A loop whose rounds depend on what is in front of them alone. -/
theorem parts_loop (hfollows : Follows fin stop) {choose : List Lexeme → Step}
    (hprogress : Progresses choose)
    (hspells : ∀ input, ((choose input).rule input).Spells [] input)
    (hsame : ∀ pre, Lines pre → ∀ right, choose (pre ++ right) = choose pre)
    (hround : ∀ pre, Lines pre → Parts fin stop (swallowsAll · = false) (swallowsAll · = true)
      ((choose pre).rule (pre ++ fin)) ((choose pre).rule (pre ++ stop)))
    (hstop : (loop choose stop).rest = stop) (hpre : Lines pre) :
    Parts fin stop (swallowsAll · = false) (swallowsAll · = true) (loop choose (pre ++ fin))
      (loop choose (pre ++ stop)) := by
  induction hlength : pre.length using Nat.strongRecOn generalizing pre with
  | ind length ih =>
      have hparts := hround pre hpre
      cases hchoose : choose pre with
      | last inner =>
          rw [hchoose] at hparts
          rw [loop_of_last hprogress ((hsame pre hpre fin).trans hchoose),
            loop_of_last hprogress ((hsame pre hpre stop).trans hchoose)]
          exact hparts
      | again inner =>
          rw [hchoose] at hparts
          have hfin := (hsame pre hpre fin).trans hchoose
          rw [loop_of_again hprogress hfin,
            loop_of_again hprogress ((hsame pre hpre stop).trans hchoose)]
          refine hparts.andThen hfollows (local_swallowsAll _) (local_swallowsAll _)
            (fun post hpost hrest => ?_) (spells_loop hspells) hstop
          have hless := hprogress _ _ hfin
          rw [show (inner (pre ++ fin)).rest = post ++ fin from hrest, List.length_append,
            List.length_append] at hless
          exact ih post.length (by omega) hpost rfl

section List

variable {close : Kind} {startsItem : Kind → Bool} {item : Rule} {cause : SyntaxError.Cause}

theorem listStep_append (hpre : Lines pre) (right : List Lexeme) :
    listStep close startsItem item cause (pre ++ right) =
      listStep close startsItem item cause pre := by
  exact listStep_congr (hpre.kind_append right) (hpre.startsDeclaration_append right)

/-- A list that is not closed stops in front of a declaration. -/
theorem Follows.rest_loop_listStep (h : Follows fin stop)
    (hprogress : Progresses (listStep close startsItem item cause))
    (hclose : close ≠ .ident) : (loop (listStep close startsItem item cause) stop).rest = stop := by
  have hchoose : listStep close startsItem item cause stop = .last (absent (.token close)) := by
    simp [listStep, h.kind_stop, h.starts, hclose.symm]
  rw [loop_of_last hprogress hchoose]
  exact h.rest_absent _

theorem parts_list (hfollows : Follows fin stop) {tag : Kind} (htag : tag ≠ .missing)
    (hquiet : ∀ children, goesOn tag children = false)
    (hclose : close ≠ .newline ∧ close ≠ .ident)
    (hprogress : Progresses (listStep close startsItem item cause))
    (hspells : ∀ input, startsItem (kind input) = true → (item input).Spells [] input)
    (hitem : ∀ pre, Lines pre → startsItem (kind pre) = true →
      Parts fin stop (swallowsAll · = false) (swallowsAll · = true) (item (pre ++ fin))
        (item (pre ++ stop))) (hpre : Lines pre) (hkind : kind pre ≠ .newline) :
    Parts fin stop Operand (swallowsAll · = true)
      (list tag close startsItem item cause (pre ++ fin))
      (list tag close startsItem item cause (pre ++ stop)) := by
  have hround : ∀ pre, Lines pre →
      Parts fin stop (swallowsAll · = false) (swallowsAll · = true)
        ((listStep close startsItem item cause pre).rule (pre ++ fin))
        ((listStep close startsItem item cause pre).rule (pre ++ stop)) := by
    intro pre hpre
    generalize hstep : listStep close startsItem item cause pre = step
    cases listRound_of_eq hstep with
    | newline | comma => exact parts_take hpre
    | close hinside => exact (advances_take hpre hinside.1).parts
    | unclosed => exact (advances_absent _ hpre).parts
    | item _ hstart => exact hitem pre hpre hstart
    | stray => exact (advances_skipTo _ _ List.mem_cons_self hpre).parts
  refine Parts.settle hpre fun post hpost hcurrent _ => Parts.wrap_quiet htag hquiet ?_
  have hkind : kind post ≠ .newline := by rwa [kind, hcurrent]
  refine Parts.andThen hfollows (local_swallowsAll _) (local_swallowsAll _)
    (advances_take hpost hkind).parts (fun post hpost _ => ?_)
    (spells_loop (spells_listStep hspells)) (hfollows.rest_loop_listStep hprogress hclose.2)
  exact parts_loop hfollows hprogress (spells_listStep hspells)
    (fun pre hpre right => listStep_append hpre right) hround
    (hfollows.rest_loop_listStep hprogress hclose.2) hpost

end List

/-! The rules that read expressions -/

theorem Advances.andThen_parts (hstays : Local stays) (htakes : Local takes)
    (hfirst : first.Advances pre)
    (hsecond : ∀ post, Lines post →
      Parts fin stop stays takes (second (post ++ fin)) (second (post ++ stop))) :
    Parts fin stop stays takes ((first ++ second) (pre ++ fin)) ((first ++ second) (pre ++ stop)) := by
  obtain ⟨post, hpost, hrest⟩ := hfirst
  have hparts := hsecond post hpost
  rw [andThen_apply, andThen_apply, hrest, hrest]
  exact hparts.prepend _ _ _ _ (hstays.prepend _) (htakes.prepend _)

theorem parts_ifAt {wanted : Kind} {yes no : Rule} (hpre : Lines pre)
    (hyes : kind pre = wanted →
      Parts fin stop stays takes (yes (pre ++ fin)) (yes (pre ++ stop)))
    (hno : kind pre ≠ wanted → Parts fin stop stays takes (no (pre ++ fin)) (no (pre ++ stop))) :
    Parts fin stop stays takes (ifAt wanted yes no (pre ++ fin)) (ifAt wanted yes no (pre ++ stop)) := by
  unfold ifAt
  rw [hpre.kind_append, hpre.kind_append]
  split
  · exact hyes ‹_›
  · exact hno ‹_›

theorem parts_unlessAt {kinds : List Kind} (hpre : Lines pre)
    (h : Parts fin stop stays takes (body (pre ++ fin)) (body (pre ++ stop))) :
    Parts fin stop stays takes (unlessAt kinds body (pre ++ fin))
      (unlessAt kinds body (pre ++ stop)) := by
  unfold unlessAt
  rw [hpre.kind_append, hpre.kind_append]
  split
  · exact .before pre hpre rfl rfl
  · exact h

/-- The rest of a line in front of which nothing stops is an error. -/
theorem Follows.length_skipTo_lt (h : Follows fin stop) {kinds wanted : List Kind}
    {cause : SyntaxError.Cause} (hkinds : .ident ∉ kinds) (hwanted : .ident ∉ wanted) :
    (unlessAt kinds (skipTo wanted cause) stop).rest.length < stop.length := by
  rw [unlessAt, if_neg (by rw [h.kind_stop]; simpa using hkinds)]
  exact Rule.length_skipTo_lt (by rw [h.kind_stop]; decide) (by rwa [h.kind_stop])

/-- What a rule for expressions does on lines, at the end of the file and at a declaration. -/
structure Splits (fin stop : List Lexeme) (expr : Rule) : Prop where
  parts : ∀ pre, Lines pre →
    Parts fin stop Operand (swallowsAll · = true) (expr (pre ++ fin)) (expr (pre ++ stop))
  spells : ∀ input, (expr input).Spells [] input
  progresses : ∀ input, startsExpr (kind input) = true → (expr input).rest.length < input.length
  trees_fin : (expr fin).trees = [.node .missing []]

theorem Splits.length_stop {expr : Rule} (h : Splits fin stop expr) (hfollows : Follows fin stop) :
    (expr stop).rest.length < stop.length :=
  h.progresses stop (by rw [hfollows.kind_stop]; decide)

section Expr

variable {expr : Rule} (hexpr : Splits fin stop expr) (hfollows : Follows fin stop)

theorem Splits.quiet (hexpr : Splits fin stop expr) (hpre : Lines pre) :
    Parts fin stop (swallowsAll · = false) (swallowsAll · = true) (expr (pre ++ fin))
      (expr (pre ++ stop)) :=
  (hexpr.parts pre hpre).mono (fun _ _ h => h.1) fun _ _ h => h

include hexpr

theorem parts_propertyValue (hpre : Lines pre) :
    Parts fin stop (swallowsAll · = false) (swallowsAll · = true) (propertyValue expr (pre ++ fin))
      (propertyValue expr (pre ++ stop)) :=
  parts_ifAt hpre
    (fun hcolon => (advances_take hpre (by rw [hcolon]; decide)).andThen_parts
      (local_swallowsAll _) (local_swallowsAll _) fun _ hpost => hexpr.quiet hpost)
    (fun _ => (advances_absent _ hpre).andThen_parts (local_swallowsAll _) (local_swallowsAll _)
      fun _ hpost => parts_unlessAt hpost (hexpr.quiet hpost))

omit hexpr in
theorem advances_propertyKey (expr : Rule) (hpre : Lines pre) (hkind : kind pre ≠ .newline) :
    (propertyKey expr).Advances pre :=
  advances_node hpre fun post hpost hpostKind => advances_ifAt hpost
    (fun hstring => absurd hstring hpost.kind_ne_stringStart)
    (fun _ => advances_takeAs _ hpost (by rwa [hpostKind]))

include hfollows

/-- A property whose value takes the end of the line takes what comes behind it. -/
theorem parts_property (hpre : Lines pre) (hkind : kind pre ≠ .newline) :
    Parts fin stop Operand (swallowsAll · = true) (property expr (pre ++ fin))
      (property expr (pre ++ stop)) := by
  refine Parts.settle hpre fun post hpost hcurrent _ =>
    Parts.wrap_goesOn (by decide) (fun _ => rfl) ?_
  have hkey : (propertyKey expr).Advances post :=
    advances_propertyKey expr hpost (by rwa [kind, hcurrent])
  have hvalue := hkey.andThen_parts (local_swallowsAll _) (local_swallowsAll _)
    fun post hpost => parts_propertyValue hexpr hpost
  exact Parts.andThen_takes hfollows (local_const _)
    (hvalue.mono (fun _ _ _ => trivial) fun _ _ _ => trivial)
    (fun post hpost _ => (advances_unlessAt _ hpost fun _ =>
      advances_skipTo _ _ List.mem_cons_self hpost).parts)
    (fun input => spells_unlessAt _ (spells_skipTo _ _ _))
    (hfollows.length_skipTo_lt (by decide) (by decide))

omit hexpr hfollows in
theorem advances_loopVariable (hpre : Lines pre) : loopVariable.Advances pre := by
  by_cases h : (kind pre = .ident && !isWordAt pre "in") = true
  · obtain ⟨post, hpost, hrest⟩ : (node .name take).Advances pre :=
      advances_node hpre fun post hpost hkind => advances_take hpost (by
        simp only [Bool.and_eq_true, decide_eq_true_eq] at h
        rw [hkind, h.1]
        decide)
    refine ⟨post, hpost, fun right => ?_⟩
    rw [loopVariable, hpre.kind_append, hpre.isWordAt_append, if_pos h, hrest]
  · obtain ⟨post, hpost, hrest⟩ := advances_absent .loopVariable hpre
    refine ⟨post, hpost, fun right => ?_⟩
    rw [loopVariable, hpre.kind_append, hpre.isWordAt_append, if_neg h, hrest]

omit hexpr hfollows in
theorem advances_inKeyword (hpre : Lines pre) : inKeyword.Advances pre := by
  by_cases h : isWordAt pre "in" = true
  · refine ⟨pre.tail, hpre.tail (by rw [kind_eq_of_isWordAt h]; decide), fun right => ?_⟩
    rw [inKeyword, hpre.isWordAt_append, if_pos h]
    exact (hpre.takeAs _ _).1
  · obtain ⟨post, hpost, hrest⟩ := advances_absent .inKeyword hpre
    refine ⟨post, hpost, fun right => ?_⟩
    rw [inKeyword, hpre.isWordAt_append, if_neg h, hrest]

omit hexpr hfollows in
theorem advances_loopHead (hpre : Lines pre) (hbracket : kind pre = .lBrack)
    (hfor : isWordAt pre.tail "for" = true) :
    (take ++ takeAs .forKw ++ loopVariable ++ inKeyword).Advances pre := by
  have htail : Lines pre.tail := hpre.tail (by rw [hbracket]; decide)
  have hhead : (take ++ takeAs .forKw).Advances pre := by
    refine ⟨pre.tail.tail, htail.tail (by rw [kind_eq_of_isWordAt hfor]; decide), fun right => ?_⟩
    rw [andThen_apply, take, (hpre.takeAs _ right).1]
    exact (htail.takeAs _ right).1
  exact (hhead.andThen fun _ hpost => advances_loopVariable hpost).andThen fun _ hpost =>
    advances_inKeyword hpost

/-- A loop that takes the end of a line takes what comes behind it. -/
theorem parts_forExpr (hpre : Lines pre) (hbracket : kind pre = .lBrack)
    (hfor : isWordAt pre.tail "for" = true) :
    Parts fin stop Operand (swallowsAll · = true) (forExpr expr (pre ++ fin))
      (forExpr expr (pre ++ stop)) := by
  refine Parts.settle hpre fun post hpost hcurrent htail =>
    Parts.wrap_goesOn (by decide) (fun _ => rfl) ?_
  have hhead := advances_loopHead hpost (by rwa [kind, hcurrent]) (by rwa [htail])
  have hdomain := hhead.andThen_parts (local_swallowsAll _) (local_swallowsAll _)
    fun post hpost => hexpr.quiet hpost
  have hcolon := hdomain.andThen hfollows (local_swallowsAll _) (local_swallowsAll _)
    (fun post hpost _ => (advances_expect .colon (by decide) hpost).parts)
    (spells_expect _) (hfollows.rest_expect (by decide))
  have hlines := hcolon.andThen hfollows (local_swallowsAll _) (local_swallowsAll _)
    (fun post hpost _ => (parts_takeNewlines hfollows hpost).mono
      (fun _ _ ⟨tokens, htrees⟩ => htrees ▸ swallowsAll_tokens tokens) fun _ _ h => h)
    spells_takeNewlines hfollows.rest_takeNewlines
  have hbody := (hlines.mono (fun _ _ _ => trivial) fun _ _ _ => trivial).andThen_takes hfollows
    (local_const True)
    (fun post hpost _ => (hexpr.parts post hpost).mono (fun _ _ _ => trivial) fun _ _ _ => trivial)
    hexpr.spells (hexpr.length_stop hfollows)
  have hjunk := hbody.andThen_takes hfollows (local_const False)
    (fun post hpost _ => (advances_unlessAt (.newline :: closers) hpost fun _ =>
      advances_skipTo [.newline, .rBrack] .afterLoop List.mem_cons_self hpost).parts)
    (fun input => spells_unlessAt _ (spells_skipTo _ _ _))
    (hfollows.length_skipTo_lt (by decide) (by decide))
  have hends := hjunk.andThen hfollows (local_const _) (local_const _)
    (fun post hpost _ => parts_takeNewlinesBefore hfollows .rBrack (by decide) hpost)
    (spells_takeNewlinesBefore _) (hfollows.rest_takeNewlinesBefore (by decide))
  exact hends.andThen hfollows (local_const _) (local_const _)
    (fun post hpost _ => (advances_expect _ (by decide) hpost).parts) (spells_expect _)
    (hfollows.rest_expect (by decide))

omit hexpr hfollows in
theorem Operand.grows : Grows Operand := fun left _ hleaves h => h.prepend left hleaves

/-- Trees the last of which is a placeholder. -/
def Misses (trees : List Tree) : Prop := ∃ before, trees = before ++ [Tree.node .missing []]

omit hexpr hfollows in
theorem grows_misses : Grows fun trees => swallowsAll trees = true ∨ Misses trees := by
  rintro left right hleaves (h | ⟨before, rfl⟩)
  · exact .inl ((local_swallowsAll true).prepend left hleaves h)
  · exact .inr ⟨left ++ before, (List.append_assoc ..).symm⟩

/-- Trees the last two of which are placeholders. -/
def Lacks (trees : List Tree) : Prop :=
  ∃ before, trees = before ++ [Tree.node .missing []] ++ [Tree.node .missing []]

omit hexpr hfollows in
theorem grows_lacks : Grows fun trees => swallowsAll trees = true ∨ Lacks trees := by
  rintro left right hleaves (h | ⟨before, rfl⟩)
  · exact .inl ((local_swallowsAll true).prepend left hleaves h)
  · exact .inr ⟨left ++ before, by simp only [List.append_assoc]⟩

omit hexpr hfollows in
theorem goesOn_of_lacks {trees : List Tree} (h : Lacks trees) :
    goesOn .parenExpr trees = true ∧ goesOn .ternaryExpr trees = true := by
  obtain ⟨before, rfl⟩ := h
  have hsuffix : [Kind.missing, .missing].isSuffixOf ((before ++
      [Tree.node .missing []] ++ [Tree.node .missing []]).map Tree.kind) = true := by
    rw [List.isSuffixOf_iff_suffix, List.append_assoc, List.map_append]
    exact List.suffix_append _ _
  exact ⟨hsuffix, hsuffix⟩

omit hexpr hfollows in
/-- Where an expression is there, at most the token behind it is missing. -/
theorem not_goesOn_of_endsInToken {trees : List Tree} (h : Tree.EndsInToken trees) :
    goesOn .parenExpr (trees ++ [.node .missing []]) = false ∧
      goesOn .ternaryExpr trees = false := by
  obtain ⟨before, kind, children, rfl, hkind⟩ := h
  constructor <;> rw [goesOn, ← Bool.not_eq_true, List.isSuffixOf_iff_suffix, List.map_append]
  · rintro ⟨front, hfront⟩
    rw [List.map_append, List.append_assoc] at hfront
    obtain ⟨-, htwo⟩ := List.append_inj' hfront rfl
    simp only [List.map_cons, Tree.kind, List.map_nil, List.singleton_append, List.cons.injEq]
      at htwo
    exact hkind htwo.1.symm
  · rintro ⟨front, hfront⟩
    rw [← List.singleton_append, ← List.append_assoc] at hfront
    obtain ⟨-, hone⟩ := List.append_inj' hfront rfl
    simp only [List.map_cons, Tree.kind, List.map_nil, List.cons.injEq] at hone
    exact hkind hone.1.symm

omit hexpr in
/-- A closing token that misses leaves a placeholder. -/
theorem Follows.close (wanted : Kind) (hwanted : wanted ≠ .eof ∧ wanted ≠ .ident) :
    ((takeNewlinesBefore wanted ++ expect wanted) fin).trees = [.node .missing []] ∧
      ((takeNewlinesBefore wanted ++ expect wanted) stop).rest = stop := by
  have hdone : takeNewlinesBefore wanted fin = done fin := by
    have hfin := hfollows.kind_fin
    rw [takeNewlinesBefore, kindAfterNewlines_of_ne (by rw [hfin]; decide), hfin,
      if_neg hwanted.1.symm]
  constructor
  · rw [andThen_apply, hdone]
    exact hfollows.trees_expect hwanted.1
  · rw [andThen_apply, hfollows.rest_takeNewlinesBefore hwanted.2]
    exact hfollows.rest_expect hwanted.2

omit hexpr in
theorem parts_close {wanted : Kind} (hwanted : wanted ≠ .newline ∧ wanted ≠ .eof ∧ wanted ≠ .ident)
    (hstays : Grows stays) (htakes : Grows takes) (hpre : Lines pre) :
    Parts fin stop stays takes ((takeNewlinesBefore wanted ++ expect wanted) (pre ++ fin))
      ((takeNewlinesBefore wanted ++ expect wanted) (pre ++ stop)) :=
  have hlines : Parts fin stop (fun _ => False) (fun _ => False)
      (takeNewlinesBefore wanted (pre ++ fin)) (takeNewlinesBefore wanted (pre ++ stop)) :=
    parts_takeNewlinesBefore hfollows wanted hwanted.2 hpre
  hlines.seq hfollows hstays htakes
    (fun _ hpost _ => (advances_expect wanted hwanted.1 hpost).parts) (spells_expect wanted)
    (hfollows.rest_expect hwanted.2.2) (fun _ _ h => h.elim) fun _ _ h => h.elim

omit hexpr hfollows in
theorem leavesAll_append_missing (trees : List Tree) :
    leavesAll (trees ++ [.node .missing []]) = leavesAll trees := by
  simp [Tree.leavesAll_append, leavesAll, Tree.leaves]

omit hexpr hfollows in
theorem swallowsAll_append_missing {trees : List Tree} (h : leavesAll trees ≠ []) :
    swallowsAll (trees ++ [.node .missing []]) = swallowsAll trees :=
  Tree.swallowsAll_append_of_bare h rfl

/-- A parenthesis right behind which the lines end takes what comes behind them for the expression
in it. -/
theorem parts_paren (hpre : Lines pre) (hopen : kind pre = .lParen) :
    Parts fin stop Operand (swallowsAll · = true) (paren expr (pre ++ fin))
      (paren expr (pre ++ stop)) := by
  refine Parts.settle hpre fun post hpost hcurrent _ => ?_
  have hline : kind post ≠ .newline := by
    rw [kind, hcurrent, ← kind, hopen]
    decide
  have hhead := (advances_take hpost hline).andThen_parts (local_const True) (local_const False)
    fun post hpost => (parts_takeNewlines hfollows hpost).mono
      (fun _ _ _ => trivial) fun _ _ h => h
  have hinner := hhead.seq_takes hfollows Operand.grows grows_misses
    (fun post hpost _ => (hexpr.parts post hpost).mono (fun _ _ h => h) fun _ _ h => .inl h)
    hexpr.spells (hexpr.length_stop hfollows) (fun trees _ _ => .inr ⟨trees, by rw [hexpr.trees_fin]⟩)
    fun _ _ h => h.elim
  obtain ⟨hfin, hstop⟩ := hfollows.close .rParen (by decide)
  have hgrows : Grows fun trees => ∃ front, trees = front ++ [Tree.node .missing []] ∧
      Operand front := by
    rintro left right hleaves ⟨front, rfl, hfront⟩
    rw [leavesAll_append_missing] at hleaves
    exact ⟨left ++ front, (List.append_assoc ..).symm, hfront.prepend left hleaves⟩
  have hbody := hinner.seq hfollows hgrows grows_lacks
    (fun post hpost _ => parts_close hfollows (by decide) hgrows grows_lacks hpost)
    (fun input => spells_andThen (spells_takeNewlinesBefore .rParen input)
      (spells_expect .rParen _))
    hstop (fun trees _ h => ⟨trees, by rw [hfin], h⟩) fun trees hleaves h => by
      rw [hfin]
      rcases h with h | ⟨before, rfl⟩
      · exact .inl ((swallowsAll_append_missing hleaves).trans h)
      · exact .inr ⟨before, rfl⟩
  rw [← andThen_assoc] at hbody
  refine hbody.wrap (by decide) (fun trees hleaves h => ?_) fun trees _ h => ?_
  · obtain ⟨front, rfl, hfront⟩ := h
    rw [leavesAll_append_missing] at hleaves
    rw [List.nil_append, (not_goesOn_of_endsInToken hfront.2).1,
      swallowsAll_append_missing hleaves, hfront.1, Bool.false_or]
  · rw [List.nil_append, Bool.or_eq_true]
    exact h.symm.imp_left fun h => (goesOn_of_lacks h).1

omit hfollows in
theorem parts_arrayItem (hpre : Lines pre) :
    Parts fin stop Operand (swallowsAll · = true) (node .arrayItem expr (pre ++ fin))
      (node .arrayItem expr (pre ++ stop)) :=
  Parts.settle hpre fun _ hpost _ _ => (hexpr.quiet hpost).wrap_quiet (by decide) fun _ => rfl

theorem parts_arguments (hpre : Lines pre) (hkind : kind pre ≠ .newline) :
    Parts fin stop Operand (swallowsAll · = true) (arguments expr (pre ++ fin))
      (arguments expr (pre ++ stop)) :=
  parts_list hfollows (by decide) (fun _ => rfl) (by decide)
    (progresses_arguments hexpr.progresses) (fun input _ => hexpr.spells input)
    (fun _ hpost _ => hexpr.quiet hpost) hpre hkind

omit hexpr hfollows in
/-- A node of one token that does not end a line. -/
theorem advances_node_takeAs {tag leaf : Kind} (hpre : Lines pre) (hkind : kind pre ≠ .newline) :
    (node tag (takeAs leaf)).Advances pre :=
  advances_node hpre fun _ hpost hsame => advances_takeAs _ hpost (by rwa [hsame])

omit hexpr hfollows in
theorem advances_literal (hpre : Lines pre) (hkind : kind pre ≠ .newline) :
    (node .literal take).Advances pre :=
  advances_node hpre fun _ hpost hsame => advances_take hpost (by rwa [hsame])

theorem parts_primary (hpre : Lines pre) :
    Parts fin stop Operand (swallowsAll · = true) (primary expr (pre ++ fin))
      (primary expr (pre ++ stop)) := by
  obtain ⟨rule, hrule, -⟩ := exists_primary expr pre
  have heq : ∀ right, primary expr (pre ++ right) = rule (pre ++ right) := fun right => by
    refine hrule.eq_of_kind_eq (hpre.kind_append right) fun hbracket => ?_
    rw [hpre.tail_append, (hpre.tail (by rw [hbracket]; decide)).isWordAt_append]
  rw [heq, heq]
  cases hrule with
  | literal hkind =>
      refine (advances_literal hpre fun hline => ?_).parts
      simp [hline, literalKinds] at hkind
  | string hkind => exact absurd hkind hpre.kind_ne_stringStart
  | object hkind =>
      exact parts_list hfollows (by decide) (fun _ => rfl) (by decide)
        (progresses_property hexpr.spells) (fun input hword => spells_property hexpr.spells hword)
        (fun pre hpre hword => (parts_property hexpr hfollows hpre (by
          rintro hline
          simp [hline, startsProperty, Kind.isWord] at hword)).mono (fun _ _ h => h.1)
            fun _ _ h => h) hpre (by rw [hkind]; decide)
  | loop hkind hfor => exact parts_forExpr hexpr hfollows hpre hkind hfor
  | array hkind =>
      exact parts_list hfollows (by decide) (fun _ => rfl) (by decide)
        (progresses_arrayItem hexpr.progresses) (fun input _ => spells_node _ (hexpr.spells _))
        (fun _ hpost _ => (parts_arrayItem hexpr hpost).mono (fun _ _ h => h.1) fun _ _ h => h)
        hpre (by rw [hkind]; decide)
  | paren hkind => exact parts_paren hexpr hfollows hpre hkind
  | word hword =>
      refine (advances_node_takeAs hpre fun hline => ?_).parts
      simp [hline, Kind.isWord] at hword
  | absent => exact (advances_absent _ hpre).parts

end Expr

/-! Levels -/

/-- At the end of the file and at a declaration, what goes on from some trees leaves them as they
are. -/
def Rests (next : List Tree → Rule) : Prop :=
  ∀ left input, kind input = .eof ∨ kind input = .ident → next left input = keep left input

/-- A rule of a level goes on from some trees. -/
def SplitsFrom (fin stop : List Lexeme) (next : List Tree → Rule) : Prop :=
  ∀ left left' pre, Lines pre → Parts fin stop Operand (swallowsAll · = true)
    (next left (pre ++ fin)) (next left' (pre ++ stop))

theorem Parts.into (hfollows : Follows fin stop) {next : List Tree → Rule}
    (hrests : Rests next)
    (hfirst : Parts fin stop Operand (swallowsAll · = true) (first input) (first' input'))
    (hnext : SplitsFrom fin stop next)
    (hspells : ∀ left input, (next left input).Spells left input) :
    Parts fin stop Operand (swallowsAll · = true) (first.into next input)
      (first'.into next input') := by
  have hfin := hrests (first input).trees fin (.inl hfollows.kind_fin)
  rw [into_apply, into_apply]
  cases hfirst with
  | before post hpost ha hb =>
      rw [ha, hb]
      cases hnext (first input).trees (first' input').trees post hpost with
      | before last hlast ha hb => exact .before last hlast ha hb
      | «at» ha hb hleaves h => exact .at ha hb hleaves h
      | past ha hb hleaves h => exact .past ha hb hleaves h
  | «at» ha hb hleaves h =>
      rw [ha, hb, hfin, hrests _ stop (.inr hfollows.kind_stop)]
      exact .at rfl rfl hleaves h
  | past ha hb hleaves h =>
      rw [ha, hfin]
      exact .past rfl (Nat.lt_of_le_of_lt (hspells _ _).length_le hb) hleaves h

structure Level.Splits (fin stop : List Lexeme) (level : Level) : Prop where
  expr : Rule.Splits fin stop level.expr
  unary : ∀ pre, Lines pre → Parts fin stop Operand (swallowsAll · = true)
    (level.unary (pre ++ fin)) (level.unary (pre ++ stop))
  unary_fin : (level.unary fin).trees = [.node .missing []]
  links : SplitsFrom fin stop level.links
  operators : ∀ least, SplitsFrom fin stop (level.operators least)
  links_rests : Rests level.links
  operators_rests : ∀ least, Rests (level.operators least)

theorem splitsFrom_keep : SplitsFrom fin stop keep := fun _ _ pre hpre =>
  .before pre hpre rfl rfl

namespace Level

variable {level : Level} (hfollows : Follows fin stop)

include hfollows

theorem Splits.binary (h : level.Splits fin stop) (hspells : level.Spells) (least : Nat)
    (hpre : Lines pre) : Parts fin stop Operand (swallowsAll · = true)
      (level.binary least (pre ++ fin)) (level.binary least (pre ++ stop)) :=
  Parts.settle hpre fun post hpost _ _ => (h.unary post hpost).into hfollows
    (h.operators_rests least) (h.operators least) (hspells.operators least)

/-- A choice whose last expression misses at the end of the lines takes what comes behind them for
it. -/
theorem Splits.choice (h : level.Splits fin stop) (left left' : List Tree) (hpre : Lines pre) :
    Parts fin stop Operand (swallowsAll · = true) (level.choice left (pre ++ fin))
      (level.choice left' (pre ++ stop)) := by
  unfold Level.choice ifAt
  rw [hpre.kind_append, hpre.kind_append]
  split
  · rename_i hkind
    have hexpr := h.expr
    have hyes := (advances_take hpre (by rw [hkind]; decide)).andThen_parts
      (local_swallowsAll _) (local_swallowsAll _) fun post hpost => hexpr.quiet hpost
    have hmisses : Grows Misses := fun left right _ ⟨before, h⟩ =>
      ⟨left ++ before, by rw [h, List.append_assoc]⟩
    have hcolon := hyes.seq hfollows hmisses hmisses
      (fun post hpost _ => (advances_expect .colon (by decide) hpost).parts)
      (spells_expect _) (hfollows.rest_expect (by decide))
      (fun trees _ _ => ⟨trees, by rw [hfollows.trees_expect (by decide)]⟩)
      fun trees _ _ => ⟨trees, by rw [hfollows.trees_expect (by decide)]⟩
    have hlacks : ∀ trees, Misses trees →
        swallowsAll (trees ++ (level.expr fin).trees) = true ∨
          Lacks (trees ++ (level.expr fin).trees) := by
      rintro trees ⟨before, rfl⟩
      exact .inr ⟨before, by rw [hexpr.trees_fin]⟩
    have hno := hcolon.seq_takes hfollows Operand.grows grows_lacks
      (fun post hpost _ => (hexpr.parts post hpost).mono (fun _ _ h => h) fun _ _ h => .inl h)
      hexpr.spells (hexpr.length_stop hfollows) (fun trees _ => hlacks trees)
      fun trees _ => hlacks trees
    refine hno.wrap (by decide) (fun trees hleaves h => ?_) fun trees hleaves h => ?_
    · obtain ⟨hquiet, hends⟩ := h.prepend left hleaves
      rw [(not_goesOn_of_endsInToken hends).2, hquiet, Bool.false_or]
    · rw [Bool.or_eq_true]
      rcases grows_lacks left hleaves h with h | h
      · exact .inr h
      · exact .inl (goesOn_of_lacks h).2
  · exact splitsFrom_keep left left' pre hpre

omit hfollows in
theorem rests_choice (level : Level) : Rests level.choice := by
  intro left input hkind
  rw [Level.choice, ifAt, if_neg]
  rcases hkind with hkind | hkind <;> simp [hkind]

theorem Splits.ternary (h : level.Splits fin stop) (hspells : level.Spells) (hpre : Lines pre) :
    Parts fin stop Operand (swallowsAll · = true) (level.ternary (pre ++ fin))
      (level.ternary (pre ++ stop)) := by
  rw [ternary_eq]
  exact Parts.settle hpre fun post hpost _ _ => (h.binary hfollows hspells 1 hpost).into hfollows
    (rests_choice level) (fun left left' _ hpost => h.choice hfollows left left' hpost)
    hspells.choice

omit hfollows in
theorem advances_member (hpre : Lines pre) : member.Advances pre := by
  by_cases h : (kind pre).isWord = true
  · refine ⟨pre.tail, hpre.tail fun hline => ?_, fun right => ?_⟩
    · simp [hline, Kind.isWord] at h
    · rw [member, hpre.kind_append, if_pos h]
      exact (hpre.takeAs _ _).1
  · obtain ⟨post, hpost, hrest⟩ := advances_absent .propertyName hpre
    refine ⟨post, hpost, fun right => ?_⟩
    rw [member, hpre.kind_append, if_neg h, hrest]

theorem Splits.link (h : level.Splits fin stop) (left left' : List Tree) (hpre : Lines pre)
    (hkind : kind pre ≠ .newline) :
    Parts fin stop Operand (swallowsAll · = true) (level.link left (pre ++ fin))
      (level.link left' (pre ++ stop)) := by
  have hexpr := h.expr
  have htake := advances_take hpre hkind
  unfold Level.link
  rw [hpre.kind_append, hpre.kind_append]
  split
  · exact ((htake.andThen fun _ hpost => advances_member hpost).parts).wrap_quiet (by decide)
      fun _ => rfl
  · have hindex := htake.andThen_parts (local_swallowsAll _) (local_swallowsAll _)
      fun post hpost => hexpr.quiet hpost
    exact (hindex.andThen hfollows (local_swallowsAll _) (local_swallowsAll _)
      (fun _ hpost _ => (advances_expect .rBrack (by decide) hpost).parts)
      (spells_expect _) (hfollows.rest_expect (by decide))).wrap_quiet (by decide) fun _ => rfl
  · exact ((parts_arguments hexpr hfollows hpre hkind).mono (fun _ _ h => h.1)
      fun _ _ h => h).wrap_quiet (by decide) fun _ => rfl

/-! What the rules leave at the end of the file -/

theorem settle_fin : settle fin = ⟨[], [], fin⟩ := by
  obtain ⟨eof, -, rfl⟩ := hfollows.fin
  rfl

theorem trees_absent_fin (expected : Expected) :
    (absent expected fin).trees = [.node .missing []] := by
  obtain ⟨eof, -, rfl⟩ := hfollows.fin
  rfl

theorem trees_tooDeep_fin : (tooDeep fin).trees = [.node .missing []] := by
  have hkind := hfollows.kind_fin
  have hskip : skipTo [.newline] .nestingTooDeep fin =
      ⟨[], (report .nestingTooDeep fin).errors ++ [], fin⟩ := by
    rw [skipTo, andThen_apply]
    simp [report, unlessAt, hkind, done]
  rw [tooDeep, andThen_apply, hskip]
  exact trees_absent_fin hfollows .expression

theorem trees_into_fin {next : List Tree → Rule} (hrests : Rests next)
    (hspells : (first fin).Spells [] fin) (h : (first fin).trees = [.node .missing []]) :
    ((settle ++ first.into next) fin).trees = [.node .missing []] := by
  rw [andThen_apply, settle_fin hfollows, into_apply, (hfollows.nothing hspells).1, h,
    hrests _ fin (.inl hfollows.kind_fin)]
  rfl

theorem Splits.ternary_fin (h : level.Splits fin stop) (hspells : level.Spells) :
    (level.ternary fin).trees = [.node .missing []] := by
  rw [ternary_eq]
  exact trees_into_fin hfollows (rests_choice level) (hspells.binary 1 fin)
    (trees_into_fin hfollows (h.operators_rests 1) (hspells.unary fin) h.unary_fin)

omit hfollows in
theorem rests_links_above (below : Option Level) : Rests (above below).links := by
  intro left input hkind
  rw [links_above, if_neg]
  rcases hkind with hkind | hkind <;> simp [hkind, startsLink]

omit hfollows in
theorem rests_operators_above (below : Option Level) (least : Nat) :
    Rests ((above below).operators least) := by
  intro left input hkind
  rw [operators_above]
  rcases hkind with hkind | hkind <;> rw [hkind] <;> rfl

omit hfollows in
theorem splitsFrom_tooDeep : SplitsFrom fin stop fun left => keep left ++ tooDeep := by
  intro left left' pre hpre
  obtain ⟨post, hpost, hrest⟩ := advances_tooDeep hpre
  exact .before post hpost (hrest fin) (hrest stop)

theorem parts_chain (hexpr : Rule.Splits fin stop level.expr)
    (hlinks : SplitsFrom fin stop level.links) (hrests : Rests level.links)
    (hspells : level.Spells) (hpre : Lines pre) :
    Parts fin stop Operand (swallowsAll · = true) (level.chain (pre ++ fin))
      (level.chain (pre ++ stop)) :=
  Parts.settle hpre fun _ hpost _ _ =>
    (parts_primary hexpr hfollows hpost).into hfollows hrests hlinks hspells.links

section Above

variable {below : Option Level} (hspells : ∀ level ∈ below, level.Spells)
  (h : ∀ level ∈ below, level.Splits fin stop)

include hspells h

theorem splits_expr_above (hprogresses : ∀ level ∈ below, level.Progresses) :
    Rule.Splits fin stop (above below).expr := by
  refine ⟨fun pre hpre => ?_, (spells_above hspells).expr,
    (progresses_above hspells hprogresses).expr, ?_⟩
  · cases below with
    | none => exact (advances_tooDeep hpre).parts
    | some level => exact (h level rfl).ternary hfollows (hspells level rfl) hpre
  · cases below with
    | none => exact trees_tooDeep_fin hfollows
    | some level => exact (h level rfl).ternary_fin hfollows (hspells level rfl)

theorem splitsFrom_links_above : SplitsFrom fin stop (above below).links := by
  intro left left' pre hpre
  rw [links_above, links_above, hpre.kind_append, hpre.kind_append]
  split
  · rename_i hlink
    have hline : kind pre ≠ .newline := by
      rintro hline
      simp [hline, startsLink] at hlink
    cases below with
    | none => exact splitsFrom_tooDeep left left' pre hpre
    | some level =>
        have hlevel := h level rfl
        exact Parts.into hfollows hlevel.links_rests (hlevel.link hfollows left left' hpre hline)
          hlevel.links (hspells level rfl).links
  · exact .before pre hpre rfl rfl

theorem splitsFrom_operators_above (least : Nat) :
    SplitsFrom fin stop ((above below).operators least) := by
  intro left left' pre hpre
  rw [operators_above, operators_above, hpre.kind_append, hpre.kind_append]
  split
  · exact .before pre hpre rfl rfl
  · rename_i hprecedence
    split
    · exact .before pre hpre rfl rfl
    · cases below with
      | none => exact splitsFrom_tooDeep left left' pre hpre
      | some level =>
          have hlevel := h level rfl
          have hline : kind pre ≠ .newline := by
            rintro hline
            simp [hline, Kind.precedence] at hprecedence
          refine Parts.into hfollows (hlevel.operators_rests least) ?_ (hlevel.operators least)
            ((hspells level rfl).operators least)
          refine Parts.wrap_quiet (by decide) (fun _ => rfl) ?_
          exact (advances_take hpre hline).andThen_parts (local_swallowsAll _)
            (local_swallowsAll _) fun post hpost =>
              (hlevel.binary hfollows (hspells level rfl) _ hpost).mono (fun _ _ h => h.1)
                fun _ _ h => h

theorem splits_above (hprogresses : ∀ level ∈ below, level.Progresses) :
    (above below).Splits fin stop := by
  have hall := spells_above hspells
  have hexpr := splits_expr_above hfollows hspells h hprogresses
  have hlinks := splitsFrom_links_above hfollows hspells h
  refine ⟨hexpr, fun pre hpre => ?_, ?_, hlinks, splitsFrom_operators_above hfollows hspells h,
    rests_links_above below, rests_operators_above below⟩
  · rw [unary_above, unary_above, hpre.kind_append, hpre.kind_append]
    split
    · rename_i hsign
      cases below with
      | none => exact (advances_tooDeep hpre).parts
      | some level =>
          refine Parts.settle hpre fun post hpost hcurrent _ =>
            Parts.wrap_quiet (by decide) (fun _ => rfl) ?_
          have hline : kind post ≠ .newline := by
            rw [kind, hcurrent, ← kind]
            rintro hline
            simp [hline] at hsign
          exact (advances_take hpost hline).andThen_parts (local_swallowsAll _)
            (local_swallowsAll _) fun post hpost =>
              ((h level rfl).unary post hpost).mono (fun _ _ h => h.1) fun _ _ h => h
    · exact parts_chain hfollows hexpr hlinks (rests_links_above below) hall hpre
  · rw [unary_above, if_neg (by simp [hfollows.kind_fin])]
    refine trees_into_fin hfollows (rests_links_above below) (spells_primary hall.expr fin) ?_
    rw [primary_of_not_startsExpr (by rw [hfollows.kind_fin]; rfl)]
    exact trees_absent_fin hfollows .expression

end Above

theorem Splits.chain (h : level.Splits fin stop) (hspells : level.Spells) (hpre : Lines pre) :
    Parts fin stop Operand (swallowsAll · = true) (level.chain (pre ++ fin))
      (level.chain (pre ++ stop)) :=
  parts_chain hfollows h.expr h.links h.links_rests hspells hpre

end Level

theorem splits_level (hfollows : Follows fin stop) (budget : Nat) :
    (level budget).Splits fin stop :=
  level_induction (fun _ hbelow known => Level.splits_above hfollows (known spells_level) hbelow
    (known progresses_level)) budget

end

end Rule

end Caret
