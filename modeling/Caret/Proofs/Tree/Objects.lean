import Caret.Proofs.Tree.Leaf

/-!
# Objects that take a key

Of the trees of two texts, an object of the first ones that has a token of its own at some place can
have a counterpart in the second ones: an object that starts where it does, with a key behind that
place. This is kept by what is put around the trees or behind them.
-/

namespace Caret

namespace Tree

mutual

/-- The objects in a tree, each with the byte that it starts at and its children. -/
def objects (start : Nat) : Tree → List (Nat × List Tree)
  | leaf _ _ => []
  | node kind children =>
    (if kind = .object then [(start, children)] else []) ++ objectsAll start children

def objectsAll (start : Nat) : List Tree → List (Nat × List Tree)
  | [] => []
  | tree :: trees => tree.objects start ++ objectsAll (start + tree.size) trees

end

/-- Trees that start at a byte have a token of their own at a place. -/
def HasTokenAt (place start : Nat) (trees : List Tree) : Prop :=
  ∃ before kind text after, trees = before ++ leaf kind text :: after ∧ kind.isTrivia = false ∧
    text ≠ "" ∧ start + sizeAll before = place

/-- Trees that start at a byte have a property at a place whose key is a name. -/
def HasKeyAt (name : String) (place start : Nat) (trees : List Tree) : Prop :=
  ∃ before more after, trees =
      before ++ node .objectProperty (node .propertyKey [leaf .ident name] :: more) :: after ∧
    start + sizeAll before = place

/-- Each object of the first trees that has a token of its own at a place has a counterpart in the
second ones, with a key so many bytes behind the place. -/
structure Gains (name : String) (shift place : Nat) (trees trees' : List Tree) : Prop where
  lt : place < sizeAll trees
  exists_object : ∀ base start children, (start, children) ∈ objectsAll base trees →
    HasTokenAt (base + place) start children →
      ∃ children', (start, children') ∈ objectsAll base trees' ∧
        HasKeyAt name (base + place + shift) start children'

/-- The objects of the first trees are those of the second ones and of others behind them. -/
structure Keeps (left trees : List Tree) (more : List Tree) : Prop where
  size : sizeAll trees = sizeAll (left ++ more)
  objects : ∀ base, objectsAll base trees = objectsAll base (left ++ more)

variable {name : String} {shift place start base : Nat} {kind : Kind} {text : String}
  {left right trees trees' more more' children : List Tree}

theorem objectsAll_append (start : Nat) (left right : List Tree) :
    objectsAll start (left ++ right) =
      objectsAll start left ++ objectsAll (start + sizeAll left) right := by
  induction left generalizing start with
  | nil => rfl
  | cons tree trees ih =>
      rw [List.cons_append, objectsAll, objectsAll, ih, sizeAll, List.append_assoc, Nat.add_assoc]

theorem objectsAll_node (hkind : kind ≠ .object) (start : Nat) (trees : List Tree) :
    objectsAll start [node kind trees] = objectsAll start trees := by
  simp [objectsAll, objects, hkind]

theorem objectsAll_map_ofToken (base : Nat) (tokens : List Token) :
    objectsAll base (tokens.map ofToken) = [] := by
  induction tokens generalizing base with
  | nil => rfl
  | cons token tokens ih => exact ih _

theorem objectsAll_object (start : Nat) (trees : List Tree) :
    objectsAll start [node .object trees] = (start, trees) :: objectsAll start trees := by
  simp [objectsAll, objects]

mutual

theorem bounds_objects (tree : Tree) (base : Nat) (h : (start, children) ∈ tree.objects base) :
    base ≤ start ∧ start + sizeAll children ≤ base + tree.size := by
  cases tree with
  | leaf kind text => simp [objects] at h
  | node kind trees =>
      rw [objects, List.mem_append] at h
      rw [size]
      rcases h with h | h
      · split at h
        · obtain ⟨rfl, rfl⟩ := Prod.mk.inj (List.mem_singleton.1 h)
          exact ⟨Nat.le_refl _, Nat.le_refl _⟩
        · cases h
      · exact bounds_objectsAll trees base h

/-- An object is inside of the trees that it is in. -/
theorem bounds_objectsAll (trees : List Tree) (base : Nat)
    (h : (start, children) ∈ objectsAll base trees) :
    base ≤ start ∧ start + sizeAll children ≤ base + sizeAll trees := by
  cases trees with
  | nil => simp [objectsAll] at h
  | cons tree trees =>
      rw [objectsAll, List.mem_append] at h
      rw [sizeAll]
      rcases h with h | h
      · have := bounds_objects tree base h
        omega
      · have := bounds_objectsAll trees (base + tree.size) h
        omega

end

/-- A token of some trees is inside of them. -/
theorem HasTokenAt.bounds (h : HasTokenAt place start trees) :
    start ≤ place ∧ place < start + sizeAll trees := by
  obtain ⟨before, kind, text, after, rfl, -, hne, rfl⟩ := h
  have hsize : text.utf8ByteSize ≠ 0 := by simpa using hne
  rw [sizeAll_append, sizeAll, size]
  omega

theorem HasKeyAt.append (h : HasKeyAt name place start trees) (more : List Tree) :
    HasKeyAt name place start (trees ++ more) := by
  obtain ⟨before, inner, after, rfl, hplace⟩ := h
  exact ⟨before, inner, after ++ more, by simp, hplace⟩

namespace Gains

theorem append (h : Gains name shift place trees trees') (more more' : List Tree) :
    Gains name shift place (trees ++ more) (trees' ++ more') := by
  refine ⟨?_, fun base start children hobject htoken => ?_⟩
  · have := h.lt
    rw [sizeAll_append]
    omega
  · rw [objectsAll_append, List.mem_append] at hobject
    rcases hobject with hobject | hobject
    · obtain ⟨children', hobject', hkey⟩ := h.exists_object base start children hobject htoken
      refine ⟨children', ?_, hkey⟩
      rw [objectsAll_append]
      exact List.mem_append_left _ hobject'
    · have := (bounds_objectsAll more _ hobject).1
      have := htoken.bounds
      have := h.lt
      omega

theorem prepend (h : Gains name shift place trees trees') (left : List Tree) :
    Gains name shift (sizeAll left + place) (left ++ trees) (left ++ trees') := by
  refine ⟨?_, fun base start children hobject htoken => ?_⟩
  · have := h.lt
    rw [sizeAll_append]
    omega
  · rw [objectsAll_append, List.mem_append] at hobject
    rcases hobject with hobject | hobject
    · have := (bounds_objectsAll left _ hobject).2
      have := htoken.bounds
      omega
    · rw [← Nat.add_assoc] at htoken ⊢
      obtain ⟨children', hobject', hkey⟩ :=
        h.exists_object (base + sizeAll left) start children hobject htoken
      refine ⟨children', ?_, hkey⟩
      rw [objectsAll_append]
      exact List.mem_append_right _ hobject'

/-- What keeps the trees in front of others gains what they do. -/
theorem keeps (h : Gains name shift place left right) (hleft : Keeps left trees more)
    (hright : Keeps right trees' more') : Gains name shift place trees trees' := by
  obtain ⟨hlt, hobject⟩ := h.append more more'
  exact ⟨hleft.size ▸ hlt, fun base => by
    rw [hleft.objects base, hright.objects base]
    exact hobject base⟩

theorem node (h : Gains name shift place trees trees') (hkind : kind ≠ .object) :
    Gains name shift place [node kind trees] [node kind trees'] := by
  refine ⟨?_, fun base => ?_⟩
  · rw [sizeAll, sizeAll, Nat.add_zero, size]
    exact h.lt
  · rw [objectsAll_node hkind, objectsAll_node hkind]
    exact h.exists_object base

/-- A token that is no child of an object is nothing to be kept. -/
theorem of_leaf (htext : text ≠ "") (left right trees' : List Tree) :
    Gains name shift (sizeAll left) (left ++ leaf kind text :: right) trees' := by
  have hsize : text.utf8ByteSize ≠ 0 := by simpa using htext
  refine ⟨?_, fun base start children hobject htoken => ?_⟩
  · rw [sizeAll_append, sizeAll, size]
    omega
  · have hbounds := htoken.bounds
    rw [objectsAll_append, objectsAll, objects, List.nil_append, List.mem_append] at hobject
    rcases hobject with hobject | hobject
    · have := (bounds_objectsAll left _ hobject).2
      omega
    · have := (bounds_objectsAll right _ hobject).1
      rw [size] at this
      omega

end Gains

/-- Trees that gain a key for a token of an object and, if they have that token themselves, are the
children of an object that does. -/
structure GainsIn (name : String) (shift place : Nat) (trees trees' : List Tree) : Prop
    extends Gains name shift place trees trees' where
  key : ∀ base, HasTokenAt (base + place) base trees →
    HasKeyAt name (base + place + shift) base trees'

namespace GainsIn

theorem append (h : GainsIn name shift place trees trees') (more more' : List Tree) :
    GainsIn name shift place (trees ++ more) (trees' ++ more') := by
  refine ⟨h.toGains.append more more', fun base htoken => ?_⟩
  refine (h.key base ?_).append more'
  obtain ⟨before, kind, text, after, htrees, hkind, htext, hplace⟩ := htoken
  rcases List.append_eq_append_iff.1 htrees with ⟨middle, rfl, -⟩ | ⟨middle, rfl, hmore⟩
  · have := h.lt
    rw [sizeAll_append] at hplace
    omega
  · cases middle with
    | nil =>
        have := h.lt
        rw [List.append_nil] at this
        omega
    | cons first middle =>
        obtain ⟨rfl, -⟩ := List.cons.inj hmore
        exact ⟨before, kind, text, middle, rfl, hkind, htext, hplace⟩

theorem prepend (h : GainsIn name shift place trees trees') (left : List Tree) :
    GainsIn name shift (sizeAll left + place) (left ++ trees) (left ++ trees') := by
  refine ⟨h.toGains.prepend left, fun base htoken => ?_⟩
  obtain ⟨before, kind, text, after, htrees, hkind, htext, hplace⟩ := htoken
  have hsize : text.utf8ByteSize ≠ 0 := by simpa using htext
  have hinner : HasTokenAt (base + sizeAll left + place) (base + sizeAll left) trees := by
    rcases List.append_eq_append_iff.1 htrees with ⟨middle, rfl, rfl⟩ | ⟨middle, rfl, hrest⟩
    · exact ⟨middle, kind, text, after, rfl, hkind, htext, by
        rw [sizeAll_append] at hplace
        omega⟩
    · cases middle with
      | nil =>
          refine ⟨[], kind, text, after, hrest.symm, hkind, htext, ?_⟩
          rw [List.append_nil] at hplace ⊢
          simp only [sizeAll]
          omega
      | cons first middle =>
          obtain ⟨rfl, -⟩ := List.cons.inj hrest
          rw [sizeAll_append, sizeAll, size] at hplace
          omega
  obtain ⟨before', inner, after', rfl, hplace'⟩ := h.key _ hinner
  refine ⟨left ++ before', inner, after', by simp, ?_⟩
  rw [sizeAll_append]
  omega

theorem object (h : GainsIn name shift place trees trees') :
    Gains name shift place [node .object trees] [node .object trees'] := by
  refine ⟨?_, fun base start children hobject htoken => ?_⟩
  · rw [sizeAll, sizeAll, Nat.add_zero, size]
    exact h.lt
  · rw [objectsAll_object] at hobject ⊢
    rcases List.mem_cons.1 hobject with heq | hobject
    · obtain ⟨rfl, rfl⟩ := Prod.mk.inj heq
      exact ⟨trees', List.mem_cons_self, h.key _ htoken⟩
    · obtain ⟨children', hobject', hkey⟩ := h.exists_object base start children hobject htoken
      exact ⟨children', List.mem_cons_of_mem _ hobject', hkey⟩

end GainsIn

/-- What is said of the trees of two texts from a place on stays true in front of others and behind
them. -/
structure Stays (gains : Nat → List Tree → List Tree → Prop) : Prop where
  append : ∀ {place trees trees'}, gains place trees trees' → ∀ more more',
    gains place (trees ++ more) (trees' ++ more')
  prepend : ∀ {place trees trees'}, gains place trees trees' → ∀ left,
    gains (sizeAll left + place) (left ++ trees) (left ++ trees')

theorem stays_gains (name : String) (shift : Nat) : Stays (Gains name shift) :=
  ⟨Gains.append, Gains.prepend⟩

theorem stays_gainsIn (name : String) (shift : Nat) : Stays (GainsIn name shift) :=
  ⟨GainsIn.append, GainsIn.prepend⟩

theorem keeps_nil (left : List Tree) : Keeps left left [] :=
  ⟨by rw [List.append_nil], fun base => by rw [List.append_nil]⟩

theorem keeps_append (left more : List Tree) : Keeps left (left ++ more) more :=
  ⟨rfl, fun _ => rfl⟩

theorem keeps_node (hkind : kind ≠ .object) (left more : List Tree) :
    Keeps left [node kind (left ++ more)] more :=
  ⟨by rw [sizeAll, sizeAll, size, Nat.add_zero], fun base => objectsAll_node hkind base _⟩

theorem Keeps.trans (h : Keeps left trees more) (hnext : Keeps trees trees' more') :
    Keeps left trees' (more ++ more') := by
  refine ⟨?_, fun base => ?_⟩
  · rw [hnext.size, ← List.append_assoc, sizeAll_append, sizeAll_append, h.size]
  · rw [hnext.objects, ← List.append_assoc, objectsAll_append, objectsAll_append, h.objects, h.size]

end Tree

end Caret
