import Caret.Proofs.Context.Anchor
import Caret.Proofs.Document.Region

/-!
# The site of an offset

An offset is resolved to the first placeholder that stands there in the order of the text, and else
to the node around the token there. A search that passes over the children in front of the offset and
stops at the first one behind it misses no placeholder: the bytes of a node are those of its children
one after the other, and a placeholder touches the offset that it stands at. At most two tokens touch
an offset, the left one ending where the right one starts.
-/

namespace Caret

/-- A placeholder that starts at an offset. -/
def Locus.isMissingAt (offset : Nat) (locus : Locus) : Bool :=
  locus.kind = .missing && locus.span.start = offset

namespace Element

mutual

/-- The first placeholder of an element that starts at an offset. -/
def walk (offset : Nat) (left right : List Element) (above : List Crumb) : Element → Option Locus
  | .token .. => none
  | .node kind span children =>
    let here : Crumb := ⟨.node kind span children, left, right⟩
    if Locus.isMissingAt offset ⟨here, above⟩ then some ⟨here, above⟩
    else walkAll offset [] (here :: above) children

/-- The children in front of the offset are passed over, and the walk ends at the first node behind
it. -/
def walkAll (offset : Nat) (left : List Element) (above : List Crumb) :
    List Element → Option Locus
  | [] => none
  | element :: right =>
    if element.isNode && offset < element.span.start then none
    else if element.span.stop < offset then walkAll offset (element :: left) above right
    else (element.walk offset left right above).or (walkAll offset (element :: left) above right)

end

end Element

namespace Locus

/-- The first placeholder below a place that starts at an offset, found by walking from child to
child. -/
def walkMissing (root : Locus) (offset : Nat) : Option Locus :=
  Element.walkAll offset [] (root.here :: root.above) root.element.children

end Locus

/-! ### The walk finds the first placeholder -/

namespace Tree

variable {left right : List Element} {above : List Crumb} {locus : Locus} {offset : Nat}

theorem span_of_mem_search {tree : Tree} {start : Nat}
    (h : locus ∈ (tree.locate start).search (fun _ => true) left right above) :
    start ≤ locus.span.start ∧ locus.span.start ≤ start + tree.size := by
  have hlocated : Locus.Located ⟨⟨tree.locate start, left, right⟩, above⟩ := ⟨tree, start, rfl⟩
  have hunder : Locus.Under ⟨⟨tree.locate start, left, right⟩, above⟩ locus :=
    Locus.mem_search_true_iff.1 h
  have hcontains := Span.contains_iff.1 (hunder.contains hlocated)
  have hsize := (hunder.located hlocated).start_le_stop
  have hspan : Locus.span ⟨⟨tree.locate start, left, right⟩, above⟩ = ⟨start, start + tree.size⟩ :=
    span_locate tree start
  rw [hspan] at hcontains
  exact ⟨hcontains.1, Nat.le_trans hsize hcontains.2⟩

theorem start_le_of_mem_searchAll {trees : List Tree} {start : Nat}
    (h : locus ∈ Element.searchAll (fun _ => true) left above (locateAll start trees)) :
    start ≤ locus.span.start := by
  induction trees generalizing start left with
  | nil => cases h
  | cons tree trees ih =>
      rw [locateAll, Element.searchAll] at h
      rcases List.mem_append.1 h with hmem | hmem
      · exact (span_of_mem_search hmem).1
      · exact Nat.le_trans (Nat.le_add_right _ _) (ih hmem)

theorem find?_filter_eq_none {loci : List Locus}
    (h : ∀ locus ∈ loci, locus.span.start ≠ offset) :
    (loci.filter Locus.isNode).find? (Locus.isMissingAt offset) = none := by
  rw [List.find?_eq_none]
  intro locus hmem
  simp [Locus.isMissingAt, h locus (List.mem_of_mem_filter hmem)]

mutual

theorem walk_locate (tree : Tree) (start offset : Nat) (left right : List Element)
    (above : List Crumb) :
    (tree.locate start).walk offset left right above =
      (((tree.locate start).search (fun _ => true) left right above).filter
        Locus.isNode).find? (Locus.isMissingAt offset) := by
  cases tree with
  | leaf kind text => rfl
  | node kind children =>
      rw [locate, Element.walk, Element.search, if_pos rfl]
      dsimp only
      rw [walkAll_locateAll children, List.filter_cons_of_pos rfl, List.find?_cons]
      by_cases hmissing : Locus.isMissingAt offset ⟨⟨.node kind ⟨start, start + sizeAll children⟩
          (locateAll start children), left, right⟩, above⟩ = true
      · rw [if_pos hmissing, hmissing]
      · rw [if_neg hmissing, Bool.eq_false_iff.2 hmissing]

theorem walkAll_locateAll (trees : List Tree) (start offset : Nat) (left : List Element)
    (above : List Crumb) :
    Element.walkAll offset left above (locateAll start trees) =
      ((Element.searchAll (fun _ => true) left above (locateAll start trees)).filter
        Locus.isNode).find? (Locus.isMissingAt offset) := by
  cases trees with
  | nil => rfl
  | cons tree trees =>
      have hspan := span_locate tree start
      rw [locateAll, Element.walkAll, Element.searchAll, walk_locate tree,
        walkAll_locateAll trees, List.filter_append, List.find?_append, hspan]
      dsimp only
      have hfirst : offset < start ∨ start + tree.size < offset →
          ∀ locus ∈ (tree.locate start).search (fun _ => true) left
            (locateAll (start + tree.size) trees) above, locus.span.start ≠ offset := by
        intro hapart locus hmem
        have hbounds := span_of_mem_search hmem
        omega
      by_cases hbehind : (tree.locate start).isNode = true ∧ offset < start
      · -- All that is left starts behind the offset.
        have hrest : ∀ locus ∈ Element.searchAll (fun _ => true) (tree.locate start :: left) above
            (locateAll (start + tree.size) trees), locus.span.start ≠ offset := by
          intro locus hmem
          have hbound := start_le_of_mem_searchAll hmem
          omega
        rw [if_pos (by simpa using hbehind), find?_filter_eq_none (hfirst (Or.inl hbehind.2)),
          find?_filter_eq_none hrest]
        rfl
      · rw [if_neg (by simpa using hbehind)]
        by_cases hfront : start + tree.size < offset
        · rw [if_pos hfront, find?_filter_eq_none (hfirst (Or.inr hfront)), Option.none_or]
        · rw [if_neg hfront]

end

end Tree

namespace Document

variable {text : String} {offset : Nat} {left right token : Locus}

/-- No placeholder is missed by the walk. -/
theorem walkMissing_eq_find? (text : String) (offset : Nat) :
    (locus text).walkMissing offset =
      (locus text).descendants.find? (Locus.isMissingAt offset) := by
  obtain ⟨trees, -, htree, -⟩ := exists_trees_parse text
  have hroot : locus text = .root ((Tree.node .root trees).locate 0) :=
    congrArg (fun tree : Tree => Locus.root (tree.locate 0)) htree
  rw [hroot]
  exact Tree.walkAll_locateAll trees 0 offset [] _

/-! ### The token at an offset -/

/-- The token that an offset is resolved to: the one that it is inside of, else the one that starts
there, and the one that ends there instead at the end of the text and in front of a string. -/
def Faces (text : String) (offset : Nat) (token : Locus) : Prop :=
  token ∈ (locus text).leaves ∧
    (token.span.start < offset ∧ offset < token.span.stop ∨
      token.span.start = offset ∧ (token.kind ≠ .stringStart ∨ offset = 0) ∨
      token.span.stop = offset ∧
        ∀ next ∈ (locus text).leaves, next.span.start = offset → next.kind = .stringStart)

theorem Faces.mem_tokensAt (h : Faces text offset token) :
    token ∈ (locus text).tokensAt offset := by
  obtain ⟨hleaf, hplace⟩ := h
  have hsize := start_lt_stop hleaf
  refine mem_tokensAt_iff.2 ⟨hleaf, ?_⟩
  rcases hplace with hplace | ⟨hstart, -⟩ | ⟨hstop, -⟩
  · omega
  · omega
  · omega

/-- An offset touches one token, or two that meet there. -/
theorem tokensAt_cases (text : String) (offset : Nat) :
    (locus text).tokensAt offset = [] ∨ (∃ token, (locus text).tokensAt offset = [token]) ∨
      ∃ left right, (locus text).tokensAt offset = [left, right] ∧
        left.span.stop = offset ∧ right.span.start = offset := by
  have htouch : ∀ token ∈ (locus text).tokensAt offset, token.span.start < token.span.stop ∧
      token.span.start ≤ offset ∧ offset ≤ token.span.stop := fun token hmem => by
    obtain ⟨hleaf, htouches⟩ := mem_tokensAt_iff.1 hmem
    exact ⟨start_lt_stop hleaf, htouches⟩
  have hpairwise : ((locus text).tokensAt offset).Pairwise fun left right =>
      left.span.stop ≤ right.span.start := by
    rw [Locus.tokensAt_eq_filter_leaves (located_locus text)]
    exact (pairwise_leaves text).filter _
  match htokens : (locus text).tokensAt offset with
  | [] => exact Or.inl rfl
  | [token] => exact Or.inr (Or.inl ⟨token, rfl⟩)
  | [left, right] =>
      rw [htokens, List.pairwise_pair] at hpairwise
      have hleft := htouch left (by simp [htokens])
      have hright := htouch right (by simp [htokens])
      exact Or.inr (Or.inr ⟨left, right, rfl, by omega, by omega⟩)
  | left :: middle :: right :: rest =>
      rw [htokens] at hpairwise htouch
      simp only [List.pairwise_cons] at hpairwise
      have hleft := hpairwise.1 middle (by simp)
      have hright := hpairwise.2.1 right (by simp)
      have hleftTouch := htouch left (by simp)
      have hmiddleTouch := htouch middle (by simp)
      have hrightTouch := htouch right (by simp)
      omega

theorem tokensAt_ne_nil (hne : text ≠ "") (hoffset : offset ≤ text.utf8ByteSize) :
    (locus text).tokensAt offset ≠ [] := by
  have hpos : 0 < text.utf8ByteSize := by
    rw [Nat.pos_iff_ne_zero, Ne, String.utf8ByteSize_eq_zero_iff]
    exact hne
  by_cases hzero : offset = 0
  · obtain ⟨leaf, hleaf, hstart, hstop⟩ := @exists_leaf_across text 1 Nat.one_pos hpos
    exact List.ne_nil_of_mem (mem_tokensAt_iff.2 ⟨hleaf, by omega, by omega⟩)
  · obtain ⟨leaf, hleaf, hstart, hstop⟩ := exists_leaf_across (Nat.pos_of_ne_zero hzero) hoffset
    exact List.ne_nil_of_mem (mem_tokensAt_iff.2 ⟨hleaf, Nat.le_of_lt hstart, hstop⟩)

theorem tokensAt_empty (offset : Nat) : (locus "").tokensAt offset = [] := by
  rw [List.eq_nil_iff_forall_not_mem]
  intro token hmem
  have hleaf := (mem_tokensAt_iff.1 hmem).1
  have hsize := start_lt_stop hleaf
  have hwhole := Span.contains_iff.1
    ((Locus.mem_leaves_iff.1 hleaf).1.contains (located_locus ""))
  rw [span_locus, String.utf8ByteSize_empty] at hwhole
  dsimp only at hwhole
  omega

/-- The only token that an offset touches faces it. -/
theorem faces_of_singleton (hoffset : offset ≤ text.utf8ByteSize)
    (htokens : (locus text).tokensAt offset = [token]) : Faces text offset token := by
  have hmem : token ∈ (locus text).tokensAt offset := htokens ▸ List.mem_singleton_self token
  obtain ⟨hleaf, hstart, hstop⟩ := mem_tokensAt_iff.1 hmem
  have hsize := start_lt_stop hleaf
  have honly : ∀ other ∈ (locus text).leaves, other.span.start ≤ offset →
      offset ≤ other.span.stop → other = token := by
    intro other hother hstart' hstop'
    have hmem' := mem_tokensAt_iff.2 ⟨hother, hstart', hstop'⟩
    rwa [htokens, List.mem_singleton] at hmem'
  refine ⟨hleaf, ?_⟩
  by_cases hstarts : token.span.start = offset
  · right
    left
    refine ⟨hstarts, Or.inr ?_⟩
    by_contra hne
    obtain ⟨leaf, hleaf', hbefore, hreach⟩ := exists_leaf_across (Nat.pos_of_ne_zero hne) hoffset
    have hsame := honly leaf hleaf' (Nat.le_of_lt hbefore) hreach
    rw [hsame] at hbefore
    omega
  · by_cases hstops : token.span.stop = offset
    · right
      right
      refine ⟨hstops, fun next hnext hat => ?_⟩
      have hsize' := start_lt_stop hnext
      have hsame := honly next hnext (by omega) (by omega)
      rw [hsame] at hat
      exact absurd hat hstarts
    · left
      omega

/-- Of two tokens that meet at an offset the right one faces it if it starts no string, and else the
left one. -/
theorem faces_pair_iff (htokens : (locus text).tokensAt offset = [left, right])
    (hleft : left.span.stop = offset) (hright : right.span.start = offset) :
    Faces text offset token ↔ token = if right.kind = .stringStart then left else right := by
  obtain ⟨hleftLeaf, -⟩ := mem_tokensAt_iff.1 (htokens ▸ List.mem_cons_self : left ∈ _)
  obtain ⟨hrightLeaf, -⟩ :=
    mem_tokensAt_iff.1 (htokens ▸ List.mem_cons_of_mem _ List.mem_cons_self : right ∈ _)
  have hleftSize := start_lt_stop hleftLeaf
  have hrightSize := start_lt_stop hrightLeaf
  have hnext : ∀ next ∈ (locus text).leaves, next.span.start = offset → next = right := by
    intro next hnext hstart
    have hsize := start_lt_stop hnext
    have hmem := mem_tokensAt_iff.2 ⟨hnext, Nat.le_of_eq hstart, (by omega : offset ≤ next.span.stop)⟩
    rw [htokens, List.mem_pair] at hmem
    rcases hmem with rfl | rfl
    · omega
    · rfl
  constructor
  · intro hfaces
    have hmem := hfaces.mem_tokensAt
    rw [htokens, List.mem_pair] at hmem
    obtain ⟨-, hplace⟩ := hfaces
    by_cases hstring : right.kind = .stringStart
    · rw [if_pos hstring]
      rcases hmem with rfl | rfl
      · rfl
      · rcases hplace with hplace | ⟨-, hne | hzero⟩ | ⟨hstop, -⟩
        · omega
        · exact absurd hstring hne
        · omega
        · omega
    · rw [if_neg hstring]
      rcases hmem with rfl | rfl
      · rcases hplace with hplace | ⟨hstart, -⟩ | ⟨-, hall⟩
        · omega
        · omega
        · exact absurd (hall right hrightLeaf hright) hstring
      · rfl
  · rintro rfl
    by_cases hstring : right.kind = .stringStart
    · rw [if_pos hstring]
      refine ⟨hleftLeaf, Or.inr (Or.inr ⟨hleft, fun next hleaf hstart => ?_⟩)⟩
      rw [hnext next hleaf hstart, hstring]
    · rw [if_neg hstring]
      exact ⟨hrightLeaf, Or.inr (Or.inl ⟨hright, Or.inl hstring⟩)⟩

theorem pickToken_eq_some_iff (hoffset : offset ≤ text.utf8ByteSize) :
    Locus.pickToken ((locus text).tokensAt offset) = some token ↔ Faces text offset token := by
  rcases tokensAt_cases text offset with hnil | ⟨only, honly⟩ | ⟨left, right, hpair, hleft, hright⟩
  · have hnone : ¬Faces text offset token := fun hfaces => by
      have hmem := hfaces.mem_tokensAt
      rw [hnil] at hmem
      cases hmem
    rw [hnil]
    exact ⟨nofun, fun hfaces => absurd hfaces hnone⟩
  · rw [honly, Locus.pickToken, Option.some_inj]
    constructor
    · rintro rfl
      exact faces_of_singleton hoffset honly
    · intro hfaces
      have hmem := hfaces.mem_tokensAt
      rw [honly, List.mem_singleton] at hmem
      exact hmem.symm
  · rw [faces_pair_iff hpair hleft hright, hpair, Locus.pickToken]
    by_cases hstring : right.kind = .stringStart
    · rw [if_pos hstring, if_pos hstring, Option.some_inj, eq_comm]
    · rw [if_neg hstring, if_neg hstring, Option.some_inj, eq_comm]

/-! ### The node at an offset -/

theorem missingAt_eq_find?_descendants (text : String) (offset : Nat) :
    (locus text).missingAt offset =
      (locus text).descendants.find? (Locus.isMissingAt offset) := by
  rw [Locus.missingAt_eq_find? (located_locus text), Locus.descendants, List.find?_filter]
  refine List.find?_congr fun node hmem => ?_
  by_cases hkind : node.kind = .missing
  · have hnode := isNode_of_missing (Locus.mem_search_true_iff.1 hmem) hkind
    simp [Locus.isMissingAt, hkind, hnode]
  · simp [Locus.isMissingAt, hkind]

theorem missingAt_empty (offset : Nat) : (locus "").missingAt offset = none := by
  have hkinds : (locus "").descendants.map Locus.kind = [.root] := by decide +kernel
  rw [missingAt_eq_find?_descendants, List.find?_eq_none]
  intro node hmem
  have hkind := List.mem_map_of_mem (f := Locus.kind) hmem
  rw [hkinds, List.mem_singleton] at hkind
  simp [Locus.isMissingAt, hkind]

theorem node_of_missing {missing : Locus} (h : (locus text).missingAt offset = some missing) :
    ((locus text).resolve offset).node = missing := by
  rw [Locus.resolve]
  dsimp only
  rw [h, Option.some_or, Option.getD_some]

theorem node_of_none (h : (locus text).missingAt offset = none) :
    ((locus text).resolve offset).node =
      ((Locus.pickToken ((locus text).tokensAt offset)).bind Locus.parent).getD (locus text) := by
  rw [Locus.resolve]
  dsimp only
  rw [h, Option.none_or]

theorem parent_of_faces (hoffset : offset ≤ text.utf8ByteSize)
    (hnone : (locus text).missingAt offset = none) (hfaces : Faces text offset token) :
    token.parent = some ((locus text).resolve offset).node := by
  obtain ⟨parent, -, hchild⟩ := exists_parent hfaces.1
  rw [node_of_none hnone, (pickToken_eq_some_iff hoffset).2 hfaces, Option.bind_some,
    Locus.parent_of_mem_children hchild, Option.getD_some]

theorem pickToken_eq_none_iff (hoffset : offset ≤ text.utf8ByteSize) :
    Locus.pickToken ((locus text).tokensAt offset) = none ↔ text = "" := by
  constructor
  · intro hnone
    by_contra hne
    obtain ⟨token, -, hpick⟩ := Locus.exists_pickToken (tokensAt_ne_nil hne hoffset)
    rw [hnone] at hpick
    cases hpick
  · rintro rfl
    rw [tokensAt_empty]
    rfl

/-- The bytes of the node that an offset is resolved to touch the offset. -/
theorem touches_resolve (hoffset : offset ≤ text.utf8ByteSize) :
    ((locus text).resolve offset).node.span.start ≤ offset ∧
      offset ≤ ((locus text).resolve offset).node.span.stop := by
  cases hmissing : (locus text).missingAt offset with
  | some missing =>
      obtain ⟨hunder, -, hstart⟩ := Locus.missingAt_eq_some (located_locus text) hmissing
      have hsize := (hunder.located (located_locus text)).start_le_stop
      rw [node_of_missing hmissing]
      omega
  | none =>
      cases hpick : Locus.pickToken ((locus text).tokensAt offset) with
      | none =>
          rw [node_of_none hmissing, hpick, Option.bind_none, Option.getD_none, span_locus]
          exact ⟨Nat.zero_le _, hoffset⟩
      | some token =>
          have hfaces := (pickToken_eq_some_iff hoffset).1 hpick
          obtain ⟨-, htouches⟩ := mem_tokensAt_iff.1 hfaces.mem_tokensAt
          obtain ⟨parent, hunder, hchild⟩ := exists_parent hfaces.1
          have hparent := Locus.parent_of_mem_children hchild
          rw [parent_of_faces hoffset hmissing hfaces, Option.some_inj] at hparent
          have hcontains := Span.contains_iff.1
            ((hunder.located (located_locus text)).of_mem_children hchild).2.1
          rw [hparent]
          omega

/-- The site of an offset: its token faces it, and its node is the first placeholder there, else the
node around the token, and else the root. The bytes of the node touch the offset. -/
theorem resolve_parse (text : String) (offset : Nat) (hoffset : offset ≤ text.utf8ByteSize) :
    (locus text).walkMissing offset =
        (locus text).descendants.find? (Locus.isMissingAt offset) ∧
      (∀ missing, (locus text).descendants.find? (Locus.isMissingAt offset) = some missing →
        ((locus text).resolve offset).node = missing) ∧
      ((locus text).descendants.find? (Locus.isMissingAt offset) = none → text ≠ "" →
        ∃ token, Faces text offset token ∧
          token.parent = some ((locus text).resolve offset).node) ∧
      (text = "" → ((locus text).resolve offset).node = locus text) ∧
      (∀ token, ((locus text).resolve offset).token = some token ↔ Faces text offset token) ∧
      (((locus text).resolve offset).token = none ↔ text = "") ∧
      ((locus text).resolve offset).node.span.start ≤ offset ∧
      offset ≤ ((locus text).resolve offset).node.span.stop := by
  have hfind := missingAt_eq_find?_descendants text offset
  refine ⟨walkMissing_eq_find? text offset, fun missing hmissing => ?_, fun hnone hne => ?_,
    fun hempty => ?_, fun token => pickToken_eq_some_iff hoffset, pickToken_eq_none_iff hoffset,
    touches_resolve hoffset⟩
  · exact node_of_missing (hfind.trans hmissing)
  · obtain ⟨token, -, hpick⟩ := Locus.exists_pickToken (tokensAt_ne_nil hne hoffset)
    have hfaces := (pickToken_eq_some_iff hoffset).1 hpick
    exact ⟨token, hfaces, parent_of_faces hoffset (hfind.trans hnone) hfaces⟩
  · subst hempty
    rw [node_of_none (missingAt_empty offset), tokensAt_empty]
    rfl

/-- In front of a string the token to the left counts. -/
theorem resolve_before_string :
    6 ≤ "var x='a'".utf8ByteSize ∧
      (locus "var x='a'").descendants.find? (Locus.isMissingAt 6) = none ∧
      ∃ token, Faces "var x='a'" 6 token ∧
        token.parent = some ((locus "var x='a'").resolve 6).node ∧
        (((locus "var x='a'").resolve 6).token).map Locus.ref = some ⟨.eq, 5, 6⟩ ∧
        ((locus "var x='a'").resolve 6).node.ref = ⟨.varDecl, 0, 9⟩ := by
  have hoffset : 6 ≤ "var x='a'".utf8ByteSize := by decide +kernel
  have hnone : ((locus "var x='a'").descendants.find? (Locus.isMissingAt 6)).map Locus.ref =
      none := by decide +kernel
  rw [Option.map_eq_none_iff] at hnone
  obtain ⟨-, -, hfound, -⟩ := resolve_parse "var x='a'" 6 hoffset
  obtain ⟨token, hfaces, hparent⟩ := hfound hnone (by decide)
  exact ⟨hoffset, hnone, token, hfaces, hparent, by decide +kernel, by decide +kernel⟩

end Document

end Caret
