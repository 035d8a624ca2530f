import Caret.Proofs.Context.Expected
import Caret.Proofs.Text.Bytes

/-!
# A name behind a token

A name that is put in place of what a completion replaces stands behind the token in front of that,
with nothing but trivia between them. Where code goes on behind the token, the tokens are the same
up to there. The cursor may stand inside the token, though: then the name comes behind the first
character of it.
-/

namespace Caret

open Lexer (cutLeaves spelling endsInCode leftBefore)

/-- Leaves that are no words are of the kinds of their tokens. -/
theorem Kind.isTrivia_cases {kind : Kind} (h : kind.isTrivia = true) :
    kind = whitespace ∨ kind = lineComment ∨ kind = blockComment := by
  revert h
  cases kind <;> decide

namespace Document

variable {text inserted name : String} {offset : Nat} {replacement : Span}
  {last front word : Locus} {left right : List Locus} {before after : List (Kind × String)}
  {part : Kind × String} {half more : List Char}

/-- A leaf that code can go on behind, and the bytes that a completion replaces behind it: those of
the word at the cursor, or none. The leaf ends there if it is more than one character and what is
left of it is none of its kind. -/
structure Behind (text : String) (offset : Nat) (replacement : Span) (last : Locus) : Prop where
  mem : last ∈ (locus text).leaves
  trivia : last.kind.isTrivia = false
  code : endsInCode last.kind = true
  before : last.span.start < replacement.start
  front : ∃ front ∈ (locus text).leaves,
    front.span.start < replacement.start ∧ replacement.start ≤ front.span.stop
  between : ∀ other ∈ (locus text).leaves, last.span.stop ≤ other.span.start →
    other.span.start < replacement.start → other.kind.isTrivia = true
  word : replacement = .empty offset ∧ (∀ other ∈ (locus text).leaves,
      other.kind.isWord = true → other.span.start < offset → offset ≤ other.span.stop → False) ∨
    ∃ word ∈ (locus text).leaves, word.kind.isWord = true ∧ word.span = replacement ∧
      word.span.start < offset ∧ offset ≤ word.span.stop
  comment : (locus text).isCommentAt offset = false
  whole : last.kind.isSign = true ∨ last.kind.splits = true ∨ last.kind.isWord = true ∨
    last.span.stop ≤ replacement.start

/-- The token right in front of what is replaced is the leaf itself, or it is trivia. -/
theorem Behind.eq_or_isTrivia (h : Behind text offset replacement last)
    (hfront : front ∈ (locus text).leaves) (hstart : front.span.start < replacement.start)
    (hstop : replacement.start ≤ front.span.stop) :
    front = last ∨ front.kind.isTrivia = true ∧ last.span.stop ≤ front.span.start := by
  have hbefore := h.before
  rcases eq_or_apart hfront h.mem with heq | hlt | hlt
  · exact .inl heq
  · omega
  · exact .inr ⟨h.between front hfront hlt hstart, hlt⟩

/-- A word at the cursor comes right behind the token in front of it. -/
theorem Behind.stop_eq (h : Behind text offset replacement last)
    (hfront : front ∈ (locus text).leaves) (hstart : front.span.start < replacement.start)
    (hstop : replacement.start ≤ front.span.stop) :
    replacement = .empty offset ∧ (∀ other ∈ (locus text).leaves, other.kind.isWord = true →
        other.span.start < offset → offset ≤ other.span.stop → False) ∨
      front.span.stop = replacement.start ∧ ∃ word ∈ (locus text).leaves, word.kind.isWord = true ∧
        word.span = replacement ∧ word.span.start < offset ∧ offset ≤ word.span.stop := by
  rcases h.word with hnone | ⟨word, hword, hkind, hspan, hoffset⟩
  · exact .inl hnone
  · refine .inr ⟨?_, word, hword, hkind, hspan, hoffset⟩
    rw [← hspan] at hstart hstop ⊢
    have hne := start_lt_stop hword
    rcases eq_or_apart hfront hword with rfl | hlt | hlt
    · omega
    · omega
    · omega

/-- A leaf right behind another one comes next. -/
theorem exists_next (hleaves : (locus text).leaves = left ++ front :: right)
    (hword : word ∈ (locus text).leaves) (hstop : front.span.stop = word.span.start) :
    ∃ rest, right = word :: rest := by
  have hne := start_lt_stop hword
  cases right with
  | nil =>
      have hpairwise := pairwise_leaves text
      rw [hleaves] at hword hpairwise
      rcases List.mem_append.1 hword with hmem | hmem
      · have hbefore := (List.pairwise_append.1 hpairwise).2.2 word hmem front List.mem_cons_self
        have hfront : front ∈ (locus text).leaves := by simp [hleaves]
        have := start_lt_stop hfront
        omega
      · obtain rfl := List.mem_singleton.1 hmem
        omega
  | cons next rest =>
      have hsplit : (locus text).leaves = (left ++ [front]) ++ next :: rest := by simp [hleaves]
      have hnext : next ∈ (locus text).leaves := by simp [hsplit]
      have hspan := span_of_leaves hleaves
      have hspan' := span_of_leaves hsplit
      have hstart : next.span.start = word.span.start := by
        rw [← hstop, hspan, hspan']
        simp
      refine ⟨rest, ?_⟩
      have hne' := start_lt_stop hnext
      rcases eq_or_apart hnext hword with rfl | hlt | hlt
      · rfl
      · omega
      · omega

/-- Where a place in or behind a leaf is, in the characters of the text. -/
structure Cuts (front : Locus) (before : List (Kind × String)) (part : Kind × String)
    (half more : List Char) (start : Nat) : Prop where
  text : part.2.toList = half ++ more
  ne_nil : half ≠ []
  size : (String.ofList (spelling before ++ half)).utf8ByteSize = start
  front_start : front.span.start = (String.ofList (spelling before)).utf8ByteSize
  front_stop : front.span.stop =
    (String.ofList (spelling before)).utf8ByteSize + part.2.utf8ByteSize

theorem Cuts.start_lt {start : Nat} (h : Cuts front before part half more start) :
    front.span.start < start := by
  have hne : (String.ofList half).utf8ByteSize ≠ 0 := fun hzero =>
    h.ne_nil (Bytes.eq_nil_of_utf8ByteSize hzero)
  rw [h.front_start, ← h.size, Bytes.utf8ByteSize_append]
  omega

theorem Cuts.stop_eq {start : Nat} (h : Cuts front before part half more start) :
    front.span.stop = start + (String.ofList more).utf8ByteSize := by
  rw [h.front_stop, ← h.size, ← String.ofList_toList (s := part.2), h.text,
    Bytes.utf8ByteSize_append, Bytes.utf8ByteSize_append]
  omega

theorem Cuts.le_stop {start : Nat} (h : Cuts front before part half more start) :
    start ≤ front.span.stop := by
  have := h.stop_eq
  omega

theorem Cuts.more_eq_nil {start : Nat} (h : Cuts front before part half more start)
    (hstop : front.span.stop = start) : more = [] := by
  have := h.stop_eq
  exact Bytes.eq_nil_of_utf8ByteSize (by omega)

/-- Trivia that a name can be put behind or into. -/
theorem Behind.takes_name_of_isTrivia (h : Behind text offset replacement last)
    (hcuts : Cuts front before part half more replacement.start)
    (hleaves : (locus text).leaves = left ++ front :: right)
    (hparts : cutLeaves [] text.toList = before ++ part :: after) (hfront : front.leaf.Takes part)
    (hright : List.Forall₂ (fun locus part => locus.leaf.Takes part) right after)
    (htrivia : front.kind.isTrivia = true) :
    part.1 = .whitespace ∨ more = [] ∧ part.1 = .blockComment ∧
      (Locus.isCutOffComment part.2 = false ∨ after ≠ []) := by
  have hmem : front ∈ (locus text).leaves := by simp [hleaves]
  have hkind : part.1 = front.kind := hfront.kind_eq (by
    change front.kind.isWord = false
    rcases Kind.isTrivia_cases htrivia with hkind | hkind | hkind <;> rw [hkind] <;> rfl)
  have htext : front.text = part.2 := hfront.2
  rcases h.stop_eq hmem hcuts.start_lt hcuts.le_stop with
    ⟨hspan, -⟩ | ⟨hstop, word, hword, hisWord, hspan, -⟩
  · have hoffset : replacement.start = offset := congrArg Span.start hspan
    rw [hoffset] at hcuts
    obtain ⟨hline, hblock⟩ := closed_of_isCommentAt h.comment hmem hcuts.start_lt hcuts.le_stop
    rcases Kind.isTrivia_cases htrivia with hblank | hcomment | hcomment
    · exact .inl (hkind.trans hblank)
    · exact absurd hcomment hline
    · obtain ⟨hend, hclosed⟩ := hblock hcomment
      rw [htext] at hclosed
      exact .inr ⟨hcuts.more_eq_nil hend.symm, hkind.trans hcomment, .inl hclosed⟩
  · rw [← hspan] at hstop
    obtain ⟨rest, rfl⟩ := exists_next hleaves hword hstop
    obtain ⟨next, others, hnext, -, rfl⟩ := List.forall₂_cons_left_iff.1 hright
    rcases Kind.isTrivia_cases htrivia with hblank | hcomment | hcomment
    · exact .inl (hkind.trans hblank)
    · -- a newline comes after such a comment, and no word
      have hline : part = (.lineComment, part.2) := Prod.ext (hkind.trans hcomment) rfl
      rw [hline] at hparts
      have hnewline := Lexer.kind_after_lineComment hparts
      have hother : word.kind.isWord = next.1.isWord := hnext.1.isWord_eq
      rw [hnewline, hisWord] at hother
      cases hother
    · rw [hspan] at hstop
      exact .inr ⟨hcuts.more_eq_nil hstop, hkind.trans hcomment, .inr (by simp)⟩

/-- The leaf is not cut, or it is one of two characters. -/
theorem Behind.takes_name_of_eq (h : Behind text offset replacement last)
    (hcuts : Cuts last before part half more replacement.start)
    (hparts : cutLeaves [] text.toList = before ++ part :: after) (hlast : last.leaf.Takes part) :
    more = [] ∧ endsInCode part.1 = true ∧ part.1 ≠ .blockComment ∨
      more ≠ [] ∧ part.1.splits = true ∧ part.1 = last.kind ∧ replacement = .empty offset := by
  by_cases hmore : more = []
  · refine .inl ⟨hmore, ?_, ?_⟩
    · cases hword : last.kind.isWord with
      | false =>
          rw [hlast.kind_eq hword]
          exact h.code
      | true =>
          have hisWord : part.1.isWord = true := hlast.1.isWord_eq.symm.trans hword
          cases hkind : part.1 <;> first
            | rfl
            | (rw [hkind] at hisWord; cases hisWord)
    · intro hcomment
      have htrivia : last.kind.isTrivia = part.1.isTrivia := hlast.1.isTrivia_eq
      rw [hcomment, h.trivia] at htrivia
      cases htrivia
  · have hcut : replacement.start < last.span.stop :=
      Nat.lt_of_le_of_ne hcuts.le_stop fun heq => hmore (hcuts.more_eq_nil heq.symm)
    rcases h.stop_eq h.mem h.before (Nat.le_of_lt hcut) with ⟨hspan, hnone⟩ | ⟨hstop, -⟩
    · have hoffset : replacement.start = offset := congrArg Span.start hspan
      have hword : last.kind.isWord = false := by
        rw [← Bool.not_eq_true]
        intro hword
        have hbefore := h.before
        exact hnone last h.mem hword (by omega) (by omega)
      have hkind : part.1 = last.kind := hlast.kind_eq hword
      refine .inr ⟨hmore, ?_, hkind, hspan⟩
      rw [hkind]
      rcases h.whole with hsign | hsplits | hisWord | hle
      · have hlength : part.2.toList.length = 1 :=
          Lexer.length_of_isSign (by rw [hparts]; simp) (hkind ▸ hsign)
        rw [hcuts.text, List.length_append] at hlength
        have := List.length_pos_iff.2 hcuts.ne_nil
        have := List.length_pos_iff.2 hmore
        omega
      · exact hsplits
      · rw [hword] at hisWord
        cases hisWord
      · omega
    · omega

theorem exists_cuts {start rest : List Char}
    (hleaves : (locus text).leaves = left ++ front :: right)
    (hparts : cutLeaves [] text.toList = before ++ part :: after)
    (hleft : List.Forall₂ (fun locus part => locus.leaf.Takes part) left before)
    (hfront : front.leaf.Takes part) (hsplit : start ++ rest = text.toList)
    (hstart : front.span.start < (String.ofList start).utf8ByteSize)
    (hstop : (String.ofList start).utf8ByteSize ≤ front.span.stop) :
    ∃ half more, Cuts front before part half more (String.ofList start).utf8ByteSize ∧
      start = spelling before ++ half := by
  obtain ⟨hfrontStart, hfrontStop⟩ := size_of_leaves hleaves hleft hfront
  have hall : spelling before ++ (part.2.toList ++ spelling after) = start ++ rest :=
    (spelling_of_leaves hparts).trans hsplit.symm
  obtain ⟨half, rfl, hpart⟩ := Bytes.exists_of_append_le hall (by omega)
  have hsize := Bytes.utf8ByteSize_append (spelling before) half
  have hhalf : half ++ rest = part.2.toList ++ spelling after := hpart.symm
  obtain ⟨more, htext, -⟩ := Bytes.exists_of_append_le hhalf (by
    rw [String.ofList_toList]
    omega)
  refine ⟨half, more, ⟨htext, ?_, rfl, hfrontStart, hfrontStop⟩, rfl⟩
  rintro rfl
  simp at hstart
  omega

/-- The characters in front of what is replaced and those behind it. -/
theorem Behind.exists_ends (h : Behind text offset replacement last)
    (hoffset : Bytes.isBoundary offset text = true) :
    ∃ start rest stop tail, start ++ rest = text.toList ∧ stop ++ tail = text.toList ∧
      (String.ofList start).utf8ByteSize = replacement.start ∧
      (String.ofList stop).utf8ByteSize = replacement.stop := by
  rcases h.word with ⟨rfl, -⟩ | ⟨word, hword, -, rfl, -⟩
  · obtain ⟨start, rest, hsplit, hsize⟩ := Bytes.exists_of_isBoundary hoffset
    exact ⟨start, rest, start, rest, hsplit, hsplit, hsize, hsize⟩
  · obtain ⟨left, right, hleaves⟩ := List.append_of_mem hword
    obtain ⟨before, part, after, hparts, hleft, htakes, -⟩ := exists_parts_of_leaves hleaves
    obtain ⟨hstart, hstop⟩ := size_of_leaves hleaves hleft htakes
    have hall := spelling_of_leaves hparts
    refine ⟨spelling before, _, spelling before ++ part.2.toList, spelling after, hall, ?_,
      hstart.symm, ?_⟩
    · rw [List.append_assoc]
      exact hall
    · rw [Bytes.utf8ByteSize_append, String.ofList_toList]
      exact hstop.symm

/-- The tokens of a text and of the one with a name in it: the same up to a leaf, then that leaf or
the first character of it, trivia and the name. -/
structure Joint (text inserted name : String) (offset start : Nat) (last : Locus) where
  left : List Locus
  right : List Locus
  before : List (Kind × String)
  after : List (Kind × String)
  part : Kind × String
  part' : Kind × String
  gap : List (Kind × String)
  after' : List (Kind × String)
  leaves : (locus text).leaves = left ++ last :: right
  takes_left : List.Forall₂ (fun locus part => locus.leaf.Takes part) left before
  takes : last.leaf.Takes part
  parts : cutLeaves [] text.toList = before ++ part :: after
  parts' : cutLeaves [] inserted.toList = before ++ part' :: (gap ++ (.ident, name) :: after')
  gap_trivia : ∀ other ∈ gap, other.1.isTrivia = true
  size : (String.ofList (spelling (before ++ part' :: gap))).utf8ByteSize = start + 1
  whole_or_half : part' = part ∨
    part.1.splits = true ∧ part'.1 = part.1.half ∧ part.1 = last.kind ∧
      last.span.start < offset ∧ offset < last.span.stop ∧
      (String.ofList (spelling (before ++ [part']))).utf8ByteSize = start

theorem exists_cutLeaves_inserted {tail : List Char} {start : Nat}
    (hname : Identifier.isValid name = true)
    (htail : ∀ d ∈ tail.head?, Identifier.continuesWith d = false)
    (hinserted : inserted.toList = (spelling before ++ half) ++ ' ' :: (name.toList ++ tail))
    (hcuts : Cuts front before part half more start)
    (hparts : cutLeaves [] text.toList = before ++ part :: after)
    (hkind : part.1 = .whitespace ∨ more = [] ∧ endsInCode part.1 = true ∧
      (part.1 = .blockComment → Locus.isCutOffComment part.2 = false ∨ after ≠ []) ∨
      more ≠ [] ∧ part.1.splits = true) :
    ∃ after', cutLeaves [] inserted.toList =
        before ++ (leftBefore part.1 half more ++ (.ident, name) :: after') ∧
      (String.ofList (spelling (before ++ leftBefore part.1 half more))).utf8ByteSize =
        start + 1 := by
  obtain ⟨rest, -, hcut⟩ :=
    Lexer.exists_cutLeaves_insert hparts hcuts.text hcuts.ne_nil hkind hname
  obtain ⟨after', hafter⟩ := hcut tail htail
  refine ⟨after', ?_, ?_⟩
  · rw [hinserted, List.append_assoc, hafter]
  · have hsize : spelling (before ++ leftBefore part.1 half more) =
        (spelling before ++ half) ++ [' '] := by
      rw [spelling, List.flatMap_append, List.append_assoc]
      exact congrArg _ (Lexer.spelling_leftBefore part.1 half more)
    rw [hsize, Bytes.utf8ByteSize_append, hcuts.size]
    rfl

theorem isTrivia_of_mem_leftBefore {kind : Kind}
    (h : kind = .whitespace ∨ more = [] ∧ kind.isTrivia = true)
    (hpart : part ∈ leftBefore kind half more) : part.1.isTrivia = true := by
  unfold leftBefore at hpart
  split at hpart
  · obtain rfl := List.mem_singleton.1 hpart
    rfl
  · rename_i hblank
    obtain ⟨rfl, htrivia⟩ := h.resolve_left hblank
    simp only [List.mem_cons, List.not_mem_nil, or_false] at hpart
    rcases hpart with rfl | rfl
    · exact htrivia
    · rfl

/-- The name comes right behind the leaf, or behind the first character of it. -/
theorem Behind.exists_joint_of_le_stop {start rest tail : List Char}
    (h : Behind text offset replacement last)
    (hname : Identifier.isValid name = true) (hsplit : start ++ rest = text.toList)
    (hstart : (String.ofList start).utf8ByteSize = replacement.start)
    (htail : ∀ d ∈ tail.head?, Identifier.continuesWith d = false)
    (hinserted : inserted.toList = start ++ ' ' :: (name.toList ++ tail))
    (hstop : replacement.start ≤ last.span.stop) :
    Nonempty (Joint text inserted name offset replacement.start last) := by
  have hbefore := h.before
  obtain ⟨left, right, hleaves⟩ := List.append_of_mem h.mem
  obtain ⟨before, part, after, hparts, hleft, htakes, -⟩ := exists_parts_of_leaves hleaves
  obtain ⟨half, more, hcuts, rfl⟩ := exists_cuts hleaves hparts hleft htakes hsplit
    (by omega) (by omega)
  rw [hstart] at hcuts
  have hshape := h.takes_name_of_eq hcuts hparts htakes
  have hblank : part.1 ≠ .whitespace := fun hblank => by
    have htrivia : last.kind.isTrivia = part.1.isTrivia := htakes.1.isTrivia_eq
    rw [hblank, h.trivia] at htrivia
    cases htrivia
  have hkind : part.1 = .whitespace ∨ more = [] ∧ endsInCode part.1 = true ∧
      (part.1 = .blockComment → Locus.isCutOffComment part.2 = false ∨ after ≠ []) ∨
      more ≠ [] ∧ part.1.splits = true := by
    rcases hshape with ⟨hmore, hends, hcomment⟩ | ⟨hmore, hsplits, -⟩
    · exact .inr (.inl ⟨hmore, hends, fun heq => absurd heq hcomment⟩)
    · exact .inr (.inr ⟨hmore, hsplits⟩)
  obtain ⟨after', hparts', hsize⟩ :=
    exists_cutLeaves_inserted hname htail hinserted hcuts hparts hkind
  rw [leftBefore, if_neg hblank] at hparts' hsize
  refine ⟨⟨left, right, before, after, part, _, [(.whitespace, " ")], after', hleaves, hleft,
    htakes, hparts, hparts', by simp [Kind.isTrivia], hsize, ?_⟩⟩
  rcases hshape with ⟨rfl, -⟩ | ⟨hmore, hsplits, hsame, hspan⟩
  · have htext := hcuts.text
    rw [List.append_nil] at htext
    rw [if_pos rfl, ← htext, String.ofList_toList]
    exact .inl rfl
  · have hoffset : replacement.start = offset := congrArg Span.start hspan
    have hstop := hcuts.stop_eq
    have hne : (String.ofList more).utf8ByteSize ≠ 0 := fun hzero =>
      hmore (Bytes.eq_nil_of_utf8ByteSize hzero)
    refine .inr ⟨hsplits, ?_, hsame, by omega, by omega, ?_⟩
    · rw [if_neg hmore]
    · rw [← hcuts.size]
      simp [spelling]

/-- The name comes behind trivia, or into white space, and the leaf stays as it is. -/
theorem Behind.exists_joint_of_isTrivia {start rest tail : List Char}
    (h : Behind text offset replacement last)
    (hname : Identifier.isValid name = true) (hsplit : start ++ rest = text.toList)
    (hstart : (String.ofList start).utf8ByteSize = replacement.start)
    (htail : ∀ d ∈ tail.head?, Identifier.continuesWith d = false)
    (hinserted : inserted.toList = start ++ ' ' :: (name.toList ++ tail))
    (hfront : front ∈ (locus text).leaves) (hlt : front.span.start < replacement.start)
    (hle : replacement.start ≤ front.span.stop) (htrivia : front.kind.isTrivia = true)
    (hafter : last.span.stop ≤ front.span.start) :
    Nonempty (Joint text inserted name offset replacement.start last) := by
  obtain ⟨left, between, right, hleaves, hbetween⟩ := exists_between h.mem hfront hafter
  have hleaves' : (locus text).leaves = (left ++ last :: between) ++ front :: right := by
    simp [hleaves]
  obtain ⟨before, part, after, hparts, hleft, htakes, hright⟩ := exists_parts_of_leaves hleaves
  obtain ⟨middle, behind, others, rfl, hmiddle, hbehind, hothers⟩ := exists_parts_of_takes hright
  have hparts' : cutLeaves [] text.toList = (before ++ part :: middle) ++ behind :: others := by
    simp [hparts]
  have hleft' := List.rel_append hleft (List.Forall₂.cons htakes hmiddle)
  obtain ⟨half, more, hcuts, rfl⟩ := exists_cuts hleaves' hparts' hleft' hbehind hsplit
    (by omega) (by omega)
  rw [hstart] at hcuts
  have hshape := h.takes_name_of_isTrivia hcuts hleaves' hparts' hbehind hothers htrivia
  have hkind : behind.1 = .whitespace ∨ more = [] ∧ endsInCode behind.1 = true ∧
      (behind.1 = .blockComment → Locus.isCutOffComment behind.2 = false ∨ others ≠ []) ∨
      more ≠ [] ∧ behind.1.splits = true := by
    rcases hshape with hblank | ⟨hmore, hcomment, hclosed⟩
    · exact .inl hblank
    · exact .inr (.inl ⟨hmore, by rw [hcomment]; rfl, fun _ => hclosed⟩)
  have hblanks : behind.1 = .whitespace ∨ more = [] ∧ behind.1.isTrivia = true := by
    rcases hshape with hblank | ⟨hmore, hcomment, -⟩
    · exact .inl hblank
    · exact .inr ⟨hmore, by rw [hcomment]; rfl⟩
  have hmiddle' : ∀ other ∈ middle, other.1.isTrivia = true := by
    refine (forall_isTrivia_iff hmiddle).1 fun leaf hleaf => ?_
    obtain ⟨hin, hlast, hbefore⟩ := hbetween leaf hleaf
    have := start_lt_stop hin
    exact h.between leaf hin hlast (by omega)
  obtain ⟨after', hcut, hsize⟩ :=
    exists_cutLeaves_inserted hname htail hinserted hcuts hparts' hkind
  refine ⟨⟨left, between ++ front :: right, before, _, part, part,
    middle ++ leftBefore behind.1 half more, after', hleaves, hleft, htakes, hparts,
    by simp [hcut], fun other hmem => ?_, by simp [← hsize], .inl rfl⟩⟩
  rcases List.mem_append.1 hmem with hmem | hmem
  · exact hmiddle' other hmem
  · exact isTrivia_of_mem_leftBefore hblanks hmem

/-- With a name at a boundary, the tokens are the same up to there. -/
theorem Behind.exists_joint {start rest tail : List Char} (h : Behind text offset replacement last)
    (hname : Identifier.isValid name = true) (hsplit : start ++ rest = text.toList)
    (hstart : (String.ofList start).utf8ByteSize = replacement.start)
    (htail : ∀ d ∈ tail.head?, Identifier.continuesWith d = false)
    (hinserted : inserted.toList = start ++ ' ' :: (name.toList ++ tail)) :
    Nonempty (Joint text inserted name offset replacement.start last) := by
  obtain ⟨front, hfront, hlt, hle⟩ := h.front
  rcases h.eq_or_isTrivia hfront hlt hle with rfl | ⟨htrivia, hafter⟩
  · exact h.exists_joint_of_le_stop hname hsplit hstart htail hinserted hle
  · exact h.exists_joint_of_isTrivia hname hsplit hstart htail hinserted hfront hlt hle htrivia hafter

/-- Off the insides of characters, other text can take the place of what is replaced. -/
theorem Behind.exists_replace (h : Behind text offset replacement last)
    (hoffset : Bytes.isBoundary offset text = true) (written : String) :
    ∃ inserted, Bytes.replace text replacement.start replacement.stop written = some inserted := by
  obtain ⟨start, rest, stop, tail, hstart, hstop, hstartSize, hstopSize⟩ := h.exists_ends hoffset
  rw [← hstartSize, ← hstopSize]
  exact ⟨_, Bytes.replace_of_append hstart hstop written⟩

/-- With a name and what does not continue it in place of what is replaced, the tokens are the same
up to there. -/
theorem Behind.joint_of_replace {written : String} {stop : Char} {others : List Char}
    (h : Behind text offset replacement last) (hname : Identifier.isValid name = true)
    (hwritten : written.toList = stop :: others) (hstop : Identifier.continuesWith stop = false)
    (hreplace : Bytes.replace text replacement.start replacement.stop (" " ++ name ++ written) =
      some inserted) :
    Nonempty (Joint text inserted name offset replacement.start last) := by
  simp only [Bytes.replace, bind, Option.bind_eq_some_iff, Option.some.injEq] at hreplace
  obtain ⟨start, htake, tail, -, hinserted⟩ := hreplace
  obtain ⟨hsize, rest, hsplit⟩ := Bytes.take_eq_some_iff.1 htake
  have hlist : inserted.toList = start ++ ' ' :: (name.toList ++ (written.toList ++ tail)) := by
    simp [← hinserted]
  refine h.exists_joint hname hsplit hsize (fun d hd => ?_) hlist
  rw [hwritten, List.cons_append, List.head?_cons] at hd
  exact Option.some.inj hd ▸ hstop

theorem Joint.isTrivia_half {start : Nat}
    (joint : Joint text inserted name offset start last)
    (h : last.kind.isTrivia = false) : joint.part'.1.isTrivia = false := by
  rcases joint.whole_or_half with hwhole | ⟨hsplits, hhalf, -⟩
  · rw [hwhole]
    exact joint.takes.1.isTrivia_eq.symm.trans h
  · rw [hhalf]
    cases hkind : joint.part.1 <;> rw [hkind] at hsplits <;> first
      | rfl
      | exact absurd hsplits (by decide)

end Document

end Caret
