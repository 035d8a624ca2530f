import Caret.Proofs.Context.Edits
import Caret.Proofs.Document.Rests

/-!
# The start of a line

At the start of a line right below the root the keywords of declarations are offered, whatever stands
on the lines in front of it. What is written there is blanks and the first characters of one word, so
the token in front is the newline or there is none. The rules that look over the newline find the end
of what is above, which asks for nothing more.
-/

namespace Caret

open Lexer (cutLeaves spelling)

/-- Whether some characters are the first ones of a word, if there are any. -/
def Identifier.beginsWord : List Char → Bool
  | [] => true
  | c :: cs => startsWith c && cs.all continuesWith

namespace Lexer

variable {modes : List Mode} {blanks part rest : List Char}

/-- Characters go on with all that pass a test, and behind these comes none. -/
theorem exists_run (test : Char → Bool) (cs : List Char) :
    ∃ more tail, cs = more ++ tail ∧ (∀ c ∈ more, test c = true) ∧
      ∀ c ∈ tail.head?, test c = false := by
  refine ⟨cs.takeWhile test, cs.dropWhile test, List.takeWhile_append_dropWhile.symm,
    List.all_eq_true.1 List.all_takeWhile, fun c hc => ?_⟩
  have hhead := List.head?_dropWhile_not test cs
  rw [Option.mem_def.1 hc] at hhead
  exact hhead

/-- In code a word is cut as a whole. -/
theorem cutLeaves_beginsWord (hcode : isInBody modes = false) (hne : part ≠ [])
    (hpart : Identifier.beginsWord part = true) (rest : List Char) :
    ∃ kind more after, cutLeaves modes (part ++ rest) =
      (kind, String.ofList (part ++ more)) :: after ∧ kind.isWord = true := by
  obtain ⟨c, cs, rfl⟩ := List.exists_cons_of_ne_nil hne
  obtain ⟨hstart, hall⟩ := Bool.and_eq_true_iff.1 hpart
  obtain ⟨more, tail, rfl, hmore, htail⟩ := exists_run Identifier.continuesWith rest
  have hwhole : (cs ++ more).all Identifier.continuesWith = true := by
    rw [List.all_append, hall, Bool.true_and]
    exact List.all_eq_true.2 hmore
  have hlist : (String.ofList (c :: cs ++ more)).toList = c :: (cs ++ more) := by simp
  have hcut := cutLeaves_word hcode hlist hstart hwhole htail
  rw [hlist, ← List.cons_append, List.append_assoc] at hcut
  refine ⟨_, more, _, hcut, ?_⟩
  unfold Kind.ofReserved
  split <;> rfl

/-- A word at the end of some characters of code that starts in front of them is the only token that
does. -/
theorem isWord_of_beginsWord {before after : List (Kind × String)} {kind : Kind} {text : String}
    (hcode : isInBody modes = false) (hpart : Identifier.beginsWord part = true)
    (h : cutLeaves modes (part ++ rest) = before ++ (kind, text) :: after)
    (hlt : (String.ofList (spelling before)).utf8ByteSize < (String.ofList part).utf8ByteSize) :
    kind.isWord = true ∧ (String.ofList part).utf8ByteSize ≤
      (String.ofList (spelling before)).utf8ByteSize + text.utf8ByteSize := by
  have hne : part ≠ [] := by
    rintro rfl
    exact absurd hlt (Nat.not_lt_zero _)
  obtain ⟨word, more, others, hcut, hword⟩ := cutLeaves_beginsWord hcode hne hpart rest
  rw [hcut] at h
  cases before with
  | nil =>
      obtain ⟨hfirst, -⟩ := List.cons.inj h
      obtain ⟨rfl, rfl⟩ := Prod.mk.inj hfirst
      rw [Bytes.utf8ByteSize_append]
      exact ⟨hword, by omega⟩
  | cons first before =>
      obtain ⟨rfl, -⟩ := List.cons.inj h
      rw [spelling, List.flatMap_cons, String.toList_ofList, Bytes.utf8ByteSize_append,
        Bytes.utf8ByteSize_append] at hlt
      omega

/-- Blanks and the first characters of a word are cut into blanks and that word. -/
theorem kind_of_lineStart {before after : List (Kind × String)} {kind : Kind} {text : String}
    (hcode : isInBody modes = false) (hblanks : ∀ c ∈ blanks, isBlank c = true)
    (hpart : Identifier.beginsWord part = true)
    (h : cutLeaves modes (blanks ++ (part ++ rest)) = before ++ (kind, text) :: after)
    (hlt : (String.ofList (spelling before)).utf8ByteSize <
      (String.ofList (blanks ++ part)).utf8ByteSize) :
    kind = .whitespace ∨ kind.isWord = true ∧ (String.ofList (blanks ++ part)).utf8ByteSize ≤
      (String.ofList (spelling before)).utf8ByteSize + text.utf8ByteSize := by
  by_cases hne : blanks = []
  · subst hne
    exact .inr (isWord_of_beginsWord hcode hpart h hlt)
  · -- blanks go on behind these if there is no word
    obtain ⟨more, rest', hrest, hmore, hhead, hword⟩ : ∃ more rest',
        part ++ rest = more ++ rest' ∧ (∀ c ∈ more, isBlank c = true) ∧
          (∀ c ∈ rest'.head?, isBlank c = false) ∧ (part = [] ∨ more = []) := by
      cases part with
      | nil =>
          obtain ⟨more, rest', rfl, hmore, hhead⟩ := exists_run isBlank rest
          exact ⟨more, rest', rfl, hmore, hhead, .inl rfl⟩
      | cons c cs =>
          refine ⟨[], _, rfl, by simp, fun d hd => ?_, .inr rfl⟩
          obtain rfl : c = d := by simpa using hd
          exact not_isBlank_of_startsWith (Bool.and_eq_true_iff.1 hpart).1
    have hcut := cutLeaves_blanks hcode (by simp [hne] : blanks ++ more ≠ []) (fun c hc => by
      rcases List.mem_append.1 hc with hc | hc
      · exact hblanks c hc
      · exact hmore c hc) hhead
    rw [List.append_assoc, ← hrest, h] at hcut
    cases before with
    | nil =>
        obtain ⟨hfirst, -⟩ := List.cons.inj hcut
        exact .inl (Prod.mk.inj hfirst).1
    | cons first before =>
        obtain ⟨rfl, hafter⟩ := List.cons.inj hcut
        rw [spelling, List.flatMap_cons, String.toList_ofList] at hlt ⊢
        rw [Bytes.utf8ByteSize_append, Bytes.utf8ByteSize_append,
          Bytes.utf8ByteSize_append blanks part] at hlt
        rcases hword with rfl | rfl
        · simp at hlt
          omega
        · rw [List.nil_append] at hrest
          rw [← hrest] at hafter
          obtain ⟨hisWord, hle⟩ := isWord_of_beginsWord hcode hpart hafter.symm (by
            change (String.ofList (List.flatMap _ before)).utf8ByteSize < _
            simp at hlt
            omega)
          refine .inr ⟨hisWord, ?_⟩
          rw [List.append_nil, Bytes.utf8ByteSize_append, Bytes.utf8ByteSize_append, Nat.add_assoc]
          exact Nat.add_le_add_left hle _

end Lexer

namespace Document

variable {text : String} {offset line : Nat} {newline last other : Locus}

/-- What is in front of an offset on its line is blanks and the first characters of one word, and the
line is the first one or starts behind a newline right below the root. -/
def AtLineStart (text : String) (offset : Nat) : Prop :=
  ∃ front blanks part rest, text.toList = front ++ (blanks ++ (part ++ rest)) ∧
    (String.ofList (front ++ (blanks ++ part))).utf8ByteSize = offset ∧
    (front = [] ∨ ∃ newline ∈ (locus text).tokens, newline.kind = .newline ∧
      newline.span.stop = (String.ofList front).utf8ByteSize) ∧
    (∀ c ∈ blanks, Lexer.isBlank c = true) ∧ Identifier.beginsWord part = true

/-- The leaves around the start of a line. -/
structure LineFrom (text : String) (offset line : Nat) : Prop where
  le : line ≤ offset
  newline : line = 0 ∨ ∃ newline ∈ (locus text).tokens, newline.kind = .newline ∧
    newline.span.stop = line
  blank_or_word : ∀ leaf ∈ (locus text).leaves, line ≤ leaf.span.start → leaf.span.start < offset →
    leaf.kind = .whitespace ∨ leaf.kind.isWord = true ∧ offset ≤ leaf.span.stop

theorem mem_leaves_of_mem_tokens (h : newline ∈ (locus text).tokens) :
    newline ∈ (locus text).leaves := by
  obtain ⟨hchild, htoken⟩ := List.mem_filter.1 h
  exact Locus.mem_leaves_iff.2 ⟨.child .root hchild, htoken⟩

/-- From a place in code on, the leaves are those of the characters there. -/
theorem blank_or_word_of_takes {modes : List Lexer.Mode} {left right : List Locus}
    {before after : List (Kind × String)} {blanks part rest : List Char}
    (hleaves : (locus text).leaves = left ++ right)
    (hleft : List.Forall₂ (fun locus part => locus.leaf.Takes part) left before)
    (hright : List.Forall₂ (fun locus part => locus.leaf.Takes part) right after)
    (hcode : Lexer.isInBody modes = false) (hblanks : ∀ c ∈ blanks, Lexer.isBlank c = true)
    (hpart : Identifier.beginsWord part = true)
    (hcut : cutLeaves modes (blanks ++ (part ++ rest)) = after) (hmem : other ∈ right)
    (hlt : other.span.start < (String.ofList (spelling before)).utf8ByteSize +
      (String.ofList (blanks ++ part)).utf8ByteSize) :
    other.kind = .whitespace ∨ other.kind.isWord = true ∧
      (String.ofList (spelling before)).utf8ByteSize +
        (String.ofList (blanks ++ part)).utf8ByteSize ≤ other.span.stop := by
  obtain ⟨between, behind, rfl⟩ := List.append_of_mem hmem
  obtain ⟨middle, own, others, rfl, hmiddle, hown, -⟩ := exists_parts_of_takes hright
  have hsplit : (locus text).leaves = (left ++ between) ++ other :: behind := by simp [hleaves]
  obtain ⟨hstart, hstop⟩ := size_of_leaves hsplit (List.rel_append hleft hmiddle) hown
  rw [spelling, List.flatMap_append, Bytes.utf8ByteSize_append] at hstart hstop
  rcases Lexer.kind_of_lineStart hcode hblanks hpart hcut (by
    change (String.ofList (List.flatMap _ middle)).utf8ByteSize < _
    change other.span.start < (String.ofList (List.flatMap _ before)).utf8ByteSize + _ at hlt
    omega) with hblank | ⟨hword, hle⟩
  · exact .inl ((hown.1.eq_of_not_isWord (by rw [hblank]; rfl)).trans hblank)
  · refine .inr ⟨hown.1.isWord_eq.trans hword, ?_⟩
    rw [hstop, Nat.add_assoc]
    exact Nat.add_le_add_left hle _

/-- The characters behind a newline are cut in code, and the leaves behind it are those of them. -/
theorem exists_cutLeaves_behind {front behind : List Char} (htext : text.toList = front ++ behind)
    (hnewline : newline ∈ (locus text).leaves) (hkind : newline.kind = .newline)
    (hstop : newline.span.stop = (String.ofList front).utf8ByteSize) :
    ∃ left right before after modes, (locus text).leaves = left ++ right ∧
      List.Forall₂ (fun locus part => locus.leaf.Takes part) left before ∧
      List.Forall₂ (fun locus part => locus.leaf.Takes part) right after ∧
      spelling before = front ∧ Lexer.isInBody modes = false ∧ cutLeaves modes behind = after ∧
      ∀ leaf ∈ (locus text).leaves, newline.span.stop ≤ leaf.span.start → leaf ∈ right := by
  obtain ⟨left, right, hleaves⟩ := List.append_of_mem hnewline
  obtain ⟨before, ⟨kind, word⟩, after, hparts, hleft, htakes, hright⟩ :=
    exists_parts_of_leaves hleaves
  obtain ⟨-, hstop'⟩ := size_of_leaves hleaves hleft htakes
  obtain rfl : kind = .newline := by
    rw [← hkind]
    exact htakes.kind_eq (by change newline.kind.isWord = false; rw [hkind]; rfl)
  obtain ⟨_, modes, hall, hnested, -, hcut, -⟩ := Lexer.exists_modes_of_cutLeaves .nil hparts
  obtain ⟨c, cs, others, rfl, hword, -, hline, hafter⟩ := Lexer.cutLeaves_eq_cons hcut
  have hcode := Lexer.isInBody_modes_cut hnested (by rw [hline]; rfl)
  have hsplit : (spelling before ++ c :: cs) ++ others = front ++ behind := by
    rw [← htext, hall]
    simp
  have hsize : (String.ofList (spelling before ++ c :: cs)).utf8ByteSize =
      (String.ofList front).utf8ByteSize := by
    rw [← hstop, hstop', Bytes.utf8ByteSize_append, ← hword, String.ofList_toList]
  obtain ⟨middle, hmiddle, hbehind⟩ := Bytes.exists_of_append_le hsplit (Nat.le_of_eq hsize)
  obtain rfl : middle = [] := by
    refine Bytes.eq_nil_of_utf8ByteSize ?_
    rw [hmiddle, Bytes.utf8ByteSize_append (_ ++ _) middle] at hsize
    omega
  rw [List.nil_append] at hbehind
  subst hbehind
  have hspelling : spelling (before ++ [(.newline, word)]) = front := by
    rw [hmiddle, List.append_nil, spelling, List.flatMap_append, ← hword]
    simp [spelling]
  refine ⟨left ++ [newline], right, _, after, _, by simp [hleaves],
    List.rel_append hleft (.cons htakes .nil), hright, hspelling, hcode, hafter,
    fun leaf hleaf hle => ?_⟩
  have hne := start_lt_stop hleaf
  have hne' := start_lt_stop hnewline
  have hpairwise := pairwise_leaves text
  rw [hleaves] at hleaf hpairwise
  rcases List.mem_append.1 hleaf with hin | hin
  · have := (List.pairwise_append.1 hpairwise).2.2 leaf hin newline List.mem_cons_self
    omega
  · rcases List.mem_cons.1 hin with rfl | hin
    · omega
    · exact hin

theorem AtLineStart.exists_line (h : AtLineStart text offset) : ∃ line, LineFrom text offset line := by
  obtain ⟨front, blanks, part, rest, htext, hoffset, hfront, hblanks, hpart⟩ := h
  rw [Bytes.utf8ByteSize_append] at hoffset
  refine ⟨(String.ofList front).utf8ByteSize, by omega, ?_, fun leaf hleaf hline hlt => ?_⟩
  · rcases hfront with rfl | hnewline
    · exact .inl rfl
    · exact .inr hnewline
  · rcases hfront with rfl | ⟨newline, hnewline, hkind, hstop⟩
    · subst hoffset
      have hcode : Lexer.isInBody [] = false := rfl
      exact blank_or_word_of_takes rfl .nil (forall₂_takes_leaves text) hcode hblanks hpart
        (by rw [htext]; rfl) hleaf hlt
    · obtain ⟨left, right, before, after, modes, hleaves, hleft, hright, rfl, hcode, hcut, hbehind⟩ :=
        exists_cutLeaves_behind htext (mem_leaves_of_mem_tokens hnewline) hkind hstop
      have hres := blank_or_word_of_takes hleaves hleft hright hcode hblanks hpart hcut
        (hbehind leaf hleaf (hstop ▸ hline)) (by omega)
      rwa [hoffset] at hres

namespace LineFrom

/-- A leaf in front of the line ends there at the latest. -/
theorem stop_le (h : LineFrom text offset line) (hleaf : other ∈ (locus text).leaves)
    (hlt : other.span.start < line) : other.span.stop ≤ line := by
  rcases h.newline with rfl | ⟨newline, hnewline, -, hstop⟩
  · exact absurd hlt (Nat.not_lt_zero _)
  · have hmem := mem_leaves_of_mem_tokens hnewline
    have := start_lt_stop hmem
    rcases eq_or_apart hleaf hmem with rfl | hapart | hapart
    · exact Nat.le_of_eq hstop
    · omega
    · omega

/-- What is replaced is on the line, and what is in front of it there is blank. -/
theorem of_replaced (h : LineFrom text offset line) :
    line ≤ (replaced text offset).start ∧ ∀ leaf ∈ (locus text).leaves, line ≤ leaf.span.start →
      leaf.span.start < (replaced text offset).start → leaf.kind = .whitespace := by
  rcases replaced_cases text offset with ⟨hempty, hnone⟩ | ⟨word, hword, hkind, hspan, hstart, hstop⟩
  · rw [hempty]
    refine ⟨h.le, fun leaf hleaf hline hlt => ?_⟩
    rcases h.blank_or_word leaf hleaf hline hlt with hblank | ⟨hisWord, hreaches⟩
    · exact hblank
    · exact (hnone leaf hleaf hisWord hlt hreaches).elim
  · rw [← hspan]
    refine ⟨?_, fun leaf hleaf hline hlt => ?_⟩
    · by_contra hfront
      have hend := h.stop_le hword (Nat.not_le.1 hfront)
      have hle := h.le
      rcases h.newline with rfl | ⟨newline, hnewline, hnewlineKind, hnewlineStop⟩
      · exact hfront (Nat.zero_le _)
      · obtain rfl : word = newline := eq_of_start_lt hword (mem_leaves_of_mem_tokens hnewline)
          hstart hstop (by
            have := start_lt_stop (mem_leaves_of_mem_tokens hnewline)
            omega) (by omega)
        rw [hnewlineKind] at hkind
        cases hkind
    · rcases h.blank_or_word leaf hleaf hline (by omega) with hblank | ⟨-, hreaches⟩
      · exact hblank
      · obtain rfl := eq_of_start_lt hleaf hword (by omega) hreaches hstart hstop
        omega

/-- The token in front is the newline that the line starts behind. -/
theorem newline_of_beforeOnLine (h : LineFrom text offset line)
    (hlast : ((locus text).vicinity offset).beforeOnLine = some last) :
    last ∈ (locus text).tokens ∧ last.kind = .newline ∧ last.span.stop = line := by
  obtain ⟨hmem, htrivia, hlt, -, hbetween⟩ := of_beforeOnLine hlast
  obtain ⟨hline, hblank⟩ := h.of_replaced
  have hfront : last.span.start < line := by
    by_contra hbehind
    rw [hblank last hmem (Nat.not_lt.1 hbehind) hlt] at htrivia
    cases htrivia
  rcases h.newline with rfl | ⟨newline, hnewline, hkind, hstop⟩
  · exact absurd hfront (Nat.not_lt_zero _)
  · have hmem' := mem_leaves_of_mem_tokens hnewline
    have hne := start_lt_stop hmem'
    rcases eq_or_apart hmem hmem' with rfl | hapart | hapart
    · exact ⟨hnewline, hkind, hstop⟩
    · have htrivia' := hbetween newline hmem' hapart (by omega)
      rw [hkind] at htrivia'
      cases htrivia'
    · omega

theorem startsLine (h : LineFrom text offset line) :
    ((locus text).vicinity offset).startsLine = true := by
  unfold Vicinity.startsLine
  cases hlast : ((locus text).vicinity offset).beforeOnLine with
  | none => rfl
  | some last =>
      obtain ⟨hmem, hkind, -⟩ := h.newline_of_beforeOnLine hlast
      dsimp only
      rw [hkind, Locus.parent_of_mem_children (List.mem_filter.1 hmem).1]
      rfl

/-- Nothing around the token in front of the line asks for something behind it. -/
theorem dangles_of_before (h : LineFrom text offset line)
    (hbefore : ((locus text).vicinity offset).before = some last)
    (hunder : Locus.Under (locus text) other) (hbelow : Locus.Under other last) {parent : Locus}
    (hparent : other.parent = some parent) : parent.kind.dangles other.kind = false := by
  obtain ⟨newline, honLine⟩ := exists_beforeOnLine hbefore
  obtain ⟨hmem, -, -⟩ := h.newline_of_beforeOnLine honLine
  obtain ⟨hchild, htoken⟩ := List.mem_filter.1 hmem
  rw [before_vicinity, honLine, Option.bind_some] at hbefore
  obtain ⟨top, htop, hlast⟩ := exists_top_of_skipBack
    (fun kind hskip => by simpa using hskip) hchild htoken hbefore
  have hkind := (skipBack_eq_some (mem_leaves_of_mem_tokens hmem) hbefore).2.1
  rw [Bool.or_eq_false_iff, decide_eq_false_iff_not] at hkind
  exact dangles_of_lastToken htop hlast (fun _ => hkind.2) hunder hbelow hparent

variable {finding : Context.Finding}

theorem before_mem_leaves (hbefore : ((locus text).vicinity offset).before = some last) :
    last ∈ (locus text).leaves := by
  obtain ⟨newline, honLine⟩ := exists_beforeOnLine hbefore
  rw [before_vicinity, honLine, Option.bind_some] at hbefore
  exact (skipBack_eq_some (of_beforeOnLine honLine).1 hbefore).1

/-- The nodes around a token in front of the line that is not the last thing to come in them. -/
theorem not_dangles_of_beforeIn (h : LineFrom text offset line) {token : Kind} {nodes : List Kind}
    (hin : ((locus text).vicinity offset).beforeIn token nodes = some other) :
    other.kind ∈ nodes ∧ other.kind.dangles token = false ∧
      ∀ outer, other.parent = some outer → outer.kind.dangles other.kind = false := by
  obtain ⟨before, hbefore, rfl, hparent, hnodes⟩ := Vicinity.beforeIn_eq_some hin
  have hmem := (Locus.mem_leaves_iff.1 (before_mem_leaves hbefore)).1
  obtain ⟨hunder, hchild⟩ := hmem.of_parent (isRoot_locus text) hparent
  exact ⟨hnodes, h.dangles_of_before hbefore hmem .root hparent, fun outer houter =>
    h.dangles_of_before hbefore hunder (.child .root hchild) houter⟩

theorem beforeIn_eq_none (h : LineFrom text offset line) {token : Kind} {nodes : List Kind}
    (hdangles : ∀ node ∈ nodes, node.dangles token = true) :
    ((locus text).vicinity offset).beforeIn token nodes = none := by
  rw [Option.eq_none_iff_forall_ne_some]
  intro node hin
  obtain ⟨hmem, hfree, -⟩ := h.not_dangles_of_beforeIn hin
  rw [hdangles _ hmem] at hfree
  cases hfree

theorem decoratorName_eq_none (h : LineFrom text offset line) :
    ((locus text).vicinity offset).decoratorName = none := by
  have hnone : ((locus text).vicinity offset).beforeIn .atSign [.decorator] = none :=
    h.beforeIn_eq_none (by decide)
  rw [Vicinity.decoratorName, hnone]
  rfl

theorem propertyValue_eq_none (h : LineFrom text offset line) :
    ((locus text).vicinity offset).propertyValue = none := by
  have hnone : ((locus text).vicinity offset).beforeIn .colon [.objectProperty] = none :=
    h.beforeIn_eq_none (by decide)
  rw [Vicinity.propertyValue, hnone]
  rfl

theorem memberAccess_eq_none (h : LineFrom text offset line) :
    ((locus text).vicinity offset).memberAccess = none := by
  have hnone : ((locus text).vicinity offset).beforeIn .dot [.propertyAccess] = none :=
    h.beforeIn_eq_none (by decide)
  rw [Vicinity.memberAccess, hnone]
  rfl

theorem resourceBody_eq_none (h : LineFrom text offset line) :
    ((locus text).vicinity offset).resourceBody = none := by
  have hnone : ((locus text).vicinity offset).beforeIn .eq [.resourceDecl, .moduleDecl] = none :=
    h.beforeIn_eq_none (by decide)
  rw [Vicinity.resourceBody, hnone]
  rfl

/-- No type is missing at the end of what is above. -/
theorem missingType_eq_none (h : LineFrom text offset line) :
    ((locus text).vicinity offset).missingType = none := by
  rw [Option.eq_none_iff_forall_ne_some]
  intro finding hfinding
  simp only [Vicinity.missingType, bind, Option.bind_eq_some_iff, Option.some.injEq] at hfinding
  obtain ⟨name, hname, declaration, hdeclaration, _, hkind, -⟩ := hfinding
  obtain ⟨hmem, -, hdangles⟩ := h.not_dangles_of_beforeIn hname
  have hfree := hdangles declaration hdeclaration
  rw [Option.guard_eq_some'] at hkind
  rw [hkind, List.mem_singleton.1 hmem] at hfree
  cases hfree

theorem resourceHeader_eq_none (h : LineFrom text offset line) :
    ((locus text).vicinity offset).resourceHeader = none := by
  rw [Option.eq_none_iff_forall_ne_some]
  intro finding hfinding
  simp only [Vicinity.resourceHeader, bind, Option.bind_eq_some_iff] at hfinding
  obtain ⟨before, hbefore, _, -, string, hstring, typeNode, htype, _, htypeKind, declaration,
    hdeclaration, _, hkind, -⟩ := hfinding
  rw [Option.guard_eq_some'] at htypeKind hkind
  have hmem := (Locus.mem_leaves_iff.1 (before_mem_leaves hbefore)).1
  obtain ⟨hunder, hchild⟩ := hmem.of_parent (isRoot_locus text) hstring
  obtain ⟨hunder', hchild'⟩ := hunder.of_parent (isRoot_locus text) htype
  have hfree := h.dangles_of_before hbefore hunder'
    ((Locus.Under.child .root hchild').trans (.child .root hchild)) hdeclaration
  rw [hkind, htypeKind] at hfree
  cases hfree

theorem typeName_eq_none (h : LineFrom text offset line) :
    ((locus text).vicinity offset).typeName = none := by
  rw [Option.eq_none_iff_forall_ne_some]
  intro finding hfinding
  simp only [Vicinity.typeName, bind, Option.bind_eq_some_iff] at hfinding
  obtain ⟨name, hname, declaration, hdeclaration, _, hkind, -⟩ := hfinding
  obtain ⟨hmem, -, hdangles⟩ := h.not_dangles_of_beforeIn hname
  have hfree := hdangles declaration hdeclaration
  rw [Option.guard_eq_some', Bool.or_eq_true, decide_eq_true_eq, decide_eq_true_eq] at hkind
  rw [List.mem_singleton.1 hmem] at hfree
  rcases hkind with hkind | hkind <;> rw [hkind] at hfree <;> cases hfree

theorem propertyKey_eq_none (h : LineFrom text offset line) :
    ((locus text).vicinity offset).propertyKey = none := by
  rw [Option.eq_none_iff_forall_ne_some]
  intro finding hfinding
  simp only [Vicinity.propertyKey, bind, Option.bind_eq_some_iff] at hfinding
  obtain ⟨newline, honLine, _, -, object, hobject, _, hkind, -⟩ := hfinding
  have hchild := (List.mem_filter.1 (h.newline_of_beforeOnLine honLine).1).1
  obtain rfl := Option.some.inj ((Locus.parent_of_mem_children hchild).symm.trans hobject)
  rw [Option.guard_eq_some'] at hkind
  cases hkind

/-- A string of a type that opens in front of the line ends there, as the newline is not in it. -/
theorem insideTypeString_eq_none (h : LineFrom text offset line) :
    ((locus text).vicinity offset).insideTypeString = none := by
  rw [Option.eq_none_iff_forall_ne_some]
  intro finding hfinding
  obtain ⟨typeNode, string, opening, hunder, htypeKind, hstring, hfirst, hquote, hstop, hoffset, -⟩ :=
    exists_of_insideTypeString hfinding
  have hchild := (List.mem_filter.1 (List.mem_of_find?_eq_some hstring)).1
  have hstringKind : string.kind = .string := by simpa using List.find?_some hstring
  obtain ⟨hbelow, htoken⟩ := Locus.firstToken_eq_some hfirst
  have hunder' := hunder.child hchild
  have hmem := Locus.mem_leaves_iff.2 ⟨hunder'.trans hbelow, htoken⟩
  have hne := start_lt_stop hmem
  have hfront : opening.span.start < line := by
    by_contra hbehind
    rcases h.blank_or_word opening hmem (Nat.not_lt.1 hbehind) (by omega) with hblank | ⟨hword, -⟩
    · rw [hquote] at hblank
      cases hblank
    · rw [hquote] at hword
      cases hword
  rcases h.newline with rfl | ⟨newline, hnewline, hkind, hend⟩
  · exact absurd hfront (Nat.not_lt_zero _)
  · have hstopLine := h.stop_le hmem hfront
    have hline := mem_leaves_of_mem_tokens hnewline
    have hnewlineSpan := start_lt_stop hline
    have hle := h.le
    have hin := Span.contains_iff.1 (hbelow.contains (hunder'.located (located_locus text)))
    have hnewlineChild := (List.mem_filter.1 hnewline).1
    rcases (located_locus text).under_or_apart hunder' (Locus.mem_leaves_iff.1 hline).1 with
      rfl | haround | haround | hapart
    · rw [hkind] at hstringKind
      cases hstringKind
    · have hroot := haround.under.of_mem_children_of_ne hnewlineChild (by
        rintro rfl
        rw [hkind] at hstringKind
        cases hstringKind)
      rw [hroot.antisymm hunder', kind_locus] at hstringKind
      cases hstringKind
    · have hnode := haround.isNode
      rw [Locus.isNode_eq_not, (List.mem_filter.1 hnewline).2] at hnode
      cases hnode
    · rcases eq_or_apart hmem hline with rfl | hopens | hopens
      · rw [hkind] at hquote
        cases hquote
      · omega
      · omega

theorem finding_eq (h : LineFrom text offset line) : ((locus text).vicinity offset).finding =
    some (((locus text).vicinity offset).found .declarations (locus text)) := by
  have hresource : ((locus text).vicinity offset).resourceType = none := by
    rw [Vicinity.resourceType, h.insideTypeString_eq_none, h.missingType_eq_none]
    rfl
  have hdeclarations : ((locus text).vicinity offset).declarations =
      some (((locus text).vicinity offset).found .declarations (locus text)) := by
    rw [Vicinity.declarations, if_pos h.startsLine]
    rfl
  simp only [Vicinity.finding, Vicinity.rules, List.findSome?_cons, hresource,
    h.decoratorName_eq_none, h.resourceHeader_eq_none, h.typeName_eq_none, h.propertyKey_eq_none,
    h.propertyValue_eq_none, h.memberAccess_eq_none, h.resourceBody_eq_none, hdeclarations]

end LineFrom

end Document

/-- At the start of a line right below the root, behind blanks and the first characters of a word,
the keywords of declarations are offered, whatever stands above. -/
theorem declarations_of_atLineStart {text : String} {offset : Nat}
    (h : Document.AtLineStart text offset)
    (hstring : ((Document.locus text).resolve offset).isInStringBody = false)
    (hcomment : ((Document.locus text).resolve offset).isInComment = false) :
    ∃ context, Context.at? (Document.locus text) text offset = some context ∧
      context.kind = .declarations := by
  obtain ⟨line, hline⟩ := h.exists_line
  have hfinding := hline.finding_eq
  unfold Context.at? Context.classify
  rw [hstring, hcomment, Bool.or_self, if_neg Bool.false_ne_true]
  change ∃ context, (((Document.locus text).vicinity offset).finding.bind _) = _ ∧ _
  rw [hfinding, Option.bind_some]
  exact ⟨_, rfl, Vicinity.kind_found ..⟩

/-- Under a parameter that has no type yet. -/
theorem declarations_below_param :
    Document.AtLineStart "param p\n  ou" 12 ∧
      ((Document.locus "param p\n  ou").resolve 12).isInStringBody = false ∧
      ((Document.locus "param p\n  ou").resolve 12).isInComment = false ∧
      ∃ context, Context.at? (Document.locus "param p\n  ou") "param p\n  ou" 12 = some context ∧
        context.kind = .declarations := by
  have hnewline : ∃ newline ∈ (Document.locus "param p\n  ou").tokens, newline.kind = .newline ∧
      newline.span.stop = (String.ofList "param p\n".toList).utf8ByteSize := by
    have hany : ((Document.locus "param p\n  ou").tokens.any fun newline =>
        newline.kind = .newline && newline.span.stop = 8) = true := by decide +kernel
    have hsize : (String.ofList "param p\n".toList).utf8ByteSize = 8 := by decide +kernel
    rw [hsize]
    simpa using hany
  have hline : Document.AtLineStart "param p\n  ou" 12 :=
    ⟨"param p\n".toList, [' ', ' '], ['o', 'u'], [], by decide +kernel, by decide +kernel,
      .inr hnewline, by simp [Lexer.isBlank], by decide +kernel⟩
  have hstring : ((Document.locus "param p\n  ou").resolve 12).isInStringBody = false := by
    decide +kernel
  have hcomment : ((Document.locus "param p\n  ou").resolve 12).isInComment = false := by
    decide +kernel
  exact ⟨hline, hstring, hcomment, declarations_of_atLineStart hline hstring hcomment⟩

end Caret
