import Caret.Proofs.Context.Providers
import Mathlib.Algebra.BigOperators.Group.List.Basic

/-!
# Positions and offsets

A text is lines with a line feed between each two of them. An offset in the text is a place on just
one line, its end included, and the table of the starts of lines finds this place and leads back from
it.
-/

namespace Caret

/-- Positions in the order of the text. -/
instance : LT LinePosition :=
  ⟨fun a b => a.line < b.line ∨ a.line = b.line ∧ a.character < b.character⟩

namespace LineTable

variable {text : String} {sizes : List Nat} {position other : LinePosition}
  {offset start line size : Nat}

/-- The bytes of each line, its line feed left out. -/
def lineSizes (cs : List Char) : List Nat :=
  (cs.splitOn '\n').map fun line => (String.ofList line).utf8ByteSize

/-- The bytes in front of a line. -/
def before (sizes : List Nat) (line : Nat) : Nat := ((sizes.take line).map (· + 1)).sum

/-- A position is on a line or at its end, and an offset is that of the same place. -/
def Places (sizes : List Nat) (position : LinePosition) (offset : Nat) : Prop :=
  ∃ size, sizes[position.line]? = some size ∧ position.character ≤ size ∧
    offset = before sizes position.line + position.character

/-! ### Lines of given sizes -/

theorem before_zero (sizes : List Nat) : before sizes 0 = 0 := rfl

theorem before_cons_succ (size : Nat) (sizes : List Nat) (line : Nat) :
    before (size :: sizes) (line + 1) = size + 1 + before sizes line := by
  rw [before, List.take_succ_cons, List.map_cons, List.sum_cons, before]

theorem before_succ (h : sizes[line]? = some size) :
    before sizes (line + 1) = before sizes line + size + 1 := by
  induction sizes generalizing line with
  | nil => simp at h
  | cons first sizes ih =>
      cases line with
      | zero =>
          obtain rfl : first = size := by simpa using h
          simp [before]
      | succ line =>
          rw [before_cons_succ, before_cons_succ, ih (by simpa using h)]
          omega

theorem before_mono (h : line ≤ start) : before sizes line ≤ before sizes start := by
  obtain ⟨more, rfl⟩ := Nat.exists_eq_add_of_le h
  rw [before, before, List.take_add, List.map_append, List.sum_append]
  exact Nat.le_add_right _ _

/-- A line that comes first ends, line feed included, where a later one starts at the latest. -/
theorem before_add_lt_before (h : sizes[line]? = some size) (hlt : line < start) :
    before sizes line + size < before sizes start := by
  have hsucc := before_succ h
  have hmono : before sizes (line + 1) ≤ before sizes start := before_mono hlt
  omega

/-- Two places are in the order of their offsets. -/
theorem Places.lt_iff {offset' : Nat} (h : Places sizes position offset)
    (h' : Places sizes other offset') : offset < offset' ↔ position < other := by
  obtain ⟨size, hsize, hle, rfl⟩ := h
  obtain ⟨size', hsize', hle', rfl⟩ := h'
  show _ ↔ position.line < other.line ∨ position.line = other.line ∧ _
  rcases Nat.lt_trichotomy position.line other.line with hlt | heq | hgt
  · have hbefore := before_add_lt_before hsize hlt
    omega
  · rw [heq]
    omega
  · have hbefore := before_add_lt_before hsize' hgt
    omega

theorem Places.eq_of_offset (h : Places sizes position offset) (h' : Places sizes other offset) :
    position = other := by
  have hnot : ¬(position.line < other.line ∨
      position.line = other.line ∧ position.character < other.character) :=
    mt (h.lt_iff h').2 (Nat.lt_irrefl offset)
  have hnot' : ¬(other.line < position.line ∨
      other.line = position.line ∧ other.character < position.character) :=
    mt (h'.lt_iff h).2 (Nat.lt_irrefl offset)
  cases position
  cases other
  rw [LinePosition.mk.injEq]
  dsimp only at hnot hnot'
  omega

theorem le_before (h : line ≤ sizes.length) : line ≤ before sizes line := by
  induction sizes generalizing line with
  | nil =>
      rw [Nat.le_zero.1 h]
      exact Nat.zero_le _
  | cons size sizes ih =>
      cases line with
      | zero => exact Nat.zero_le _
      | succ line =>
          have hle := ih (Nat.le_of_succ_le_succ h)
          rw [before_cons_succ]
          omega

/-- Neither the number of a line nor that of a character exceeds the offset. -/
theorem Places.le (h : Places sizes position offset) :
    position.line ≤ offset ∧ position.character ≤ offset := by
  obtain ⟨size, hsize, -, rfl⟩ := h
  obtain ⟨hlt, -⟩ := List.getElem?_eq_some_iff.1 hsize
  have hle := le_before (Nat.le_of_lt hlt)
  omega

/-! ### The table of the starts of lines -/

def startsFrom : Nat → List Nat → List Nat
  | _, [] => []
  | start, size :: sizes => start :: startsFrom (start + (size + 1)) sizes

theorem getElem?_startsFrom (start : Nat) (sizes : List Nat) (line : Nat) :
    (startsFrom start sizes)[line]? = (sizes[line]?).map fun _ => start + before sizes line := by
  induction sizes generalizing start line with
  | nil => rfl
  | cons size sizes ih =>
      cases line with
      | zero => rfl
      | succ line =>
          rw [startsFrom, List.getElem?_cons_succ, List.getElem?_cons_succ, ih, before_cons_succ,
            Nat.add_assoc]

theorem lineSizes_cons (c : Char) (cs : List Char) :
    lineSizes (c :: cs) =
      if c = '\n' then 0 :: lineSizes cs
      else (lineSizes cs).modifyHead (c.utf8Size + ·) := by
  rw [lineSizes, List.splitOn, List.splitOnP_cons_eq_if_modifyHead]
  by_cases hc : c = '\n'
  · subst hc
    rfl
  · obtain ⟨line, lines, hlines⟩ := List.exists_cons_of_ne_nil (List.splitOn_ne_nil '\n' cs)
    rw [List.splitOn] at hlines
    rw [if_neg hc, if_neg (by simpa using hc), lineSizes, List.splitOn, hlines]
    simp only [List.modifyHead_cons, List.map_cons, Bytes.utf8ByteSize_cons]

theorem lineSizes_ne_nil (cs : List Char) : lineSizes cs ≠ [] := by
  rw [lineSizes, ne_eq, List.map_eq_nil_iff]
  exact List.splitOn_ne_nil _ _

theorem cons_startsAfterBreaks (start : Nat) (cs : List Char) :
    start :: startsAfterBreaks start cs = startsFrom start (lineSizes cs) := by
  induction cs generalizing start with
  | nil => rfl
  | cons c cs ih =>
      have htail := ih (start + c.utf8Size)
      obtain ⟨size, sizes, hsizes⟩ := List.exists_cons_of_ne_nil (lineSizes_ne_nil cs)
      rw [startsAfterBreaks, lineSizes_cons]
      by_cases hc : c = '\n'
      · subst hc
        have hone : '\n'.utf8Size = 1 := rfl
        rw [hone] at htail ⊢
        rw [if_pos rfl, if_pos rfl, startsFrom, htail]
      · rw [if_neg hc, if_neg hc, hsizes] 
        rw [hsizes, startsFrom] at htail
        rw [List.modifyHead_cons, startsFrom, (List.cons.inj htail).2]
        congr 2
        omega

/-- The lines and the line feeds between them make up the text. -/
theorem before_length (cs : List Char) :
    before (lineSizes cs) (lineSizes cs).length = (String.ofList cs).utf8ByteSize + 1 := by
  induction cs with
  | nil => rfl
  | cons c cs ih =>
      obtain ⟨size, sizes, hsizes⟩ := List.exists_cons_of_ne_nil (lineSizes_ne_nil cs)
      rw [lineSizes_cons, Bytes.utf8ByteSize_cons]
      by_cases hc : c = '\n'
      · subst hc
        rw [if_pos rfl, List.length_cons, before_cons_succ, ih]
        have hone : '\n'.utf8Size = 1 := rfl
        omega
      · rw [if_neg hc, hsizes, List.modifyHead_cons, List.length_cons, before_cons_succ]
        rw [hsizes, List.length_cons, before_cons_succ] at ih
        omega

theorem starts_ofText (text : String) :
    (ofText text).starts = startsFrom 0 (lineSizes text.toList) :=
  cons_startsAfterBreaks 0 text.toList

theorem size_ofText (text : String) : (ofText text).size = text.utf8ByteSize := rfl

theorem before_length_ofText (text : String) :
    before (lineSizes text.toList) (lineSizes text.toList).length = text.utf8ByteSize + 1 := by
  rw [before_length, String.ofList_toList]

theorem Places.le_size (h : Places (lineSizes text.toList) position offset) :
    offset ≤ text.utf8ByteSize := by
  obtain ⟨size, hsize, hle, rfl⟩ := h
  obtain ⟨hlt, -⟩ := List.getElem?_eq_some_iff.1 hsize
  have hend := before_add_lt_before hsize hlt
  rw [before_length_ofText] at hend
  omega

theorem lineEnd_ofText (h : (lineSizes text.toList)[line]? = some size) :
    (ofText text).lineEnd line = before (lineSizes text.toList) line + size := by
  have hsucc := before_succ h
  rw [lineEnd, starts_ofText, getElem?_startsFrom]
  cases hnext : (lineSizes text.toList)[line + 1]? with
  | some next =>
      rw [Option.map_some]
      dsimp only
      omega
  | none =>
      obtain ⟨hlt, -⟩ := List.getElem?_eq_some_iff.1 h
      have hlength := List.getElem?_eq_none_iff.1 hnext
      have hlast : line + 1 = (lineSizes text.toList).length := by omega
      have hall := before_length_ofText text
      rw [← hlast] at hall
      rw [Option.map_none]
      dsimp only
      rw [size_ofText]
      omega

/-- There is an offset for each place of the text, and for no other position. -/
theorem offset_eq_some_iff : (ofText text).offset position = some offset ↔
    Places (lineSizes text.toList) position offset := by
  rw [LineTable.offset, starts_ofText, getElem?_startsFrom, Places]
  cases hsize : (lineSizes text.toList)[position.line]? with
  | none => simp
  | some size =>
      rw [Option.map_some]
      dsimp only
      rw [lineEnd_ofText hsize, Nat.zero_add]
      constructor
      · intro h
        split at h
        next hle => exact ⟨size, rfl, by omega, (Option.some.inj h).symm⟩
        next => cases h
      · rintro ⟨_, hsame, hle, rfl⟩
        obtain rfl := Option.some.inj hsame
        exact if_pos (by omega)

theorem filter_startsFrom_of_lt (h : offset < start) :
    (startsFrom start sizes).filter (· ≤ offset) = [] := by
  induction sizes generalizing start with
  | nil => rfl
  | cons size sizes ih =>
      rw [startsFrom, List.filter_cons_of_neg (by simpa using h), ih (by omega)]

/-- The last line that starts at or before an offset has its place. -/
theorem exists_last_start (hne : sizes ≠ []) (hstart : start ≤ offset)
    (hend : offset < start + before sizes sizes.length) :
    ∃ line size, sizes[line]? = some size ∧
      ((startsFrom start sizes).filter (· ≤ offset)).length = line + 1 ∧
      ((startsFrom start sizes).filter (· ≤ offset)).getLastD 0 = start + before sizes line ∧
      start + before sizes line ≤ offset ∧ offset ≤ start + before sizes line + size := by
  induction sizes generalizing start with
  | nil => exact absurd rfl hne
  | cons first sizes ih =>
      rw [startsFrom, List.filter_cons_of_pos (by simpa using hstart)]
      by_cases hlast : offset < start + (first + 1)
      · rw [filter_startsFrom_of_lt hlast]
        refine ⟨0, first, rfl, rfl, rfl, hstart, ?_⟩
        rw [before_zero]
        omega
      · rw [List.length_cons, before_cons_succ] at hend
        have hmore : sizes ≠ [] := by
          rintro rfl
          rw [List.length_nil, before_zero] at hend
          omega
        obtain ⟨line, size, hsize, hlength, hlast', hle, hle'⟩ :=
          ih hmore (by omega : start + (first + 1) ≤ offset) (by omega)
        obtain ⟨head, tail, hcons⟩ := List.exists_cons_of_length_eq_add_one hlength
        rw [hcons, List.length_cons] at hlength
        rw [hcons] at hlast' ⊢
        refine ⟨line + 1, size, hsize, ?_, ?_, ?_, ?_⟩
        · rw [List.length_cons, List.length_cons, hlength]
        · rw [before_cons_succ, List.getLastD_cons, List.getLastD_cons, ← Nat.add_assoc]
          rw [List.getLastD_cons] at hlast'
          exact hlast'
        · rw [before_cons_succ]
          omega
        · rw [before_cons_succ]
          omega

/-- An offset up to the end of the text has a place. -/
theorem places_position (h : offset ≤ text.utf8ByteSize) :
    Places (lineSizes text.toList) ((ofText text).position offset) offset := by
  have hend : offset < 0 + before (lineSizes text.toList) (lineSizes text.toList).length := by
    rw [before_length_ofText]
    omega
  obtain ⟨line, size, hsize, hlength, hlast, hle, hle'⟩ :=
    exists_last_start (lineSizes_ne_nil text.toList) (Nat.zero_le offset) hend
  rw [Nat.zero_add] at hlast hle hle'
  rw [LineTable.position, starts_ofText, size_ofText, Nat.min_eq_left h, hlength, hlast,
    Nat.add_sub_cancel]
  exact ⟨size, hsize, by dsimp only; omega, by dsimp only; omega⟩

theorem exists_offset_iff : (∃ offset, (ofText text).offset position = some offset) ↔
    ∃ line, (text.toList.splitOn '\n')[position.line]? = some line ∧
      position.character ≤ (String.ofList line).utf8ByteSize := by
  simp only [offset_eq_some_iff, Places, lineSizes, List.getElem?_map, Option.map_eq_some_iff]
  constructor
  · rintro ⟨_, _, ⟨line, hline, rfl⟩, hle, -⟩
    exact ⟨line, hline, hle⟩
  · rintro ⟨line, hline, hle⟩
    exact ⟨_, _, ⟨line, hline, rfl⟩, hle, rfl⟩

/-! ### Words of 32 bits -/

/-- The offset of a position in words of 32 bits. A sum that does not fit wraps around, which shows in
that it is less than what was added; there is no offset then. -/
def offsetInWords (table : LineTable) (line character : UInt32) : Option UInt32 :=
  match table.starts[line.toNat]? with
  | none => none
  | some start =>
    let sum := UInt32.ofNat start + character
    if sum < character then none
    else if sum ≤ UInt32.ofNat (table.lineEnd line.toNat) then some sum
    else none

theorem offsetInWords_ofText (h : text.utf8ByteSize < 2 ^ 32) (line character : UInt32) :
    ((ofText text).offsetInWords line character).map UInt32.toNat =
      (ofText text).offset ⟨line.toNat, character.toNat⟩ := by
  rw [offsetInWords, LineTable.offset, starts_ofText, getElem?_startsFrom]
  cases hsize : (lineSizes text.toList)[line.toNat]? with
  | none => rfl
  | some size =>
      have hplace : Places (lineSizes text.toList) ⟨line.toNat, size⟩
          (before (lineSizes text.toList) line.toNat + size) := ⟨size, hsize, Nat.le_refl _, rfl⟩
      have hend := hplace.le_size
      have hcharacter := character.toNat_lt
      rw [Option.map_some]
      dsimp only
      rw [lineEnd_ofText hsize, Nat.zero_add]
      generalize before (lineSizes text.toList) line.toNat = start at *
      have hsum : (UInt32.ofNat start + character).toNat = (start + character.toNat) % 2 ^ 32 := by
        rw [UInt32.toNat_add, UInt32.toNat_ofNat', Nat.mod_add_mod]
      have hlast : (UInt32.ofNat (start + size)).toNat = start + size := by
        rw [UInt32.toNat_ofNat', Nat.mod_eq_of_lt (by omega)]
      simp only [UInt32.lt_iff_toNat_lt, UInt32.le_iff_toNat_le, hsum, hlast]
      by_cases hfits : start + character.toNat < 2 ^ 32
      · rw [Nat.mod_eq_of_lt hfits, if_neg (by omega)]
        split
        next => rw [Option.map_some, hsum, Nat.mod_eq_of_lt hfits]
        next => rfl
      · rw [if_pos (by omega), if_neg (by omega)]
        rfl

end LineTable

/-- The offset of a position is in the text, so all that can go wrong there is that it is inside a
character. -/
theorem Analysis.completionsAt_ne_outOfBounds (text : String) (position : LinePosition)
    (types : Provider) (settings : Settings) (offset size : Nat) :
    (ofText text).completionsAt position types settings ≠ .error (.outOfBounds offset size) := by
  rw [completionsAt]
  cases hoffset : (ofText text).lines.offset position with
  | none => exact fun heq => by cases heq
  | some found =>
      have hle : found ≤ text.utf8ByteSize := (LineTable.offset_eq_some_iff.1 hoffset).le_size
      change completionsIn text found types settings ≠ _
      cases hboundary : Bytes.isBoundary found text with
      | true =>
          rw [Document.completionsIn_eq types settings hboundary]
          exact fun heq => by cases heq
      | false =>
          rw [Document.completionsIn_eq_error types settings hboundary, if_neg (Nat.not_lt.2 hle)]
          exact fun heq => by cases heq

/-- The offsets of a text, its end included, and the positions on its lines, their ends included,
correspond to each other in their order, and no other position has an offset. In words of 32 bits the
same offsets come out: no position is cut, and a sum that wraps around gives none. What is suggested
at the position of an offset, or the error, is that of the offset, and no position is out of bounds.
-/
theorem positions_of_offsets (text : String) :
    (∀ offset ≤ text.utf8ByteSize,
      (LineTable.ofText text).offset ((LineTable.ofText text).position offset) = some offset) ∧
    (∀ position offset, (LineTable.ofText text).offset position = some offset →
      offset ≤ text.utf8ByteSize ∧ (LineTable.ofText text).position offset = position) ∧
    (∀ position, (∃ offset, (LineTable.ofText text).offset position = some offset) ↔
      ∃ line, (text.toList.splitOn '\n')[position.line]? = some line ∧
        position.character ≤ (String.ofList line).utf8ByteSize) ∧
    (∀ offset offset', offset < offset' → offset' ≤ text.utf8ByteSize →
      (LineTable.ofText text).position offset < (LineTable.ofText text).position offset') ∧
    (text.utf8ByteSize < 2 ^ 32 →
      (∀ offset ≤ text.utf8ByteSize, ((LineTable.ofText text).position offset).line < 2 ^ 32 ∧
        ((LineTable.ofText text).position offset).character < 2 ^ 32) ∧
      ∀ line character : UInt32,
        ((LineTable.ofText text).offsetInWords line character).map UInt32.toNat =
          (LineTable.ofText text).offset ⟨line.toNat, character.toNat⟩) ∧
    (∀ offset ≤ text.utf8ByteSize, ∀ types settings,
      (Analysis.ofText text).completionsAt ((LineTable.ofText text).position offset) types settings =
        completionsIn text offset types settings) ∧
    ∀ position types settings offset size,
      (Analysis.ofText text).completionsAt position types settings ≠
        .error (.outOfBounds offset size) := by
  have hplaced : ∀ offset ≤ text.utf8ByteSize,
      (LineTable.ofText text).offset ((LineTable.ofText text).position offset) = some offset :=
    fun offset hle => LineTable.offset_eq_some_iff.2 (LineTable.places_position hle)
  refine ⟨hplaced, fun position offset h => ?_, fun position => LineTable.exists_offset_iff,
    fun offset offset' hlt hle => ?_, fun hsize => ⟨fun offset hle => ?_,
      LineTable.offsetInWords_ofText hsize⟩, fun offset hle types settings => ?_,
    Analysis.completionsAt_ne_outOfBounds text⟩
  · have hplaces := LineTable.offset_eq_some_iff.1 h
    exact ⟨hplaces.le_size, (LineTable.places_position hplaces.le_size).eq_of_offset hplaces⟩
  · have hfirst := LineTable.places_position (Nat.le_of_lt (Nat.lt_of_lt_of_le hlt hle))
    exact (hfirst.lt_iff (LineTable.places_position hle)).1 hlt
  · obtain ⟨hline, hcharacter⟩ := (LineTable.places_position hle).le
    omega
  · have hoffset : (Analysis.ofText text).lines.offset ((LineTable.ofText text).position offset) =
        some offset := hplaced offset hle
    rw [Analysis.completionsAt, hoffset]
    rfl

end Caret
