import Caret.Proofs.Text.Quoted
import Mathlib.Data.List.Basic
import Mathlib.Data.List.Forall2
import Mathlib.Data.List.TakeWhile
import Mathlib.Data.Nat.Digits.Defs

/-!
# What the body of a string stands for

From left to right an escape becomes its character, and what starts no escape stands for itself. The
reader of bodies departs from this at a number that the body cuts off, at a number with a sign, and
at a number that names no character: there it passes over all that stands in front of the next
brace, escapes included.

Once it has departed it does not give the right text by chance. One of the two texts is ahead of the
other, and what it is ahead by is a queue: a character that both texts get next moves from the front
of the queue to its end. If the reader is ahead, the queue has a brace and no sign, and no number
clears it. If the reader is behind, the queue has a sign, and signs are never lost.
-/

namespace Caret

namespace Quoted

variable {written cs rest front body digits out read queue : List Char} {c d letter : Char}

/-- The letters that stand behind the backslash of an escape, with what they stand for. -/
def letters : List (Char × Char) :=
  [('\\', '\\'), ('\x27', '\x27'), ('n', '\n'), ('r', '\r'), ('t', '\t'), ('$', '$')]

/-- At least one digit, which write the number of a character in base sixteen. -/
def Numbers (digits : List Char) (c : Char) : Prop :=
  digits ≠ [] ∧ ∃ values, List.Forall₂ (fun digit value => hexDigit digit = some value) digits values ∧
    Nat.ofDigits 16 values.reverse = c.toNat

/-- The start of an escape by number. -/
def opened (cs : List Char) : List Char := '\\' :: 'u' :: '\x7b' :: cs

def braced (body : List Char) : List Char := opened (body ++ ['\x7d'])

/-- A character is escaped by its letter or by its number. -/
inductive Escape : List Char → Char → Prop where
  | letter {letter c : Char} (h : (letter, c) ∈ letters) : Escape ['\\', letter] c
  | number {digits : List Char} {c : Char} (h : Numbers digits c) : Escape (braced digits) c

def StartsEscape (cs : List Char) : Prop := ∃ written c, Escape written c ∧ written <+: cs

/-- A body and what it stands for. -/
inductive Decodes : List Char → List Char → Prop where
  | nil : Decodes [] []
  | escape {written rest out : List Char} {c : Char} (h : Escape written c)
      (hrest : Decodes rest out) : Decodes (written ++ rest) (c :: out)
  | other {rest out : List Char} {c : Char} (h : ¬StartsEscape (c :: rest))
      (hrest : Decodes rest out) : Decodes (c :: rest) (c :: out)

/-- There is no escape in a text. -/
def Bare (cs : List Char) : Prop := ∀ front rest, cs = front ++ rest → ¬StartsEscape rest

/-- A place that is not read as what it stands for is reached from the start of a body: a number
that is cut off, one with a sign, or one that names no character and has an escape before its brace.
-/
inductive Misread : List Char → Prop where
  | cutOff {body : List Char} (hbrace : '\x7d' ∉ body) : Misread (opened body)
  | signed {digits : List Char} {c : Char} (h : Numbers digits c) (rest : List Char) :
      Misread (braced ('+' :: digits) ++ rest)
  | passedOver {body : List Char} (hbrace : '\x7d' ∉ body) (hnone : ∀ c, ¬Numbers body c)
      (hescape : ¬Bare (body ++ ['\x7d'])) (rest : List Char) : Misread (braced body ++ rest)
  | escape {written rest : List Char} {c : Char} (h : Escape written c) (hrest : Misread rest) :
      Misread (written ++ rest)
  | behind {body rest : List Char} (hbrace : '\x7d' ∉ body) (hnone : ∀ c, ¬Numbers body c)
      (hrest : Misread rest) : Misread (braced body ++ rest)
  | other {rest : List Char} {c : Char} (h : ¬StartsEscape (c :: rest))
      (hopened : ∀ body, c :: rest ≠ opened body) (hrest : Misread rest) : Misread (c :: rest)

/-! ### Escapes -/

theorem beforeBrace_append (h : '\x7d' ∉ body) (rest : List Char) :
    beforeBrace (body ++ '\x7d' :: rest) = body := by
  have hall : ∀ c ∈ body, decide (c ≠ '\x7d') = true := fun c hc =>
    decide_eq_true fun heq => h (heq ▸ hc)
  rw [beforeBrace, List.takeWhile_append_of_pos hall]
  simp

theorem afterBrace_append (h : '\x7d' ∉ body) (rest : List Char) :
    afterBrace (body ++ '\x7d' :: rest) = rest := by
  have hall : ∀ c ∈ body, decide (c ≠ '\x7d') = true := fun c hc =>
    decide_eq_true fun heq => h (heq ▸ hc)
  rw [afterBrace, List.dropWhile_append_of_pos hall]
  simp

theorem beforeBrace_of_notMem (h : '\x7d' ∉ body) : beforeBrace body = body := by
  rw [beforeBrace, List.takeWhile_eq_self_iff]
  exact fun c hc => decide_eq_true fun heq => h (heq ▸ hc)

theorem afterBrace_of_notMem (h : '\x7d' ∉ body) : afterBrace body = [] := by
  rw [afterBrace, List.dropWhile_eq_nil_iff.2]
  · rfl
  · exact fun c hc => decide_eq_true fun heq => h (heq ▸ hc)

/-- What stands in front of the first brace, and behind it. -/
theorem eq_of_append_brace {body' rest' : List Char} (h : '\x7d' ∉ body) (h' : '\x7d' ∉ body')
    (heq : body ++ '\x7d' :: rest = body' ++ '\x7d' :: rest') : body = body' ∧ rest = rest' := by
  have hbefore := congrArg beforeBrace heq
  have hafter := congrArg afterBrace heq
  rw [beforeBrace_append h, beforeBrace_append h'] at hbefore
  rw [afterBrace_append h, afterBrace_append h'] at hafter
  exact ⟨hbefore, hafter⟩

theorem unescapeOne_eq_some_iff : unescapeOne letter = some c ↔ (letter, c) ∈ letters := by
  constructor
  · intro h
    unfold unescapeOne at h
    split at h
    case h_7 => cases h
    all_goals
      obtain rfl := Option.some.inj h
      simp [letters]
  · intro h
    simp only [letters, List.mem_cons, Prod.mk.injEq, List.not_mem_nil, or_false] at h
    rcases h with ⟨rfl, rfl⟩ | ⟨rfl, rfl⟩ | ⟨rfl, rfl⟩ | ⟨rfl, rfl⟩ | ⟨rfl, rfl⟩ | ⟨rfl, rfl⟩ <;> rfl

theorem letter_ne (h : (letter, c) ∈ letters) : letter ≠ 'u' ∧ letter ≠ '+' ∧ letter ≠ '\x7d' ∧
    c ≠ '\x7d' := by
  simp only [letters, List.mem_cons, Prod.mk.injEq, List.not_mem_nil, or_false] at h
  rcases h with ⟨rfl, rfl⟩ | ⟨rfl, rfl⟩ | ⟨rfl, rfl⟩ | ⟨rfl, rfl⟩ | ⟨rfl, rfl⟩ | ⟨rfl, rfl⟩ <;> decide

theorem Numbers.hexDigit (h : Numbers digits c) (hd : d ∈ digits) :
    (hexDigit d).isSome = true := by
  obtain ⟨-, values, hvalues, -⟩ := h
  induction hvalues with
  | nil => cases hd
  | cons hdigit _ ih =>
      rcases List.mem_cons.1 hd with rfl | hd
      · rw [hdigit]
        rfl
      · exact ih hd

theorem Numbers.notMem (h : Numbers digits c) (hd : Quoted.hexDigit d = none) : d ∉ digits := by
  intro hmem
  have hsome := h.hexDigit hmem
  rw [hd] at hsome
  cases hsome

theorem Numbers.unique (h : Numbers digits c) (h' : Numbers digits d) : c = d := by
  obtain ⟨-, values, hvalues, hc⟩ := h
  obtain ⟨-, values', hvalues', hd⟩ := h'
  have hright : Relator.RightUnique fun digit value => Quoted.hexDigit digit = some value :=
    fun _ _ _ hleft hright => Option.some.inj (hleft.symm.trans hright)
  obtain rfl : values = values' := List.right_unique_forall₂' hright hvalues hvalues'
  exact Char.toNat_inj.1 (hc.symm.trans hd)

theorem Numbers.length_pos (h : Numbers digits c) : 0 < digits.length :=
  List.length_pos_of_ne_nil h.1

theorem Numbers.notMem_brace (h : Numbers digits c) : '\x7d' ∉ digits := h.notMem (by decide)

theorem Numbers.notMem_sign (h : Numbers digits c) : '+' ∉ digits := h.notMem (by decide)

theorem not_numbers_sign (digits : List Char) (c : Char) : ¬Numbers ('+' :: digits) c := fun h =>
  h.notMem_sign List.mem_cons_self

/-- Only the last character of an escape can be a closing brace. -/
theorem Escape.eq_nil_of_brace (h : Escape written c) (hw : written = front ++ '\x7d' :: rest) :
    rest = [] := by
  cases h with
  | @letter letter _ hletter =>
      have hmem : '\x7d' ∈ ['\\', letter] := by
        rw [hw]
        exact List.mem_append_right front List.mem_cons_self
      rcases List.mem_cons.1 hmem with heq | hmem
      · cases heq
      · exact absurd (List.mem_singleton.1 hmem).symm (letter_ne hletter).2.2.1
  | @number digits _ hdigits =>
      have hopened : '\x7d' ∉ opened digits := by
        simpa [opened] using hdigits.notMem_brace
      have hsame : opened digits ++ '\x7d' :: [] = front ++ '\x7d' :: rest := hw
      exact ((List.append_cons_inj_of_notMem hopened List.not_mem_nil).1 hsame).2.2.symm

theorem Escape.exists_cons (h : Escape written c) : ∃ tail, written = '\\' :: tail := by
  cases h with
  | letter => exact ⟨_, rfl⟩
  | number => exact ⟨_, rfl⟩

/-- No two escapes start at one place. -/
theorem Escape.unique {written' rest' : List Char} (h : Escape written c) (h' : Escape written' d)
    (heq : written ++ rest = written' ++ rest') : c = d ∧ rest = rest' := by
  cases h with
  | letter hletter =>
      cases h' with
      | letter hletter' =>
          simp only [List.cons_append, List.nil_append, List.cons.injEq, true_and] at heq
          obtain ⟨rfl, rfl⟩ := heq
          rw [← unescapeOne_eq_some_iff] at hletter hletter'
          exact ⟨Option.some.inj (hletter.symm.trans hletter'), rfl⟩
      | number hdigits =>
          exact absurd (List.cons.inj (List.cons.inj heq).2).1 (letter_ne hletter).1
  | @number digits _ hdigits =>
      cases h' with
      | letter hletter' =>
          exact absurd (List.cons.inj (List.cons.inj heq).2).1.symm (letter_ne hletter').1
      | @number digits' _ hdigits' =>
          have hcut : digits ++ '\x7d' :: rest = digits' ++ '\x7d' :: rest' := by
            simpa [braced, opened] using heq
          obtain ⟨rfl, rfl⟩ :=
            eq_of_append_brace hdigits.notMem_brace hdigits'.notMem_brace hcut
          exact ⟨hdigits.unique hdigits', rfl⟩

theorem Escape.count_sign (h : Escape written c) : written.count '+' = 0 := by
  rw [List.count_eq_zero]
  cases h with
  | letter hletter => simpa using (letter_ne hletter).2.1.symm
  | number hdigits => simpa [braced, opened] using hdigits.notMem_sign

theorem Escape.count_brace_le (h : Escape written c) :
    List.count '\x7d' [c] ≤ written.count '\x7d' := by
  cases h with
  | letter hletter =>
      rw [List.count_eq_zero.2 (by simpa using (letter_ne hletter).2.2.2.symm)]
      exact Nat.zero_le _
  | @number digits =>
      have hone : 1 ≤ (braced digits).count '\x7d' :=
        List.one_le_count_iff.2 (by simp [braced, opened])
      exact List.count_le_length.trans hone

theorem Escape.two_le (h : Escape written c) : 2 ≤ written.length := by
  cases h with
  | letter => exact Nat.le_refl 2
  | number => simp [braced, opened]

theorem Escape.five_le (h : Escape written c) (hbrace : '\x7d' ∈ written) : 5 ≤ written.length := by
  cases h with
  | letter hletter => 
      have hne := (letter_ne hletter).2.2.1
      simp [hne.symm] at hbrace
  | number hdigits =>
      have hpos := hdigits.length_pos
      simp only [braced, opened, List.length_cons, List.length_append, List.length_nil]
      omega

theorem not_startsEscape_of_ne (h : c ≠ '\\') (rest : List Char) : ¬StartsEscape (c :: rest) := by
  rintro ⟨written, d, hescape, hprefix⟩
  obtain ⟨tail, rfl⟩ := hescape.exists_cons
  exact h (List.cons_prefix_cons.1 hprefix).1.symm

theorem Escape.startsEscape (h : Escape written c) (rest : List Char) :
    StartsEscape (written ++ rest) := ⟨written, c, h, List.prefix_append _ _⟩

theorem startsEscape_opened_iff (hbrace : '\x7d' ∉ body) :
    StartsEscape (braced body ++ rest) ↔ ∃ c, Numbers body c := by
  constructor
  · rintro ⟨written, c, hescape, tail, heq⟩
    cases hescape with
    | letter hletter => exact absurd (List.cons.inj (List.cons.inj heq).2).1 (letter_ne hletter).1
    | @number digits _ hdigits =>
        have hcut : digits ++ '\x7d' :: tail = body ++ '\x7d' :: rest := by
          simpa [braced, opened] using heq
        obtain ⟨rfl, -⟩ := eq_of_append_brace hdigits.notMem_brace hbrace hcut
        exact ⟨c, hdigits⟩
  · rintro ⟨c, hdigits⟩
    exact (Escape.number hdigits).startsEscape rest

theorem not_startsEscape_opened (hbrace : '\x7d' ∉ body) : ¬StartsEscape (opened body) := by
  rintro ⟨written, c, hescape, tail, heq⟩
  cases hescape with
  | letter hletter => exact (letter_ne hletter).1 (List.cons.inj (List.cons.inj heq).2).1
  | @number digits =>
      have hbody : digits ++ '\x7d' :: tail = body := by simpa [braced, opened] using heq
      exact hbrace (hbody ▸ List.mem_append_right digits List.mem_cons_self)

/-! ### Texts that bodies stand for -/

theorem Decodes.of_escape (h : Escape written c) (hd : Decodes (written ++ rest) out) :
    ∃ out', out = c :: out' ∧ Decodes rest out' := by
  generalize hcs : written ++ rest = cs at hd
  cases hd with
  | nil =>
      obtain ⟨tail, rfl⟩ := h.exists_cons
      cases hcs
  | escape h' hrest =>
      obtain ⟨rfl, rfl⟩ := h.unique h' hcs
      exact ⟨_, rfl, hrest⟩
  | other hnone =>
      rw [← hcs] at hnone
      exact absurd (h.startsEscape rest) hnone

theorem Decodes.of_other (h : ¬StartsEscape (c :: rest)) (hd : Decodes (c :: rest) out) :
    ∃ out', out = c :: out' ∧ Decodes rest out' := by
  generalize hcs : c :: rest = cs at hd
  cases hd with
  | nil => cases hcs
  | escape h' =>
      rw [hcs] at h
      exact absurd (h'.startsEscape _) h
  | other _ hrest =>
      obtain ⟨rfl, rfl⟩ := List.cons.inj hcs
      exact ⟨_, rfl, hrest⟩

theorem Decodes.of_opened (h : ¬StartsEscape (opened rest)) (hd : Decodes (opened rest) out) :
    ∃ out', out = opened out' ∧ Decodes rest out' := by
  obtain ⟨_, rfl, hletter⟩ := Decodes.of_other h hd
  obtain ⟨_, rfl, hbrace⟩ := Decodes.of_other (not_startsEscape_of_ne (by decide) _) hletter
  obtain ⟨out', rfl, hrest⟩ := Decodes.of_other (not_startsEscape_of_ne (by decide) _) hbrace
  exact ⟨out', rfl, hrest⟩

theorem not_startsEscape_nil : ¬StartsEscape [] := by
  rintro ⟨written, c, hescape, hprefix⟩
  obtain ⟨tail, rfl⟩ := hescape.exists_cons
  cases List.prefix_nil.1 hprefix

theorem Decodes.of_nil (hd : Decodes [] out) : out = [] := by
  generalize hcs : [] = cs at hd
  cases hd with
  | nil => rfl
  | escape h => exact absurd (hcs ▸ h.startsEscape _) not_startsEscape_nil
  | other => cases hcs

theorem Decodes.cons_opened (h : ¬StartsEscape (opened rest)) (hd : Decodes rest out) :
    Decodes (opened rest) (opened out) :=
  .other h (.other (not_startsEscape_of_ne (by decide) _)
    (.other (not_startsEscape_of_ne (by decide) _) hd))

/-- A body stands for one text at most. -/
theorem Decodes.unique {out' : List Char} (h : Decodes cs out) (h' : Decodes cs out') :
    out = out' := by
  induction h generalizing out' with
  | nil => exact h'.of_nil.symm
  | escape hescape _ ih =>
      obtain ⟨_, rfl, hrest⟩ := Decodes.of_escape hescape h'
      rw [ih hrest]
  | other hnone _ ih =>
      obtain ⟨_, rfl, hrest⟩ := Decodes.of_other hnone h'
      rw [ih hrest]

theorem exists_decodes (cs : List Char) : ∃ out, Decodes cs out := by
  induction hlength : cs.length using Nat.strong_induction_on generalizing cs with
  | _ length ih =>
      by_cases hstarts : StartsEscape cs
      · obtain ⟨written, c, hescape, rest, rfl⟩ := hstarts
        have htwo := hescape.two_le
        rw [List.length_append] at hlength
        obtain ⟨out, hout⟩ := ih rest.length (by omega) rest rfl
        exact ⟨_, .escape hescape hout⟩
      · cases cs with
        | nil => exact ⟨_, .nil⟩
        | cons c rest =>
            rw [List.length_cons] at hlength
            obtain ⟨out, hout⟩ := ih rest.length (by omega) rest rfl
            exact ⟨_, .other hstarts hout⟩

/-- No sign is lost: there is none in an escape. -/
theorem Decodes.count_sign_le (h : Decodes cs out) : cs.count '+' ≤ out.count '+' := by
  induction h with
  | nil => exact Nat.le_refl _
  | escape hescape _ ih =>
      rw [List.count_append, hescape.count_sign, Nat.zero_add]
      exact ih.trans (List.count_le_count_cons ..)
  | other _ _ ih =>
      rw [List.count_cons, List.count_cons]
      exact Nat.add_le_add_right ih _

/-- No brace is made: an escape that stands for one has one. -/
theorem Decodes.count_brace_le (h : Decodes cs out) : out.count '\x7d' ≤ cs.count '\x7d' := by
  induction h with
  | nil => exact Nat.le_refl _
  | escape hescape _ ih =>
      rw [List.count_append, ← List.singleton_append, List.count_append]
      exact Nat.add_le_add hescape.count_brace_le ih
  | other _ _ ih =>
      rw [List.count_cons, List.count_cons]
      exact Nat.add_le_add_right ih _

theorem Decodes.notMem_brace (h : Decodes cs out) (hbrace : '\x7d' ∉ cs) : '\x7d' ∉ out := by
  rw [← List.count_eq_zero] at hbrace ⊢
  have hle := h.count_brace_le
  omega

theorem Decodes.length_le (h : Decodes cs out) : out.length ≤ cs.length := by
  induction h with
  | nil => exact Nat.le_refl _
  | escape hescape _ ih =>
      have htwo := hescape.two_le
      rw [List.length_cons, List.length_append]
      omega
  | other _ _ ih =>
      rw [List.length_cons, List.length_cons]
      exact Nat.succ_le_succ ih

/-- A brace that does not come through is that of a number. -/
theorem Decodes.length_add_four_le (h : Decodes cs out) (hbrace : '\x7d' ∈ cs)
    (hlost : '\x7d' ∉ out) : out.length + 4 ≤ cs.length := by
  induction h with
  | nil => cases hbrace
  | @escape written rest out c hescape hrest ih =>
      have hlength := hrest.length_le
      have htwo := hescape.two_le
      rw [List.length_cons, List.length_append]
      by_cases hwritten : '\x7d' ∈ written
      · have hfive := hescape.five_le hwritten
        omega
      · have hrest : '\x7d' ∈ rest := (List.mem_append.1 hbrace).resolve_left hwritten
        have hfour := ih hrest fun hmem => hlost (List.mem_cons_of_mem _ hmem)
        omega
  | @other rest out c _ _ ih =>
      have hne : c ≠ '\x7d' := fun heq => hlost (heq ▸ List.mem_cons_self)
      have hrest : '\x7d' ∈ rest := (List.mem_cons.1 hbrace).resolve_left hne.symm
      have hfour := ih hrest fun hmem => hlost (List.mem_cons_of_mem _ hmem)
      rw [List.length_cons, List.length_cons]
      omega

theorem Decodes.bare (h : Decodes cs out) (heq : out = cs) : Bare cs := by
  induction h with
  | nil =>
      intro front rest hsplit
      rw [(List.append_eq_nil_iff.1 hsplit.symm).2]
      exact not_startsEscape_nil
  | escape hescape hrest _ =>
      have hlength := congrArg List.length heq
      rw [List.length_cons, List.length_append] at hlength
      have hle := hrest.length_le
      have htwo := hescape.two_le
      omega
  | other hnone _ ih =>
      intro front rest hsplit
      cases front with
      | nil =>
          obtain rfl := hsplit
          exact hnone
      | cons first front => exact ih (List.cons.inj heq).2 front rest (List.cons.inj hsplit).2

/-- What stands for itself is what has no escape in it. -/
theorem decodes_self_iff : Decodes cs cs ↔ Bare cs := by
  constructor
  · intro h
    exact h.bare rfl
  · intro h
    induction cs with
    | nil => exact .nil
    | cons c cs ih =>
        exact .other (h [] _ rfl) (ih fun front rest hcs => h (c :: front) rest (by rw [hcs]; rfl))

/-! ### Bodies that are cut behind a brace -/

/-- A text that ends, if it is not empty, with a closing brace. -/
def Closed (cs : List Char) : Prop := ∀ front c, cs = front ++ [c] → c = '\x7d'

theorem closed_brace (body : List Char) : Closed (body ++ ['\x7d']) := by
  intro front c heq
  exact (List.cons.inj (List.append_inj_right' heq rfl)).1.symm

theorem Closed.of_append (h : Closed (front ++ rest)) : Closed rest := by
  intro front' c heq
  exact h (front ++ front') c (by rw [heq, List.append_assoc])

/-- An escape that starts in front of a brace does not go on behind it. -/
theorem startsEscape_append_iff (h : Closed (c :: cs)) (rest : List Char) :
    StartsEscape (c :: cs ++ rest) ↔ StartsEscape (c :: cs) := by
  constructor
  · rintro ⟨written, d, hescape, hprefix⟩
    refine ⟨written, d, hescape, ?_⟩
    rcases List.prefix_or_prefix_of_prefix hprefix (List.prefix_append _ rest) with hle | ⟨tail, heq⟩
    · exact hle
    · obtain ⟨front, last, hlast⟩ := List.eq_nil_or_concat' (c :: cs) |>.resolve_left (by simp)
      obtain rfl := h front last hlast
      have hwritten : written = front ++ '\x7d' :: tail := by
        rw [← heq, hlast, List.append_assoc]
        rfl
      obtain rfl := hescape.eq_nil_of_brace hwritten
      rw [List.append_nil] at heq
      exact heq ▸ List.prefix_rfl
  · rintro ⟨written, d, hescape, hprefix⟩
    exact ⟨written, d, hescape, hprefix.trans (List.prefix_append _ rest)⟩

theorem Decodes.append {done : List Char} (h : Decodes cs done) (hclosed : Closed cs)
    (hrest : Decodes rest out) : Decodes (cs ++ rest) (done ++ out) := by
  induction h with
  | nil => exact hrest
  | escape hescape _ ih =>
      rw [List.append_assoc]
      exact .escape hescape (ih hclosed.of_append)
  | @other tail done c hnone _ ih =>
      have htail : Closed ([c] ++ tail) := hclosed
      exact .other (mt (startsEscape_append_iff hclosed rest).1 hnone) (ih htail.of_append)

/-- What stands in front of a brace and behind it is decoded apart. -/
theorem Decodes.of_append (hclosed : Closed cs) (h : Decodes (cs ++ rest) out) :
    ∃ done out', out = done ++ out' ∧ Decodes cs done ∧ Decodes rest out' := by
  obtain ⟨done, hdone⟩ := exists_decodes cs
  obtain ⟨out', hout'⟩ := exists_decodes rest
  exact ⟨done, out', h.unique (hdone.append hclosed hout'), hdone, hout'⟩

/-- What a number that names no character stands for: its start, and what its inside stands for. -/
theorem Decodes.of_braced (hbrace : '\x7d' ∉ body) (hnone : ∀ c, ¬Numbers body c)
    (h : Decodes (braced body ++ rest) out) :
    ∃ done out', out = opened done ++ out' ∧ Decodes (body ++ ['\x7d']) done ∧
      Decodes rest out' := by
  have hstarts : ¬StartsEscape (braced body ++ rest) := fun hstarts =>
    (startsEscape_opened_iff hbrace).1 hstarts |>.elim hnone
  obtain ⟨out, rfl, hinside⟩ := Decodes.of_opened hstarts h
  obtain ⟨done, out', rfl, hdone, hrest⟩ := Decodes.of_append (closed_brace body) hinside
  exact ⟨done, out', rfl, hdone, hrest⟩

/-! ### What the reader makes of a body -/

theorem hexFrom_eq_some_iff {start n : Nat} : hexFrom start digits = some n ↔
    ∃ values, List.Forall₂ (fun digit value => hexDigit digit = some value) digits values ∧
      start * 16 ^ values.length + Nat.ofDigits 16 values.reverse = n := by
  induction digits generalizing start with
  | nil => simp [hexFrom]
  | cons digit digits ih =>
      rw [hexFrom, Option.bind_eq_some_iff]
      constructor
      · rintro ⟨value, hvalue, hrest⟩
        obtain ⟨values, hvalues, rfl⟩ := ih.1 hrest
        refine ⟨value :: values, .cons hvalue hvalues, ?_⟩
        rw [Nat.ofDigits_reverse_cons, List.length_cons, Nat.pow_succ]
        ring
      · rintro ⟨values, hvalues, rfl⟩
        cases hvalues with
        | @cons _ value _ values hvalue hvalues =>
            refine ⟨value, hvalue, ih.2 ⟨values, hvalues, ?_⟩⟩
            rw [Nat.ofDigits_reverse_cons, List.length_cons, Nat.pow_succ]
            ring

theorem scalar_eq_some_iff {n : Nat} : scalar n = some c ↔ c.toNat = n := by
  rw [scalar]
  constructor
  · intro h
    split at h
    next hvalid =>
      obtain rfl := Option.some.inj h
      rw [Char.ofNat, dif_pos hvalid]
      rfl
    next => cases h
  · rintro rfl
    have hvalid : c.toNat.isValidChar := c.valid
    rw [if_pos hvalid, Char.ofNat_toNat]

theorem numbers_iff : Numbers digits c ↔ digits ≠ [] ∧ hexFrom 0 digits = some c.toNat := by
  rw [Numbers, hexFrom_eq_some_iff]
  simp only [Nat.zero_mul, Nat.zero_add]

/-- The reader leaves out a sign in front of a number. -/
theorem number_eq_some_iff : (hexNumber body).bind scalar = some c ↔
    Numbers body c ∨ ∃ digits, body = '+' :: digits ∧ Numbers digits c := by
  have hplain : ∀ digits, (if digits.isEmpty then none else hexFrom 0 digits).bind scalar = some c ↔
      Numbers digits c := by
    intro digits
    rw [numbers_iff]
    cases digits with
    | nil => simp
    | cons first digits => simp [Option.bind_eq_some_iff, scalar_eq_some_iff]
  unfold hexNumber
  dsimp only
  split
  next digits =>
    rw [hplain]
    simp [not_numbers_sign]
  next hne =>
    rw [hplain]
    refine ⟨.inl, fun h => h.resolve_right ?_⟩
    rintro ⟨digits, rfl, -⟩
    exact hne digits rfl

theorem unescapeChars_of_number (h : (hexNumber (beforeBrace rest)).bind scalar = some c) :
    unescapeChars (opened rest) = c :: unescapeChars (afterBrace rest) := by
  rw [opened, unescapeChars, h]

theorem unescapeChars_of_none (h : (hexNumber (beforeBrace rest)).bind scalar = none) :
    unescapeChars (opened rest) = braced (beforeBrace rest) ++ unescapeChars (afterBrace rest) := by
  rw [opened, unescapeChars, h]
  simp [braced, opened]

theorem unescapeChars_braced (hbrace : '\x7d' ∉ body) (hnone : ∀ c, ¬Numbers body c)
    (hsign : ∀ digits c, body = '+' :: digits → ¬Numbers digits c) (rest : List Char) :
    unescapeChars (braced body ++ rest) = braced body ++ unescapeChars rest := by
  have hnumber : (hexNumber body).bind scalar = none := by
    rw [Option.eq_none_iff_forall_ne_some]
    intro c hsome
    rcases number_eq_some_iff.1 hsome with hc | ⟨digits, hbody, hc⟩
    · exact hnone c hc
    · exact hsign digits c hbody hc
  have hcs : braced body ++ rest = opened (body ++ '\x7d' :: rest) := by simp [braced, opened]
  rw [hcs, unescapeChars_of_none] <;> rw [beforeBrace_append hbrace]
  · rw [afterBrace_append hbrace]
  · exact hnumber

theorem unescapeChars_signed (h : Numbers digits c) (rest : List Char) :
    unescapeChars (braced ('+' :: digits) ++ rest) = c :: unescapeChars rest := by
  have hbrace : '\x7d' ∉ '+' :: digits := by simpa using h.notMem_brace
  have hcs : braced ('+' :: digits) ++ rest = opened ('+' :: digits ++ '\x7d' :: rest) := by
    simp [braced, opened]
  rw [hcs, unescapeChars_of_number (c := c)]
  · rw [afterBrace_append hbrace]
  · rw [beforeBrace_append hbrace]
    exact number_eq_some_iff.2 (.inr ⟨digits, rfl, h⟩)

theorem unescapeChars_escape_append (h : Escape written c) (rest : List Char) :
    unescapeChars (written ++ rest) = c :: unescapeChars rest := by
  cases h with
  | letter hletter => exact unescapeChars_of_unescapeOne (unescapeOne_eq_some_iff.2 hletter) rest
  | @number digits _ hdigits =>
      have hcs : braced digits ++ rest = opened (digits ++ '\x7d' :: rest) := by
        simp [braced, opened]
      rw [hcs, unescapeChars_of_number (c := c)]
      · rw [afterBrace_append hdigits.notMem_brace]
      · rw [beforeBrace_append hdigits.notMem_brace]
        exact number_eq_some_iff.2 (.inl hdigits)

/-- A number that is cut off is read as its character, or closed with a brace. -/
theorem unescapeChars_cutOff (hbrace : '\x7d' ∉ body) :
    unescapeChars (opened body) = braced body ∨ ∃ c, unescapeChars (opened body) = [c] := by
  have hnil : unescapeChars [] = [] := by rw [unescapeChars]
  cases hnumber : (hexNumber body).bind scalar with
  | none =>
      left
      rw [unescapeChars_of_none] <;> rw [beforeBrace_of_notMem hbrace]
      · rw [afterBrace_of_notMem hbrace, hnil, List.append_nil]
      · exact hnumber
  | some c =>
      right
      refine ⟨c, ?_⟩
      rw [unescapeChars_of_number (c := c)]
      · rw [afterBrace_of_notMem hbrace, hnil]
      · rw [beforeBrace_of_notMem hbrace, hnumber]

theorem unescapeChars_other (h : ¬StartsEscape (c :: rest))
    (hopened : ∀ body, c :: rest ≠ opened body) :
    unescapeChars (c :: rest) = c :: unescapeChars rest := by
  by_cases hc : c = '\\'
  · subst hc
    cases rest with
    | nil => simp [unescapeChars]
    | cons letter rest =>
        have hnone : unescapeOne letter = none := by
          rw [Option.eq_none_iff_forall_ne_some]
          intro d hd
          exact h ⟨_, d, .letter (unescapeOne_eq_some_iff.1 hd), rest, rfl⟩
        have hne : letter ≠ '\\' := by
          rintro rfl
          cases hnone
        rw [unescapeChars, hnone, unescapeChars_of_ne hne]
        rintro body rfl rfl
        exact hopened body rfl
  · exact unescapeChars_of_ne hc rest

/-- What the reader makes of a body, place by place. -/
inductive Reads : List Char → List Char → Prop where
  | nil : Reads [] []
  | escape {written rest read : List Char} {c : Char} (h : Escape written c)
      (hrest : Reads rest read) : Reads (written ++ rest) (c :: read)
  | signed {digits rest read : List Char} {c : Char} (h : Numbers digits c)
      (hrest : Reads rest read) : Reads (braced ('+' :: digits) ++ rest) (c :: read)
  | kept {body rest read : List Char} (hbrace : '\x7d' ∉ body) (hnone : ∀ c, ¬Numbers body c)
      (hrest : Reads rest read) : Reads (braced body ++ rest) (braced body ++ read)
  | cutOff {body read : List Char} (hbrace : '\x7d' ∉ body)
      (h : read = braced body ∨ ∃ c, read = [c]) : Reads (opened body) read
  | other {rest read : List Char} {c : Char} (h : ¬StartsEscape (c :: rest))
      (hopened : ∀ body, c :: rest ≠ opened body) (hrest : Reads rest read) :
      Reads (c :: rest) (c :: read)

theorem reads_unescapeChars (cs : List Char) : Reads cs (unescapeChars cs) := by
  induction hlength : cs.length using Nat.strong_induction_on generalizing cs with
  | _ length ih =>
      have hshorter : ∀ {front rest : List Char}, cs = front ++ rest → front ≠ [] →
          Reads rest (unescapeChars rest) := by
        intro front rest hsplit hfront
        have hpos := List.length_pos_of_ne_nil hfront
        refine ih rest.length ?_ rest rfl
        rw [← hlength, hsplit, List.length_append]
        omega
      by_cases hstarts : StartsEscape cs
      · obtain ⟨written, c, hescape, rest, rfl⟩ := hstarts
        rw [unescapeChars_escape_append hescape]
        refine .escape hescape (hshorter rfl ?_)
        obtain ⟨tail, rfl⟩ := hescape.exists_cons
        exact List.cons_ne_nil _ _
      by_cases hopened : ∃ inside, cs = opened inside
      · obtain ⟨inside, rfl⟩ := hopened
        by_cases hbrace : '\x7d' ∈ inside
        · obtain ⟨body, rest, rfl, hbody⟩ := List.eq_append_cons_of_mem hbrace
          have hcs : opened (body ++ '\x7d' :: rest) = braced body ++ rest := by
            simp [braced, opened]
          have hrest := hshorter hcs (List.cons_ne_nil _ _)
          rw [hcs] at hstarts ⊢
          have hnone : ∀ c, ¬Numbers body c := fun c hc =>
            hstarts ((startsEscape_opened_iff hbody).2 ⟨c, hc⟩)
          by_cases hsign : ∃ digits c, body = '+' :: digits ∧ Numbers digits c
          · obtain ⟨digits, c, rfl, hdigits⟩ := hsign
            rw [unescapeChars_signed hdigits]
            exact .signed hdigits hrest
          · rw [unescapeChars_braced hbody hnone fun digits c heq hdigits =>
              hsign ⟨digits, c, heq, hdigits⟩]
            exact .kept hbody hnone hrest
        · exact .cutOff hbrace (unescapeChars_cutOff hbrace)
      · cases cs with
        | nil =>
            rw [unescapeChars]
            exact .nil
        | cons c rest =>
            have hother : ∀ body, c :: rest ≠ opened body := fun body heq => hopened ⟨body, heq⟩
            rw [unescapeChars_other hstarts hother]
            exact .other hstarts hother (@hshorter [c] rest rfl (List.cons_ne_nil _ _))

/-! ### The reader does not fall into step again -/

/-- A number with a sign stands for itself. -/
theorem Decodes.of_signed (h : Numbers digits c)
    (hd : Decodes (braced ('+' :: digits) ++ rest) out) :
    ∃ done out', out = opened ('+' :: done) ++ out' ∧ Decodes rest out' := by
  have hbrace : '\x7d' ∉ '+' :: digits := by simpa using h.notMem_brace
  obtain ⟨done, out', rfl, hdone, hrest⟩ := Decodes.of_braced hbrace (not_numbers_sign digits) hd
  obtain ⟨done, rfl, -⟩ := Decodes.of_other (not_startsEscape_of_ne (by decide) _) hdone
  exact ⟨done, out', rfl, hrest⟩

/-- What a queue is after a number that names no character has gone through it. -/
theorem Decodes.exists_queue {done : List Char} (hd : Decodes (body ++ ['\x7d']) done)
    (hbody : '\x7d' ∉ body) (hsign : '+' ∉ queue) (hbrace : '\x7d' ∈ queue)
    (heq : queue ++ (braced body ++ read) = opened done ++ out) :
    ∃ queue', queue' ++ read = out ∧ '+' ∉ queue' ∧ '\x7d' ∈ queue' ∧
      queue.length ≤ queue'.length := by
  have hlength := hd.length_le
  rw [List.length_append, List.length_singleton] at hlength
  have hsigns := hd.count_sign_le
  have hbraces := hd.count_brace_le
  rw [List.count_append] at hsigns hbraces
  have hqueue := List.count_eq_zero.2 hsign
  have hone := List.one_le_count_iff.2 hbrace
  have hnone := List.count_eq_zero.2 hbody
  rw [← List.append_assoc] at heq
  rcases List.append_eq_append_iff.1 heq with ⟨middle, hdone, -⟩ | ⟨queue', hsplit, hout⟩
  · have hlong := congrArg List.length hdone
    have hpos := List.length_pos_of_mem hbrace
    simp [braced, opened] at hlong
    omega
  · refine ⟨queue', hout.symm, ?_, ?_, ?_⟩
    · have hcount := congrArg (List.count '+') hsplit
      rw [← List.count_eq_zero]
      simp [braced, opened] at hcount hsigns
      omega
    · have hcount := congrArg (List.count '\x7d') hsplit
      rw [← List.one_le_count_iff]
      simp [braced, opened] at hcount hbraces
      omega
    · have hcount := congrArg List.length hsplit
      simp [braced, opened] at hcount
      omega

/-- A reader that is ahead by a brace stays so. -/
theorem Reads.ne_of_ahead (h : Reads cs read) (hd : Decodes cs out) (hsign : '+' ∉ queue)
    (hbrace : '\x7d' ∈ queue) (hfour : 4 ≤ queue.length) : queue ++ read ≠ out := by
  -- one more character for both moves from the front of the queue to its end
  have hmove : ∀ {c : Char} {rest read : List Char}, (∀ {queue out : List Char},
      Decodes rest out → '+' ∉ queue → '\x7d' ∈ queue → 4 ≤ queue.length → queue ++ read ≠ out) →
      ∀ {queue out : List Char}, Decodes rest out → '+' ∉ queue → '\x7d' ∈ queue →
        4 ≤ queue.length → queue ++ c :: read ≠ c :: out := by
    intro c rest read ih queue out hd hsign hbrace hfour heq
    cases queue with
    | nil => cases hbrace
    | cons first queue =>
        obtain ⟨rfl, hrest⟩ := List.cons.inj heq
        refine @ih (queue ++ [first]) _ hd ?_ ?_ ?_ ?_
        · simpa [or_comm] using hsign
        · simpa [or_comm] using hbrace
        · simpa using hfour
        · simpa using hrest
  induction h generalizing queue out with
  | nil =>
      obtain rfl := hd.of_nil
      rw [List.append_nil]
      exact List.ne_nil_of_mem hbrace
  | escape hescape _ ih =>
      obtain ⟨out, rfl, hrest⟩ := Decodes.of_escape hescape hd
      exact hmove ih hrest hsign hbrace hfour
  | other hnone _ _ ih =>
      obtain ⟨out, rfl, hrest⟩ := Decodes.of_other hnone hd
      exact hmove ih hrest hsign hbrace hfour
  | signed hdigits _ _ =>
      obtain ⟨done, out, rfl, -⟩ := Decodes.of_signed hdigits hd
      intro heq
      -- the sign would be the fourth character of the queue
      have hfourth := congrArg (fun cs => cs[3]?) heq
      rw [List.getElem?_append_left hfour] at hfourth
      exact hsign (List.mem_of_getElem? hfourth)
  | @kept body rest read hbody hnone _ ih =>
      obtain ⟨done, out, rfl, hdone, hrest⟩ := Decodes.of_braced hbody hnone hd
      intro heq
      obtain ⟨queue', hout, hsign', hbrace', hlength⟩ :=
        hdone.exists_queue hbody hsign hbrace heq
      exact ih hrest hsign' hbrace' (hfour.trans hlength) hout
  | @cutOff body read hbody _ =>
      have hopened : '\x7d' ∉ opened body := by simpa [opened] using hbody
      intro heq
      exact hd.notMem_brace hopened (heq ▸ List.mem_append_left read hbrace)

/-- A reader that is behind by a sign stays so. -/
theorem Reads.ne_of_behind (h : Reads cs read) (hd : Decodes cs out) (hsign : '+' ∈ queue) :
    read ≠ queue ++ out := by
  have hmove : ∀ {c : Char} {rest read : List Char}, (∀ {queue out : List Char},
      Decodes rest out → '+' ∈ queue → read ≠ queue ++ out) →
      ∀ {queue out : List Char}, Decodes rest out → '+' ∈ queue → c :: read ≠ queue ++ c :: out := by
    intro c rest read ih queue out hd hsign heq
    cases queue with
    | nil => cases hsign
    | cons first queue =>
        obtain ⟨rfl, hrest⟩ := List.cons.inj heq
        refine @ih (queue ++ [c]) _ hd ?_ ?_
        · simpa [or_comm] using hsign
        · simpa using hrest
  induction h generalizing queue out with
  | nil => exact fun heq => List.ne_nil_of_mem hsign (List.append_eq_nil_iff.1 heq.symm).1
  | escape hescape _ ih =>
      obtain ⟨out, rfl, hrest⟩ := Decodes.of_escape hescape hd
      exact hmove ih hrest hsign
  | other hnone _ _ ih =>
      obtain ⟨out, rfl, hrest⟩ := Decodes.of_other hnone hd
      exact hmove ih hrest hsign
  | signed hdigits _ ih =>
      obtain ⟨done, out, rfl, hrest⟩ := Decodes.of_signed hdigits hd
      intro heq
      cases queue with
      | nil => cases hsign
      | cons first queue =>
          obtain ⟨rfl, hread⟩ := List.cons.inj heq
          refine @ih _ (queue ++ opened ('+' :: done)) hrest ?_ ?_
          · simp [opened]
          · simpa using hread
  | @kept body rest read hbody hnone _ ih =>
      obtain ⟨done, out, rfl, hdone, hrest⟩ := Decodes.of_braced hbody hnone hd
      have hsigns := hdone.count_sign_le
      rw [List.count_append] at hsigns
      have hone := List.one_le_count_iff.2 hsign
      intro heq
      rw [← List.append_assoc] at heq
      rcases List.append_eq_append_iff.1 heq with ⟨queue', hsplit, hread⟩ | ⟨middle, hsplit, -⟩
      · refine @ih _ queue' hrest ?_ hread
        have hcount := congrArg (List.count '+') hsplit
        rw [← List.one_le_count_iff]
        simp [braced, opened] at hcount hsigns
        omega
      · have hcount := congrArg (List.count '+') hsplit
        simp [braced, opened] at hcount hsigns
        omega
  | @cutOff body read hbody hread =>
      obtain ⟨out, rfl, hinside⟩ := Decodes.of_opened (not_startsEscape_opened hbody) hd
      intro heq
      rcases hread with rfl | ⟨c, rfl⟩
      · have hsigns := hinside.count_sign_le
        have hone := List.one_le_count_iff.2 hsign
        have hcount := congrArg (List.count '+') heq
        simp [braced, opened] at hcount
        omega
      · have hlength := congrArg List.length heq
        simp [opened] at hlength
        omega

theorem Reads.decodes (h : Reads cs read) (hread : ¬Misread cs) : Decodes cs read := by
  induction h with
  | nil => exact .nil
  | escape hescape _ ih => exact .escape hescape (ih fun hrest => hread (.escape hescape hrest))
  | other hnone hopened _ ih => exact .other hnone (ih fun hrest => hread (.other hnone hopened hrest))
  | signed hdigits => exact absurd (.signed hdigits _) hread
  | cutOff hbrace => exact absurd (.cutOff hbrace) hread
  | @kept body rest read hbrace hnone _ ih =>
      have hbare : Bare (body ++ ['\x7d']) := by
        by_contra hescape
        exact hread (.passedOver hbrace hnone hescape rest)
      have hinside := decodes_self_iff.2 hbare
      have hrest := ih fun hrest => hread (.behind hbrace hnone hrest)
      have hstarts : ¬StartsEscape (opened (body ++ ['\x7d'] ++ rest)) := fun hstarts => by
        have hbraced : StartsEscape (braced body ++ rest) := hstarts
        exact (startsEscape_opened_iff hbrace).1 hbraced |>.elim hnone
      exact .cons_opened hstarts (hinside.append (closed_brace body) hrest)

/-- A number with a sign is read as one character, while it stands for all of itself. -/
theorem not_decodes_signed (h : Numbers digits c) :
    ¬Decodes (braced ('+' :: digits) ++ rest)
      (unescapeChars (braced ('+' :: digits) ++ rest)) := by
  intro hd
  obtain ⟨done, out, heq, hrest⟩ := Decodes.of_signed h hd
  rw [unescapeChars_signed h] at heq
  have hsign : '+' ∈ 'u' :: '\x7b' :: '+' :: done := by simp
  exact (reads_unescapeChars rest).ne_of_behind hrest hsign (List.cons.inj heq).2

/-- The escapes that the reader has passed over put it ahead, by a brace and three more characters
at least. -/
theorem Decodes.exists_ahead {done : List Char} (hd : Decodes (body ++ ['\x7d']) done)
    (hbrace : '\x7d' ∉ body) (hescape : ¬Bare (body ++ ['\x7d']))
    (heq : body ++ ['\x7d'] ++ read = done ++ out) :
    ∃ queue, queue ++ read = out ∧ '+' ∉ queue ∧ '\x7d' ∈ queue ∧ 4 ≤ queue.length := by
  have hlength := hd.length_le
  have hne : done ≠ body ++ ['\x7d'] := fun hsame => hescape (hd.bare hsame)
  rcases List.append_eq_append_iff.1 heq with ⟨middle, hdone, -⟩ | ⟨queue, hsplit, hout⟩
  · rw [hdone, List.length_append] at hlength
    obtain rfl := List.eq_nil_of_length_eq_zero (by omega : middle.length = 0)
    exact absurd (hdone.trans (List.append_nil _)) hne
  · have hlast : '\x7d' ∈ queue := by
      rcases List.eq_nil_or_concat' queue with rfl | ⟨front, last, rfl⟩
      · exact absurd (hsplit.trans (List.append_nil _)).symm hne
      · have hclosed : Closed (done ++ (front ++ [last])) := hsplit ▸ closed_brace body
        rw [hclosed.of_append front last rfl]
        simp
    have hbraces := congrArg (List.count '\x7d') hsplit
    have hsigns := congrArg (List.count '+') hsplit
    have hkept := hd.count_sign_le
    have hone := List.one_le_count_iff.2 hlast
    have hnone := List.count_eq_zero.2 hbrace
    simp only [List.count_append, hnone] at hbraces hsigns hkept
    have hbody : '\x7d' ∉ done := by
      rw [← List.count_eq_zero]
      simp at hbraces
      omega
    have hfour := hd.length_add_four_le (by simp) hbody
    have hlengths := congrArg List.length hsplit
    rw [List.length_append, List.length_append] at hlengths
    refine ⟨queue, hout.symm, ?_, hlast, ?_⟩
    · rw [← List.count_eq_zero]
      omega
    · rw [List.length_append] at hfour
      omega

/-- Where a number that names no character is read as what it stands for, no escape stands in it. -/
theorem Decodes.bare_of_braced (hbrace : '\x7d' ∉ body) (hnone : ∀ c, ¬Numbers body c)
    (hd : Decodes (braced body ++ rest) (unescapeChars (braced body ++ rest))) :
    Bare (body ++ ['\x7d']) ∧ Decodes rest (unescapeChars rest) := by
  by_cases hsign : ∃ digits c, body = '+' :: digits ∧ Numbers digits c
  · obtain ⟨digits, c, rfl, hdigits⟩ := hsign
    exact absurd hd (not_decodes_signed hdigits)
  obtain ⟨done, out, heq, hdone, hrest⟩ := Decodes.of_braced hbrace hnone hd
  rw [unescapeChars_braced hbrace hnone fun digits c heq hdigits =>
    hsign ⟨digits, c, heq, hdigits⟩] at heq
  have hinside : body ++ ['\x7d'] ++ unescapeChars rest = done ++ out := by
    simpa [braced, opened] using heq
  by_cases hescape : Bare (body ++ ['\x7d'])
  · obtain rfl := hdone.unique (decodes_self_iff.2 hescape)
    exact ⟨hescape, (List.append_cancel_left hinside) ▸ hrest⟩
  · obtain ⟨queue, hout, hsigns, hlast, hfour⟩ := hdone.exists_ahead hbrace hescape hinside
    exact absurd hout ((reads_unescapeChars rest).ne_of_ahead hrest hsigns hlast hfour)

/-- What is misread comes out wrong. -/
theorem Misread.not_decodes (h : Misread cs) : ¬Decodes cs (unescapeChars cs) := by
  intro hd
  induction h with
  | @cutOff body hbrace =>
      obtain ⟨out, heq, hinside⟩ := Decodes.of_opened (not_startsEscape_opened hbrace) hd
      rcases unescapeChars_cutOff hbrace with hread | ⟨c, hread⟩
      · have hout : '\x7d' ∈ opened out := by
          rw [← heq, hread]
          simp [braced, opened]
        have hnot := hinside.notMem_brace hbrace
        simp [opened, hnot] at hout
      · rw [hread] at heq
        cases heq
  | signed hdigits => exact not_decodes_signed hdigits hd
  | passedOver hbrace hnone hescape => exact hescape (hd.bare_of_braced hbrace hnone).1
  | escape hescape _ ih =>
      rw [unescapeChars_escape_append hescape] at hd
      obtain ⟨out, heq, hrest⟩ := Decodes.of_escape hescape hd
      exact ih ((List.cons.inj heq).2 ▸ hrest)
  | behind hbrace hnone _ ih => exact ih (hd.bare_of_braced hbrace hnone).2
  | other hnone hopened _ ih =>
      rw [unescapeChars_other hnone hopened] at hd
      obtain ⟨out, heq, hrest⟩ := Decodes.of_other hnone hd
      exact ih ((List.cons.inj heq).2 ▸ hrest)

theorem decodes_unescapeChars_iff : Decodes cs (unescapeChars cs) ↔ ¬Misread cs :=
  ⟨fun hd h => h.not_decodes hd, (reads_unescapeChars cs).decodes⟩

end Quoted

open Quoted in
/-- A body stands for one text, which is the body itself if there is no escape in it. The reader gives
this text exactly if it comes to no place that it misreads. -/
theorem decodes_unescape_iff (raw : String) :
    (∃! text, Decodes raw.toList text) ∧
      (Decodes raw.toList (unescape raw).toList ↔ ¬Misread raw.toList) ∧
      (Bare raw.toList → (unescape raw = raw ↔ ¬Misread raw.toList)) := by
  have hread : (unescape raw).toList = unescapeChars raw.toList := by
    rw [unescape, String.toList_ofList]
  refine ⟨?_, ?_, fun hbare => ?_⟩
  · obtain ⟨text, htext⟩ := exists_decodes raw.toList
    exact ⟨text, htext, fun other hother => hother.unique htext⟩
  · rw [hread, decodes_unescapeChars_iff]
  · have hself := decodes_self_iff.2 hbare
    rw [← String.toList_inj, hread, ← decodes_unescapeChars_iff]
    exact ⟨fun heq => heq.symm ▸ hself, fun hd => hd.unique hself⟩

open Quoted in
/-- A number that is cut off is no escape, and it does not stay as it is. -/
theorem unescape_cutOff_ne : Bare "\\u\x7bzz".toList ∧ unescape "\\u\x7bzz" ≠ "\\u\x7bzz" := by
  have hbrace : '\x7d' ∉ ['z', 'z'] := by decide
  have hself : Decodes (opened ['z', 'z']) (opened ['z', 'z']) :=
    .cons_opened (not_startsEscape_opened hbrace)
      (.other (not_startsEscape_of_ne (by decide) _)
        (.other (not_startsEscape_of_ne (by decide) _) .nil))
  have hbare : Bare "\\u\x7bzz".toList := decodes_self_iff.1 hself
  exact ⟨hbare, fun heq => ((decodes_unescape_iff _).2.2 hbare).1 heq (.cutOff hbrace)⟩

end Caret
