import Caret.Completion
import Caret.Proofs.Text.Utf8
import Mathlib.Data.List.Sort

/-!
# What becomes of the suggestions that are made

Of the suggestions that are made, those that are wanted stay, and of these the first one with each
label. They are given in the order of the bytes of their labels. A suggestion is placed where its
context tells if it names no place itself, its line breaks become line feeds, and its spans are cut at
the end of the text.
-/

namespace Caret

section Distinct

variable {α β : Type} [BEq β] [LawfulBEq β] {key : α → β}

theorem mem_distinctAfter_iff {seen : List β} {xs : List α} {x : α} :
    x ∈ distinctAfter key seen xs ↔
      key x ∉ seen ∧ xs.find? (fun y => key y == key x) = some x := by
  fun_induction distinctAfter key seen xs with
  | case1 => simp
  | case2 seen y ys hseen ih =>
      rw [ih, List.find?_cons]
      refine and_congr_right fun hfresh => ?_
      have hne : (key y == key x) = false :=
        beq_eq_false_iff_ne.2 fun heq => hfresh (heq ▸ List.contains_iff_mem.1 hseen)
      rw [hne]
  | case3 seen y ys hseen ih =>
      have hfresh : key y ∉ seen := fun hmem => hseen (List.contains_iff_mem.2 hmem)
      rw [List.mem_cons, ih, List.find?_cons, List.mem_cons, not_or]
      by_cases heq : key y = key x
      · rw [heq] at hfresh
        simp [heq, hfresh, eq_comm]
      · have hne : x ≠ y := fun h => heq (h ▸ rfl)
        simp [beq_eq_false_iff_ne.2 heq, hne, Ne.symm heq]

/-- What stays is the first element with its key. -/
theorem mem_distinctBy_iff {xs : List α} {x : α} :
    x ∈ distinctBy key xs ↔ xs.find? (fun y => key y == key x) = some x := by
  rw [distinctBy, mem_distinctAfter_iff]
  exact and_iff_right List.not_mem_nil

end Distinct

namespace Suggestion

variable {cs ds : List Char}

/-- The second list is the first one with a line feed for each line break that has a return: for a
return with a line feed behind it, and for a return alone. -/
inductive Unifies : List Char → List Char → Prop
  | nil : Unifies [] []
  | pair {cs ds : List Char} : Unifies cs ds → Unifies ('\r' :: '\n' :: cs) ('\n' :: ds)
  | lone {cs ds : List Char} : cs.head? ≠ some '\n' → Unifies cs ds →
      Unifies ('\r' :: cs) ('\n' :: ds)
  | other {c : Char} {cs ds : List Char} : c ≠ '\r' → Unifies cs ds → Unifies (c :: cs) (c :: ds)

theorem Unifies.return_not_mem (h : Unifies cs ds) : '\r' ∉ ds := by
  induction h with
  | nil => exact List.not_mem_nil
  | pair _ ih => simpa using ih
  | lone _ _ ih => simpa using ih
  | other hne _ ih => simpa [Ne.symm hne] using ih

/-- Joining the pairs leaves only the returns that stand alone. -/
theorem unifies_joinPairs (cs : List Char) :
    Unifies cs ((joinPairs cs).map fun c => if c = '\r' then '\n' else c) := by
  fun_induction joinPairs cs with
  | case1 => exact .nil
  | case2 cs ih => exact .pair ih
  | case3 c cs hpair ih =>
      by_cases hc : c = '\r'
      · subst hc
        refine .lone (fun hhead => ?_) ih
        obtain ⟨rest, rfl⟩ := List.head?_eq_some_iff.1 hhead
        exact hpair rest rfl rfl
      · rw [List.map_cons, if_neg hc]
        exact .other hc ih

/-- The second text is the first one with its line breaks as line feeds. -/
def UnifiesText (before after : String) : Prop := Unifies before.toList after.toList

theorem unifiesText_unifyLines (text : String) : UnifiesText text (unifyLines text) := by
  rw [UnifiesText, unifyLines, String.toList_ofList]
  exact unifies_joinPairs text.toList

theorem return_not_mem_unifyLines (text : String) : '\r' ∉ (unifyLines text).toList :=
  (unifiesText_unifyLines text).return_not_mem

/-- What is given of a suggestion that was made in a context that replaces some bytes. -/
structure GivenOf (replacement : Span) (size : Nat) (made given : Suggestion) : Prop where
  label : given.label = made.label
  kind : given.kind = made.kind
  format : given.format = made.format
  insertText : UnifiesText made.insertText given.insertText
  detail : Option.Rel UnifiesText made.detail given.detail
  documentation : Option.Rel UnifiesText made.documentation given.documentation
  replacement : given.replacement = (made.replacement.or
    (if replacement.isEmpty then none else some replacement)).map fun span => span.clamp size
  additionalEdits : List.Forall₂ (fun old new : TextEdit => new.span = old.span.clamp size ∧
    UnifiesText old.newText new.newText) made.additionalEdits given.additionalEdits

/-- A suggestion whose texts have no return and whose spans lie in the first `size` bytes. -/
structure Fits (size : Nat) (suggestion : Suggestion) : Prop where
  insertText : '\r' ∉ suggestion.insertText.toList
  detail : ∀ text ∈ suggestion.detail, '\r' ∉ text.toList
  documentation : ∀ text ∈ suggestion.documentation, '\r' ∉ text.toList
  replacement : ∀ span ∈ suggestion.replacement, span.start ≤ span.stop ∧ span.stop ≤ size
  additionalEdits : ∀ edit ∈ suggestion.additionalEdits, '\r' ∉ edit.newText.toList ∧
    edit.span.start ≤ edit.span.stop ∧ edit.span.stop ≤ size

theorem rel_map_unifyLines (text : Option String) :
    Option.Rel UnifiesText text (text.map unifyLines) := by
  cases text with
  | none => exact .none
  | some text => exact .some (unifiesText_unifyLines text)

theorem fits_normalize (suggestion : Suggestion) (size : Nat) :
    (suggestion.normalize size).Fits size := by
  have htext : ∀ {before : Option String} {text : String}, text ∈ before.map unifyLines →
      '\r' ∉ text.toList := by
    intro before text h
    obtain ⟨old, -, rfl⟩ := Option.map_eq_some_iff.1 h
    exact return_not_mem_unifyLines old
  refine ⟨return_not_mem_unifyLines _, fun _ => htext, fun _ => htext, fun span h => ?_,
    fun edit h => ?_⟩
  · obtain ⟨old, -, rfl⟩ := Option.map_eq_some_iff.1 h
    exact ⟨old.clamp_start_le_stop size, old.clamp_stop_le size⟩
  · obtain ⟨old, -, rfl⟩ := List.mem_map.1 h
    exact ⟨return_not_mem_unifyLines _, old.span.clamp_start_le_stop size,
      old.span.clamp_stop_le size⟩

end Suggestion

namespace Completion

variable {raw : List Suggestion} {replacement : Span} {settings : Settings} {size : Nat}
  {suggestion : Suggestion}

theorem givenOf_normalize_placed (replacement : Span) (made : Suggestion) (size : Nat) :
    made.GivenOf replacement size ((placed replacement made).normalize size) := by
  have hfields : ∀ span, Suggestion.GivenOf replacement size made
      (({ made with replacement := span } : Suggestion).normalize size) ↔
        span.map (·.clamp size) = (made.replacement.or
          (if replacement.isEmpty then none else some replacement)).map (·.clamp size) := by
    intro span
    refine ⟨fun h => h.replacement, fun h => ⟨rfl, rfl, rfl, Suggestion.unifiesText_unifyLines _,
      Suggestion.rel_map_unifyLines _, Suggestion.rel_map_unifyLines _, h, ?_⟩⟩
    refine List.forall₂_map_right_iff.2 (List.forall₂_same.2 fun edit _ => ?_)
    exact ⟨rfl, Suggestion.unifiesText_unifyLines _⟩
  unfold placed
  split
  case isTrue h =>
    obtain ⟨hnone, hempty⟩ : made.replacement = none ∧ replacement.isEmpty = false := by
      simpa using h
    exact (hfields (some replacement)).2 (by simp [hnone, hempty])
  case isFalse h =>
    refine (hfields made.replacement).2 (congrArg _ ?_)
    cases hspan : made.replacement with
    | some span => rfl
    | none =>
        have hempty : replacement.isEmpty = true := by simpa [hspan] using h
        simp [hempty]

theorem mem_finish_iff :
    suggestion ∈ finish raw replacement settings size ↔
      ∃ made ∈ distinctBy Suggestion.label (raw.filter fun suggestion =>
        settings.snippets || !suggestion.isSnippet),
        (placed replacement made).normalize size = suggestion := by
  rw [finish, List.mem_map]
  simp only [List.mem_mergeSort]

/-- Labels are given in their order, each one once. -/
theorem pairwise_finish (raw : List Suggestion) (replacement : Span) (settings : Settings)
    (size : Nat) :
    ((finish raw replacement settings size).map Suggestion.label).Pairwise (· < ·) := by
  generalize hwanted : distinctBy Suggestion.label (raw.filter fun suggestion =>
    settings.snippets || !suggestion.isSnippet) = wanted
  have hlabels : (finish raw replacement settings size).map Suggestion.label =
      (wanted.mergeSort fun a b => !(b.label < a.label)).map Suggestion.label := by
    rw [finish, hwanted, List.map_map]
    exact List.map_congr_left fun made _ => (givenOf_normalize_placed replacement made size).label
  have hdistinct : (wanted.mergeSort fun a b => !(b.label < a.label)).Pairwise fun a b =>
      a.label ≠ b.label := by
    refine (List.mergeSort_perm _ _).symm.pairwise ?_ fun h => h.symm
    rw [← hwanted]
    exact pairwise_distinctBy Suggestion.label _
  have hsorted : (wanted.mergeSort fun a b => !(b.label < a.label)).Pairwise fun a b =>
      (!(b.label < a.label)) = true := by
    refine List.pairwise_mergeSort (fun a b c hab hbc => ?_) (fun a b => ?_) _
    · simp only [Bool.not_eq_true', decide_eq_false_iff_not, String.not_lt] at hab hbc ⊢
      exact String.le_trans hab hbc
    · simp only [Bool.or_eq_true, Bool.not_eq_true', decide_eq_false_iff_not, String.not_lt]
      exact String.le_total _ _
  rw [hlabels, List.pairwise_map]
  refine (hsorted.and hdistinct).imp fun {a b} h => ?_
  have hle : a.label ≤ b.label := by
    rw [← String.not_lt, ← decide_eq_false_iff_not, ← Bool.not_eq_true']
    exact h.1
  exact Std.lt_of_le_of_ne hle h.2

/-- The labels that are given are those of all that are made and wanted. -/
theorem exists_label_finish_iff (label : String) :
    (∃ suggestion ∈ finish raw replacement settings size, suggestion.label = label) ↔
      ∃ made ∈ raw, (settings.snippets || !made.isSnippet) = true ∧ made.label = label := by
  constructor
  · rintro ⟨suggestion, hmem, rfl⟩
    obtain ⟨made, hmade, rfl⟩ := mem_finish_iff.1 hmem
    obtain ⟨hin, hwanted⟩ := List.mem_filter.1 ((distinctBy_sublist _ _).subset hmade)
    exact ⟨made, hin, hwanted, (givenOf_normalize_placed replacement made size).label.symm⟩
  · rintro ⟨made, hin, hwanted, rfl⟩
    have hkept : made ∈ raw.filter fun suggestion =>
        settings.snippets || !suggestion.isSnippet := List.mem_filter.2 ⟨hin, hwanted⟩
    have hexists : ∃ first ∈ distinctBy Suggestion.label _, first.label = made.label :=
      exists_mem_distinctBy hkept
    obtain ⟨first, hfirst, hlabel⟩ := hexists
    refine ⟨_, mem_finish_iff.2 ⟨first, hfirst, rfl⟩, ?_⟩
    exact (givenOf_normalize_placed replacement first size).label.trans hlabel

end Completion

end Caret
