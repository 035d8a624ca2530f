namespace Caret.Keyed

variable {α : Type} (key : α → String)

/-- Puts an element into a list in the order of the keys, in place of one with the same key. -/
def insert (x : α) : List α → List α
  | [] => [x]
  | first :: rest =>
    if key x < key first then x :: first :: rest
    else if key x = key first then x :: rest
    else first :: insert x rest

/-- The elements in the order of their keys; of those with one key the last one counts. -/
def ofList (xs : List α) : List α := xs.foldl (fun sorted x => insert key x sorted) []

/-- Each key comes before the keys of all later elements, so no two are the same. -/
abbrev Sorted (xs : List α) : Prop := xs.Pairwise fun a b => key a < key b

variable {key}

theorem eq_or_mem_of_mem_insert {x y : α} {xs : List α} (h : y ∈ insert key x xs) :
    y = x ∨ y ∈ xs := by
  fun_induction insert key x xs <;> grind

theorem mem_insert_self (x : α) (xs : List α) : x ∈ insert key x xs := by
  fun_induction insert key x xs <;> grind

theorem mem_insert_of_ne {x y : α} {xs : List α} (h : y ∈ xs) (hne : key y ≠ key x) :
    y ∈ insert key x xs := by
  fun_induction insert key x xs <;> grind

theorem sorted_insert {x : α} {xs : List α} (h : Sorted key xs) : Sorted key (insert key x xs) := by
  fun_induction insert key x xs with
  | case1 => exact List.pairwise_singleton _ _
  | case2 first rest hlt =>
    refine List.pairwise_cons.2 ⟨fun y hy => ?_, h⟩
    rcases List.mem_cons.1 hy with rfl | hy
    · exact hlt
    · exact String.lt_trans hlt ((List.pairwise_cons.1 h).1 y hy)
  | case3 first rest _ heq =>
    have hcons := List.pairwise_cons.1 h
    exact List.pairwise_cons.2 ⟨fun y hy => heq ▸ hcons.1 y hy, hcons.2⟩
  | case4 first rest hge hne ih =>
    have hcons := List.pairwise_cons.1 h
    refine List.pairwise_cons.2 ⟨fun y hy => ?_, ih hcons.2⟩
    rcases eq_or_mem_of_mem_insert hy with rfl | hy
    · exact Std.lt_of_le_of_ne (String.not_lt.1 hge) (Ne.symm hne)
    · exact hcons.1 y hy

theorem sorted_foldl_insert (xs : List α) {sorted : List α} (h : Sorted key sorted) :
    Sorted key (xs.foldl (fun sorted x => insert key x sorted) sorted) := by
  induction xs generalizing sorted with
  | nil => exact h
  | cons x xs ih => exact ih (sorted_insert h)

theorem sorted_ofList (xs : List α) : Sorted key (ofList key xs) :=
  sorted_foldl_insert xs List.Pairwise.nil

end Caret.Keyed
