namespace Caret

variable {α β : Type}

def distinctAfter [BEq β] (key : α → β) (seen : List β) : List α → List α
  | [] => []
  | x :: xs =>
    if seen.contains (key x) then distinctAfter key seen xs
    else x :: distinctAfter key (key x :: seen) xs

/-- Of the elements with one key only the first stays. -/
def distinctBy [BEq β] (key : α → β) (xs : List α) : List α := distinctAfter key [] xs

theorem distinctAfter_sublist [BEq β] (key : α → β) (seen : List β) (xs : List α) :
    (distinctAfter key seen xs).Sublist xs := by
  fun_induction distinctAfter key seen xs with
  | case1 => exact .slnil
  | case2 _ _ _ _ ih => exact ih.cons _
  | case3 _ _ _ _ ih => exact ih.cons_cons _

theorem key_not_mem_of_mem_distinctAfter [BEq β] [LawfulBEq β] {key : α → β} {seen : List β}
    {xs : List α} {x : α} (h : x ∈ distinctAfter key seen xs) : key x ∉ seen := by
  fun_induction distinctAfter key seen xs <;> grind

theorem pairwise_distinctAfter [BEq β] [LawfulBEq β] (key : α → β) (seen : List β)
    (xs : List α) : (distinctAfter key seen xs).Pairwise fun a b => key a ≠ key b := by
  fun_induction distinctAfter key seen xs with
  | case1 => exact .nil
  | case2 _ _ _ _ ih => exact ih
  | case3 seen x xs _ ih =>
    refine List.pairwise_cons.2 ⟨fun y hy heq => ?_, ih⟩
    exact key_not_mem_of_mem_distinctAfter hy (heq ▸ List.mem_cons_self)

theorem key_mem_or_exists_mem_distinctAfter [BEq β] [LawfulBEq β] {key : α → β} (seen : List β)
    {xs : List α} {x : α} (h : x ∈ xs) :
    key x ∈ seen ∨ ∃ y ∈ distinctAfter key seen xs, key y = key x := by
  fun_induction distinctAfter key seen xs <;> grind

theorem distinctBy_sublist [BEq β] (key : α → β) (xs : List α) :
    (distinctBy key xs).Sublist xs :=
  distinctAfter_sublist key [] xs

theorem pairwise_distinctBy [BEq β] [LawfulBEq β] (key : α → β) (xs : List α) :
    (distinctBy key xs).Pairwise fun a b => key a ≠ key b :=
  pairwise_distinctAfter key [] xs

/-- What comes first is kept whatever follows. -/
theorem distinctAfter_append [BEq β] (key : α → β) (seen : List β) (xs ys : List α) :
    ∃ rest, distinctAfter key seen (xs ++ ys) = distinctAfter key seen xs ++ rest := by
  induction xs generalizing seen with
  | nil => exact ⟨_, rfl⟩
  | cons x xs ih =>
    rw [List.cons_append, distinctAfter, distinctAfter]
    split
    · exact ih seen
    · obtain ⟨rest, hrest⟩ := ih (key x :: seen)
      exact ⟨rest, by rw [hrest, List.cons_append]⟩

/-- No key is lost. -/
theorem exists_mem_distinctBy [BEq β] [LawfulBEq β] {key : α → β} {xs : List α} {x : α}
    (h : x ∈ xs) : ∃ y ∈ distinctBy key xs, key y = key x :=
  (key_mem_or_exists_mem_distinctAfter [] h).resolve_left List.not_mem_nil

end Caret
