/-!
# The last of equal elements

A list is cut at the last of the elements that are equal to a given one by a search from its end.
Lines of a text, directories of a path and extensions of a name are found so.
-/

namespace JamCompiler

variable {α : Type} {x : α} {before after l : List α}

theorem exists_last (h : x ∈ l) : ∃ before after, l = before ++ x :: after ∧ x ∉ after := by
  obtain ⟨after, before, split, none⟩ := List.eq_append_cons_of_mem (List.mem_reverse.mpr h)
  refine ⟨before.reverse, after.reverse, ?_, by simpa using none⟩
  rw [← List.reverse_reverse l, split]
  simp

variable [BEq α] [LawfulBEq α]

theorem all_others (none : x ∉ l) : ∀ a ∈ l.reverse, (a != x) = true := by
  intro a ha
  rw [bne_iff_ne]
  rintro rfl
  exact none (List.mem_reverse.mp ha)

theorem dropWhile_reverse (none : x ∉ after) :
    (before ++ x :: after).reverse.dropWhile (· != x) = x :: before.reverse := by
  rw [List.reverse_append, List.reverse_cons, List.append_assoc,
    List.dropWhile_append_of_pos (all_others none), List.singleton_append,
    List.dropWhile_cons_of_neg (by simp)]

theorem takeWhile_reverse (none : x ∉ after) :
    (before ++ x :: after).reverse.takeWhile (· != x) = after.reverse := by
  rw [List.reverse_append, List.reverse_cons, List.append_assoc,
    List.takeWhile_append_of_pos (all_others none), List.singleton_append,
    List.takeWhile_cons_of_neg (by simp), List.append_nil]

theorem dropWhile_reverse_of_not_mem (none : x ∉ l) : l.reverse.dropWhile (· != x) = [] := by
  rw [← List.append_nil l.reverse, List.dropWhile_append_of_pos (all_others none)]
  rfl

theorem takeWhile_reverse_of_not_mem (none : x ∉ l) : l.reverse.takeWhile (· != x) = l.reverse := by
  rw [← List.append_nil l.reverse, List.takeWhile_append_of_pos (all_others none)]
  rfl

end JamCompiler
