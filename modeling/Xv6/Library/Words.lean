import Mathlib.Data.List.TakeWhile

/-!
# Words

The words of a list are its maximal runs of items that are not separators. A scanner that skips
separators, takes a word and goes on behind it meets the words one by one.
-/

variable {α : Type*} {p : α → Bool} {l : List α}

/-- The maximal runs of items that are no separators. -/
def words (p : α → Bool) (l : List α) : List (List α) := (l.splitOnP p).filter (· ≠ [])

theorem words_nil (p : α → Bool) : words p [] = [] := by simp [words]

theorem words_cons_of_pos {a : α} (ha : p a = true) : words p (a :: l) = words p l := by
  rw [words, words, List.splitOnP_cons_eq_if_modifyHead, if_pos ha,
    List.filter_cons_of_neg (by simp)]

/-- Separators at the beginning do not matter. -/
theorem words_dropWhile (p : α → Bool) (l : List α) : words p (l.dropWhile p) = words p l := by
  induction l with
  | nil => rfl
  | cons a l ih =>
    by_cases ha : p a = true
    · rw [List.dropWhile_cons_of_pos ha, ih, words_cons_of_pos ha]
    · rw [List.dropWhile_cons_of_neg ha]

/-- The first word, and what follows it. -/
theorem words_takeWhile (h : l.takeWhile (!p ·) ≠ []) :
    words p l = l.takeWhile (!p ·) :: words p (l.dropWhile (!p ·)) := by
  have hsplit : l.takeWhile (!p ·) ++ l.dropWhile (!p ·) = l := List.takeWhile_append_dropWhile
  have hone : (l.takeWhile (!p ·)).splitOnP p = [l.takeWhile (!p ·)] :=
    List.splitOnP_eq_singleton fun a ha ↦ by simpa using List.mem_takeWhile_imp ha
  generalize l.takeWhile (!p ·) = w at h hsplit hone ⊢
  cases hrest : l.dropWhile (!p ·) with
  | nil =>
    rw [hrest, List.append_nil] at hsplit
    rw [← hsplit, words, hone, words_nil, List.filter_cons_of_pos (by simpa using h),
      List.filter_nil]
  | cons a rest =>
    have ha : p a = true := by
      have hhead := List.head?_dropWhile_not (!p ·) l
      rw [hrest] at hhead
      simpa using hhead
    rw [hrest] at hsplit
    rw [← hsplit, words_cons_of_pos ha, words, List.splitOnP_append_cons w rest ha, hone,
      List.filter_append, List.filter_cons_of_pos (by simpa using h), List.filter_nil]
    rfl
