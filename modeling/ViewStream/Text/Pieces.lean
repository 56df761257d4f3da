/-!
# Lists cut at a separator

Cutting a list at every occurrence of a separator gives the pieces that a separator ended and the
rest that none has ended yet. **The cut of a longer list extends the cut of a shorter one**
(`cut_append`): what is finished stays finished, and the rest is carried on. That is why a stream
may be cut chunk by chunk.
-/

namespace ViewStream.Text

variable {α : Type} [DecidableEq α]

/-- The pieces before each `sep`, and the rest after the last one. -/
def cut (sep : α) : List α → List (List α) × List α
  | [] => ([], [])
  | x :: xs =>
    match cut sep xs with
    | (done, rest) =>
      if x = sep then ([] :: done, rest)
      else
        match done with
        | [] => ([], x :: rest)
        | piece :: pieces => ((x :: piece) :: pieces, rest)

/-- All pieces, the rest included: one more than there are separators. -/
def pieces (sep : α) (xs : List α) : List (List α) :=
  (cut sep xs).1 ++ [(cut sep xs).2]

/-- Drop one `x` at the end. -/
def dropFinal (x : α) (xs : List α) : List α :=
  if xs.getLast? = some x then xs.dropLast else xs

/-- A list without separator is all rest. -/
theorem cut_of_not_mem {sep : α} {xs : List α} (h : sep ∉ xs) : cut sep xs = ([], xs) := by
  induction xs with
  | nil => rfl
  | cons x xs ih =>
    simp only [List.mem_cons, not_or] at h
    simp [cut, ih h.2, Ne.symm h.1]

/-- The rest holds no separator. -/
theorem not_mem_rest (sep : α) (xs : List α) : sep ∉ (cut sep xs).2 := by
  induction xs with
  | nil => simp [cut]
  | cons x xs ih =>
    by_cases hx : x = sep
    · simpa [cut, hx] using ih
    · cases hdone : (cut sep xs).1 <;> simpa [cut, hx, hdone, Ne.symm hx] using ih

/-- **Cutting goes on where it stopped**: only the rest takes part in what comes later. -/
theorem cut_append (sep : α) (xs ys : List α) :
    cut sep (xs ++ ys)
      = ((cut sep xs).1 ++ (cut sep ((cut sep xs).2 ++ ys)).1,
        (cut sep ((cut sep xs).2 ++ ys)).2) := by
  induction xs with
  | nil => simp [cut]
  | cons x xs ih =>
    rw [List.cons_append]
    simp only [cut, ih]
    by_cases hx : x = sep
    · simp [hx]
    · simp only [hx, if_false]
      cases hdone : (cut sep xs).1 with
      | cons piece pieces => simp
      | nil => simp [cut, hx]

theorem cut_append_sep {sep : α} {xs : List α} (h : sep ∉ xs) (ys : List α) :
    cut sep (xs ++ sep :: ys) = (xs :: (cut sep ys).1, (cut sep ys).2) := by
  induction xs with
  | nil => simp [cut]
  | cons x xs ih =>
    simp only [List.mem_cons, not_or] at h
    simp [cut, ih h.2, Ne.symm h.1]

/-- There is a piece for every separator. -/
theorem length_cut (sep : α) (xs : List α) : (cut sep xs).1.length = xs.count sep := by
  induction xs with
  | nil => rfl
  | cons x xs ih =>
    by_cases hx : x = sep
    · simp [cut, hx, ih]
    · rw [List.count_cons_of_ne hx, ← ih]
      cases hdone : (cut sep xs).1 <;> simp [cut, hx, hdone]

/-- A list that ends with a separator leaves no rest. -/
theorem cut_rest_eq_nil {sep : α} {xs : List α} (h : xs.getLast? = some sep) :
    (cut sep xs).2 = [] := by
  obtain ⟨ys, rfl⟩ := List.getLast?_eq_some_iff.mp h
  rw [cut_append, cut_append_sep (not_mem_rest sep ys)]
  rfl

/-- A piece without separator comes off whole. -/
theorem pieces_append_sep {sep : α} {xs : List α} (h : sep ∉ xs) (ys : List α) :
    pieces sep (xs ++ sep :: ys) = xs :: pieces sep ys := by
  simp [pieces, cut_append_sep h]

end ViewStream.Text
