/-! Lists in order. `ascending` gives the distinct elements of a list in order, and `sorted` keeps repeats. -/

namespace WordPattern

variable {α : Type} [LT α] [DecidableLT α] [DecidableEq α]

/-- Inserts an element into an ascending list, unless it is there. -/
def insertAscending (a : α) : List α → List α
  | [] => [a]
  | b :: rest => if a < b then a :: b :: rest else if a = b then b :: rest else b :: insertAscending a rest

/-- The distinct elements of a list, ascending. -/
def ascending (xs : List α) : List α := xs.foldr insertAscending []

/-- Inserts an element into a list in the order of `less`, before those that it is not greater than. -/
def insertBy {α : Type} (less : α → α → Bool) (a : α) : List α → List α
  | [] => [a]
  | b :: rest => if less b a then b :: insertBy less a rest else a :: b :: rest

/-- The elements of a list in the order of `less`; equal ones stay in the order in which they were. -/
def sortBy {α : Type} (less : α → α → Bool) (xs : List α) : List α := xs.foldr (insertBy less) []

/-- The elements of a list in ascending order, repeats kept. -/
def sorted (xs : List α) : List α := sortBy (fun a b => a < b) xs

theorem mem_insertAscending {a x : α} {xs : List α} : x ∈ insertAscending a xs ↔ x = a ∨ x ∈ xs := by
  induction xs with
  | nil => simp [insertAscending]
  | cons b rest ih =>
    simp only [insertAscending]
    split
    · simp
    · split
      · rename_i h; subst h; simp
      · simp only [List.mem_cons, ih]; exact or_left_comm

theorem mem_ascending {x : α} {xs : List α} : x ∈ ascending xs ↔ x ∈ xs := by
  induction xs with
  | nil => simp [ascending]
  | cons a rest ih => rw [ascending, List.foldr_cons, mem_insertAscending, List.mem_cons]; exact or_congr_right ih

theorem length_insertAscending_le (a : α) (xs : List α) : (insertAscending a xs).length ≤ xs.length + 1 := by
  induction xs with
  | nil => simp [insertAscending]
  | cons b rest ih =>
    simp only [insertAscending]
    split
    · simp
    · split
      · simp
      · simpa using ih

theorem length_ascending_le (xs : List α) : (ascending xs).length ≤ xs.length := by
  induction xs with
  | nil => simp [ascending]
  | cons a rest ih => exact Nat.le_trans (length_insertAscending_le a _) (Nat.succ_le_succ ih)

omit [LT α] [DecidableLT α] [DecidableEq α] in
theorem insertBy_perm (less : α → α → Bool) (a : α) (xs : List α) : (insertBy less a xs).Perm (a :: xs) := by
  induction xs with
  | nil => exact .refl _
  | cons b rest ih =>
    simp only [insertBy]
    split
    · exact (ih.cons b).trans (.swap a b rest)
    · exact .refl _

omit [LT α] [DecidableLT α] [DecidableEq α] in
theorem sortBy_perm (less : α → α → Bool) (xs : List α) : (sortBy less xs).Perm xs := by
  induction xs with
  | nil => exact .refl _
  | cons a rest ih => exact (insertBy_perm less a _).trans (ih.cons a)

omit [DecidableEq α] in
theorem sorted_perm (xs : List α) : (sorted xs).Perm xs := sortBy_perm _ xs

end WordPattern
