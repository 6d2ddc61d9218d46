import Mathlib.Data.Char
import Mathlib.Data.List.Find
import Mathlib.Data.List.Forall2
import Mathlib.Data.List.Lex
import Mathlib.Data.List.MinMax
import Mathlib.Data.List.Nodup
import WordPattern.Text.Ascending

/-! Lists that are put in order, what is found first in a list, and what occurs in one. -/

namespace WordPattern

/-! ### Order -/

section Order

variable {α : Type} [LT α] [DecidableLT α] [DecidableEq α]

omit [DecidableLT α] [DecidableEq α] in
theorem lt_of_not_lt [Std.Trichotomous (α := α) (· < ·)] {a b : α} (hlt : ¬ a < b) (hne : a ≠ b) : b < a :=
  Classical.byContradiction fun h => hne (Std.Trichotomous.trichotomous a b hlt h)

theorem pairwise_insertAscending [IsTrans α (· < ·)] [Std.Trichotomous (α := α) (· < ·)] (a : α) {xs : List α}
    (h : xs.Pairwise (· < ·)) : (insertAscending a xs).Pairwise (· < ·) := by
  induction xs with
  | nil => exact List.pairwise_singleton _ a
  | cons b rest ih =>
    obtain ⟨hb, hrest⟩ := List.pairwise_cons.1 h
    rw [insertAscending]
    split_ifs with hlt heq
    · refine List.pairwise_cons.2 ⟨fun x hx => ?_, h⟩
      rcases List.mem_cons.1 hx with rfl | hx
      · exact hlt
      · exact trans_of (· < ·) hlt (hb x hx)
    · exact h
    · refine List.pairwise_cons.2 ⟨fun x hx => ?_, ih hrest⟩
      rcases mem_insertAscending.1 hx with rfl | hx
      · exact lt_of_not_lt hlt heq
      · exact hb x hx

theorem pairwise_ascending [IsTrans α (· < ·)] [Std.Trichotomous (α := α) (· < ·)] (xs : List α) :
    (ascending xs).Pairwise (· < ·) := by
  induction xs with
  | nil => exact .nil
  | cons a rest ih => exact pairwise_insertAscending a ih

omit [DecidableEq α] in
theorem pairwise_insertBy [IsTrans α (· < ·)] [Std.Trichotomous (α := α) (· < ·)] {a : α} {xs : List α}
    (h : xs.Pairwise (· < ·)) (ha : a ∉ xs) : (insertBy (fun a b => a < b) a xs).Pairwise (· < ·) := by
  induction xs with
  | nil => exact List.pairwise_singleton _ a
  | cons b rest ih =>
    obtain ⟨hb, hrest⟩ := List.pairwise_cons.1 h
    rw [List.mem_cons, not_or] at ha
    rw [insertBy]
    split_ifs with hlt
    · refine List.pairwise_cons.2 ⟨fun x hx => ?_, ih hrest ha.2⟩
      rcases List.mem_cons.1 ((insertBy_perm _ a rest).mem_iff.1 hx) with rfl | hx
      · exact of_decide_eq_true hlt
      · exact hb x hx
    · have hab : a < b := lt_of_not_lt (of_decide_eq_false (Bool.eq_false_iff.2 hlt)) (Ne.symm ha.1)
      refine List.pairwise_cons.2 ⟨fun x hx => ?_, h⟩
      rcases List.mem_cons.1 hx with rfl | hx
      · exact hab
      · exact trans_of (· < ·) hab (hb x hx)

omit [DecidableEq α] in
theorem pairwise_sorted [IsTrans α (· < ·)] [Std.Trichotomous (α := α) (· < ·)] {xs : List α} (h : xs.Nodup) :
    (sorted xs).Pairwise (· < ·) := by
  induction xs with
  | nil => exact .nil
  | cons a rest ih =>
    obtain ⟨ha, hrest⟩ := List.nodup_cons.1 h
    exact pairwise_insertBy (ih hrest) fun hm => ha ((sorted_perm rest).mem_iff.1 hm)

end Order

section SortBy

variable {α : Type} {less : α → α → Bool}

theorem pairwise_insertBy_of_trans (hasymm : ∀ a b, less a b = true → less b a = false)
    (htrans : ∀ a b c, less b a = false → less c b = false → less c a = false) (a : α) {xs : List α}
    (h : xs.Pairwise fun x y => less y x = false) : (insertBy less a xs).Pairwise fun x y => less y x = false := by
  induction xs with
  | nil => exact List.pairwise_singleton _ a
  | cons b rest ih =>
    obtain ⟨hb, hrest⟩ := List.pairwise_cons.1 h
    rw [insertBy]
    split_ifs with hlt
    · refine List.pairwise_cons.2 ⟨fun x hx => ?_, ih hrest⟩
      rcases List.mem_cons.1 ((insertBy_perm less a rest).mem_iff.1 hx) with rfl | hx
      · exact hasymm _ _ hlt
      · exact hb x hx
    · have hab : less b a = false := Bool.eq_false_iff.2 hlt
      refine List.pairwise_cons.2 ⟨fun x hx => ?_, h⟩
      rcases List.mem_cons.1 hx with rfl | hx
      · exact hab
      · exact htrans a b x hab (hb x hx)

theorem pairwise_sortBy (hasymm : ∀ a b, less a b = true → less b a = false)
    (htrans : ∀ a b c, less b a = false → less c b = false → less c a = false) (xs : List α) :
    (sortBy less xs).Pairwise fun x y => less y x = false := by
  induction xs with
  | nil => exact .nil
  | cons a rest ih => exact pairwise_insertBy_of_trans hasymm htrans a ih

/-- What is not told apart stays in its order. -/
theorem filter_insertBy {p : α → Bool} (hp : ∀ a b, p a = true → p b = true → less a b = false) (a : α) (xs : List α) :
    (insertBy less a xs).filter p = (a :: xs).filter p := by
  induction xs with
  | nil => rfl
  | cons b rest ih =>
    rw [insertBy]
    split_ifs with hlt
    · rw [List.filter_cons, ih]
      by_cases ha : p a = true
      · have hb : p b ≠ true := fun hb => by simp [hp b a hb ha] at hlt
        simp [ha, hb]
      · simp [ha, List.filter_cons]
    · rfl

theorem filter_sortBy {p : α → Bool} (hp : ∀ a b, p a = true → p b = true → less a b = false) (xs : List α) :
    (sortBy less xs).filter p = xs.filter p := by
  induction xs with
  | nil => rfl
  | cons a rest ih =>
    have hsort : sortBy less (a :: rest) = insertBy less a (sortBy less rest) := rfl
    rw [hsort, filter_insertBy hp, List.filter_cons, List.filter_cons, ih]

end SortBy

/-! ### What is found first -/

theorem find?_eq_of_argmax {α : Type} {f : α → Nat} {xs : List α} {x : α} (h : xs.argmax f = some x) :
    xs.find? (f · = f x) = some x := by
  induction xs with
  | nil => contradiction
  | cons a xs ih =>
    rw [List.argmax_cons] at h
    cases hmax : xs.argmax f with
    | none =>
      rw [hmax] at h
      obtain rfl := Option.some.inj h
      simp
    | some y =>
      rw [hmax] at h
      simp only at h
      split_ifs at h with hlt
      · obtain rfl := Option.some.inj h
        have hne : f a ≠ f y := hlt.ne
        rw [List.find?_cons_of_neg (by simpa using hne), ih hmax]
      · obtain rfl := Option.some.inj h
        simp

/-- What is found first in one list is found first in another one that is related to it. -/
theorem find?_forall₂ {α β : Type} {R : α → β → Prop} {p : α → Bool} {q : β → Bool} (hpq : ∀ a b, R a b → p a = q b)
    {xs : List α} {ys : List β} (h : List.Forall₂ R xs ys) :
    (xs.find? p = none ∧ ys.find? q = none) ∨ ∃ x y, xs.find? p = some x ∧ ys.find? q = some y ∧ R x y := by
  induction h with
  | nil => exact .inl ⟨rfl, rfl⟩
  | @cons x y xs ys hxy _ ih =>
    have hsame := hpq x y hxy
    cases hp : p x with
    | true =>
      rw [hp] at hsame
      exact .inr ⟨x, y, List.find?_cons_of_pos hp, List.find?_cons_of_pos hsame.symm, hxy⟩
    | false =>
      rw [hp] at hsame
      rwa [List.find?_cons_of_neg (by simp [hp]), List.find?_cons_of_neg (by simp [← hsame])]

/-- What is found first among the numbers. -/
theorem findSome?_range {β : Type} {f : Nat → Option β} {n : Nat} {b : β} (h : (List.range n).findSome? f = some b) :
    ∃ k < n, f k = some b ∧ ∀ i < k, f i = none := by
  obtain ⟨smaller, k, larger, hrange, hk, hsmaller⟩ := List.findSome?_eq_some_iff.1 h
  have horder : (List.range n).Pairwise (· < ·) := List.pairwise_lt_range
  rw [hrange, List.pairwise_append, List.pairwise_cons] at horder
  have hmem : ∀ i, i < n ↔ i ∈ smaller ∨ i = k ∨ i ∈ larger := fun i => by
    rw [← List.mem_range, hrange, List.mem_append, List.mem_cons]
  have hlt : k < n := (hmem k).2 (.inr (.inl rfl))
  refine ⟨k, hlt, hk, fun i hi => hsmaller i ?_⟩
  rcases (hmem i).1 (hi.trans hlt) with hi' | rfl | hi'
  · exact hi'
  · omega
  · exact absurd hi (Nat.lt_asymm (horder.2.1.1 i hi'))

/-! ### What occurs -/

/-- A list occurs on one side of an element that is not in it. -/
theorem infix_of_not_mem {α : Type} {l xs ys : List α} {x : α} (hx : x ∉ l) (h : l <:+: xs ++ x :: ys) :
    l <:+: xs ∨ l <:+: ys := by
  have hbegins : ∀ l', (∀ c ∈ l', c ∈ l) → l' <+: x :: ys → l' = [] := by
    intro l' hl hprefix
    refine (List.prefix_cons_iff.1 hprefix).resolve_right ?_
    rintro ⟨t, rfl, -⟩
    exact hx (hl x List.mem_cons_self)
  rcases List.infix_append_iff.1 h with h | h | ⟨front, back, rfl, hfront, hback⟩
  · exact .inl h
  · refine .inr ((List.infix_cons_iff.1 h).elim (fun hprefix => ?_) id)
    rw [hbegins l (fun _ hc => hc) hprefix]
    exact List.nil_infix
  · obtain rfl := hbegins back (fun c hc => List.mem_append_right _ hc) hback
    rw [List.append_nil]
    exact .inl hfront.isInfix

end WordPattern
