import WordPattern.Proofs.Matching.Ends

/-! The choices within an expression, by the places at which a sweep remembers them.

A choice belongs to the expression at the place that ends the choice's own. Whether it can be met before a character is
taken, and whether the end can be reached from it without taking one, is read off the expression; no choice is both
unless the whole expression can match nothing. -/

namespace WordPattern.Regex

theorem suffix_unique {π l : List Nat} {i j : Nat} (hi : (i :: π) <:+ l) (hj : (j :: π) <:+ l) : i = j := by
  have h := List.suffix_of_suffix_length_le hi hj (by simp)
  simpa using h.eq_of_length (by simp)

theorem suffix_of_cons {π l : List Nat} {i : Nat} (h : (i :: π) <:+ l) : π <:+ l := (List.suffix_cons i π).trans h

theorem not_cons_suffix (π : List Nat) (i : Nat) : ¬ (i :: π) <:+ π := by
  intro h
  have := h.length_le
  simp only [List.length_cons] at this
  omega

theorem not_here_of_below {π : List Nat} {i : Nat} {c : Choice} (h : (i :: π) <:+ c.place) : c.place ≠ π := by
  intro he
  exact not_cons_suffix π i (he ▸ h)

/-- Where the rounds of a repeat from number `i` on can end. -/
def Rounds.from (d : Direction) (low : Nat) (high : Option Nat) (greedy : Bool) (r : Cursor → List Cursor) (i : Nat)
    (p : Cursor) : List Cursor :=
  match high with
  | some high => (times r (low - i) p).flatMap (upTo r greedy (high - max low i))
  | none => (times r (low - i) p).flatMap fun q => spin r greedy (q.room d + 2) q

namespace Expr

def Thin (e : Expr) : Prop := e.size.least = 0

/-- The choices that a sweep can meet before it takes a character. -/
def Early (d : Direction) : Expr → List Nat → Choice → Prop
  | seq first rest, π, c =>
    match d with
    | .ahead => first.Early d (0 :: π) c ∨ (first.Thin ∧ rest.Early d (1 :: π) c)
    | .behind => rest.Early d (1 :: π) c ∨ (rest.Thin ∧ first.Early d (0 :: π) c)
  | alt first rest, π, c => c.place = π ∨ first.Early d (0 :: π) c ∨ rest.Early d (1 :: π) c
  | rounds low high greedy body, π, c =>
    (c.place = π ∧ (rounds low high greedy body).Thin) ∨ ∃ i, (i = 0 ∨ body.Thin) ∧ body.Early d (i :: π) c
  | capture _ body, π, c => body.Early d (0 :: π) c
  | _, _, _ => False

/-- The choices from which a sweep can reach the end without taking another character. -/
def Late (d : Direction) : Expr → List Nat → Choice → Prop
  | seq first rest, π, c =>
    match d with
    | .ahead => rest.Late d (1 :: π) c ∨ (rest.Thin ∧ first.Late d (0 :: π) c)
    | .behind => first.Late d (0 :: π) c ∨ (first.Thin ∧ rest.Late d (1 :: π) c)
  | alt first rest, π, c =>
    (c.place = π ∧ (alt first rest).Thin) ∨ first.Late d (0 :: π) c ∨ rest.Late d (1 :: π) c
  | rounds low _ _ body, π, c => c.place = π ∨ ∃ i, (low ≤ i + 1 ∨ body.Thin) ∧ body.Late d (i :: π) c
  | capture _ body, π, c => body.Late d (0 :: π) c
  | _, _, _ => False

theorem suffix_of_early {d : Direction} {e : Expr} {π : List Nat} {c : Choice} (h : e.Early d π c) : π <:+ c.place := by
  induction e generalizing π with
  | seq first rest ih ih' =>
    cases d with
    | ahead => exact h.elim (fun h => suffix_of_cons (ih h)) fun h => suffix_of_cons (ih' h.2)
    | behind => exact h.elim (fun h => suffix_of_cons (ih' h)) fun h => suffix_of_cons (ih h.2)
  | alt first rest ih ih' =>
    obtain rfl | h | h := h
    · exact List.suffix_refl _
    · exact suffix_of_cons (ih h)
    · exact suffix_of_cons (ih' h)
  | rounds low high greedy body ih =>
    obtain ⟨rfl, -⟩ | ⟨i, -, h⟩ := h
    · exact List.suffix_refl _
    · exact suffix_of_cons (ih h)
  | capture group body ih => exact suffix_of_cons (ih h)
  | empty | fail | char | set | anyChar | anchor | atomic | look | backref => exact h.elim

theorem suffix_of_late {d : Direction} {e : Expr} {π : List Nat} {c : Choice} (h : e.Late d π c) : π <:+ c.place := by
  induction e generalizing π with
  | seq first rest ih ih' =>
    cases d with
    | ahead => exact h.elim (fun h => suffix_of_cons (ih' h)) fun h => suffix_of_cons (ih h.2)
    | behind => exact h.elim (fun h => suffix_of_cons (ih h)) fun h => suffix_of_cons (ih' h.2)
  | alt first rest ih ih' =>
    obtain ⟨rfl, -⟩ | h | h := h
    · exact List.suffix_refl _
    · exact suffix_of_cons (ih h)
    · exact suffix_of_cons (ih' h)
  | rounds low high greedy body ih =>
    obtain rfl | ⟨i, -, h⟩ := h
    · exact List.suffix_refl _
    · exact suffix_of_cons (ih h)
  | capture group body ih => exact suffix_of_cons (ih h)
  | empty | fail | char | set | anyChar | anchor | atomic | look | backref => exact h.elim

theorem thin_seq {first rest : Expr} (h : first.Thin) (h' : rest.Thin) : (seq first rest).Thin := by
  simp only [Thin, size, Size.plus] at *
  omega

theorem thin_rounds {low : Nat} {high : Option Nat} {greedy : Bool} {body : Expr} (h : body.Thin) :
    (rounds low high greedy body).Thin := by
  simp only [Thin, size] at *
  simp [h]

theorem thin_alt {first rest : Expr} (h : first.Thin ∨ (rest.Thin ∧ rest ≠ fail)) : (alt first rest).Thin := by
  by_cases hr : rest = fail
  · subst hr
    exact h.resolve_right fun h => h.2 rfl
  · simp only [Thin, size_alt hr, Size.either] at *
    omega

theorem thin_of_early_of_late {d : Direction} {e : Expr} {π : List Nat} {c : Choice} (h : e.Early d π c)
    (h' : e.Late d π c) : e.Thin := by
  induction e generalizing π with
  | seq first rest ih ih' =>
    have hne : ∀ {P : Prop}, (0 :: π) <:+ c.place → (1 :: π) <:+ c.place → P :=
      fun h0 h1 => absurd (suffix_unique h0 h1) (by simp)
    cases d with
    | ahead =>
      obtain h | ⟨ht, h⟩ := h
      · obtain h' | ⟨ht', h'⟩ := h'
        · exact hne (suffix_of_early h) (suffix_of_late h')
        · exact thin_seq (ih h h') ht'
      · obtain h' | ⟨-, h'⟩ := h'
        · exact thin_seq ht (ih' h h')
        · exact hne (suffix_of_late h') (suffix_of_early h)
    | behind =>
      obtain h | ⟨ht, h⟩ := h
      · obtain h' | ⟨ht', h'⟩ := h'
        · exact hne (suffix_of_late h') (suffix_of_early h)
        · exact thin_seq ht' (ih' h h')
      · obtain h' | ⟨-, h'⟩ := h'
        · exact thin_seq (ih h h') ht
        · exact hne (suffix_of_early h) (suffix_of_late h')
  | alt first rest ih ih' =>
    obtain ⟨-, ht⟩ | h' | h' := h'
    · exact ht
    · obtain h | h | h := h
      · exact absurd h (not_here_of_below (suffix_of_late h'))
      · exact thin_alt (.inl (ih h h'))
      · exact absurd (suffix_unique (suffix_of_late h') (suffix_of_early h)) (by simp)
    · obtain h | h | h := h
      · exact absurd h (not_here_of_below (suffix_of_late h'))
      · exact absurd (suffix_unique (suffix_of_early h) (suffix_of_late h')) (by simp)
      · exact thin_alt (.inr ⟨ih' h h', by rintro rfl; exact h⟩)
  | rounds low high greedy body ih =>
    obtain ⟨-, ht⟩ | ⟨i, -, h⟩ := h
    · exact ht
    · obtain h' | ⟨j, -, h'⟩ := h'
      · exact absurd h' (not_here_of_below (suffix_of_early h))
      · obtain rfl := suffix_unique (suffix_of_early h) (suffix_of_late h')
        exact thin_rounds (ih h h')
  | capture group body ih => exact ih h h'
  | empty | fail | char | set | anyChar | anchor | atomic | look | backref => exact h.elim

/-- No way from a choice within the expression leads to an end from which one can go on. `T` is the text, and `N` holds
of the ends from which one cannot. -/
def Barren (d : Direction) (T : Text) (c : Choice) : Expr → List Nat → (N : Cursor → Prop) → Prop
  | seq first rest, π, N =>
    match d with
    | .ahead =>
      ((0 :: π) <:+ c.place → first.Barren d T c (0 :: π) fun q => ∀ r ∈ rest.ends d q, N r) ∧
        ((1 :: π) <:+ c.place → rest.Barren d T c (1 :: π) N)
    | .behind =>
      ((1 :: π) <:+ c.place → rest.Barren d T c (1 :: π) fun q => ∀ r ∈ first.ends d q, N r) ∧
        ((0 :: π) <:+ c.place → first.Barren d T c (0 :: π) N)
  | alt first rest, π, N =>
    (c.place = π → ∀ p, p.text = T → p.position = c.position → ∀ q ∈ (alt first rest).ends d p, N q) ∧
      ((0 :: π) <:+ c.place → first.Barren d T c (0 :: π) N) ∧
      ((1 :: π) <:+ c.place → rest.Barren d T c (1 :: π) N)
  | rounds low high greedy body, π, N =>
    (c.place = π → ∀ p, p.text = T → p.position = c.position →
      ∀ q ∈ Rounds.from d low high greedy (body.ends d) (max low c.round) p, N q) ∧
      ∀ i, (i :: π) <:+ c.place →
        body.Barren d T c (i :: π) fun q => ∀ r ∈ Rounds.from d low high greedy (body.ends d) (i + 1) q, N r
  | capture _ body, π, N => (0 :: π) <:+ c.place → body.Barren d T c (0 :: π) N
  | _, _, _ => True

end Expr

end WordPattern.Regex
