import Mathlib.Computability.Language
import Mathlib.Tactic.IntervalCases
import WordPattern.Proofs.Reading.Bare

/-! The languages of regular expressions.

An expression that asserts nothing about what stands around it, keeps no choice closed and refers to no group matches the
texts of a language wherever it stands. -/

namespace WordPattern.Regex

def oneOf (test : Char → Bool) : Language Char := {t | ∃ c, test c = true ∧ t = [c]}

theorem mem_oneOf {test : Char → Bool} {t : Text} : t ∈ oneOf test ↔ ∃ c, test c = true ∧ t = [c] := Iff.rfl

/-- The texts of so many rounds of a language, between two bounds. -/
def roundsOf (low : Nat) (high : Option Nat) (L : Language Char) : Language Char :=
  {t | ∃ k, low ≤ k ∧ (∀ top ∈ high, k ≤ top) ∧ t ∈ L ^ k}

theorem mem_roundsOf {low : Nat} {high : Option Nat} {L : Language Char} {t : Text} :
    t ∈ roundsOf low high L ↔ ∃ k, low ≤ k ∧ (∀ top ∈ high, k ≤ top) ∧ t ∈ L ^ k := Iff.rfl

/-- Some text of the language is not empty. -/
def Takes (L : Language Char) : Prop := ∃ t ∈ L, t ≠ []

namespace Expr

/-- The texts that an expression stands for. -/
def language : Expr → Language Char
  | empty => 1
  | char c folded => oneOf (sameChar folded c)
  | set s => oneOf s.contains
  | anyChar newline => oneOf fun c => newline || c != '\n'
  | seq first rest => first.language * rest.language
  | alt first rest => first.language + rest.language
  | rounds low high _ body => roundsOf low high body.language
  | capture _ body => body.language
  | fail | anchor _ | atomic _ | look _ _ _ | backref _ _ _ => 0

/-- The expression has a language: nothing in it is an assertion but one that never holds, nothing keeps a choice closed
or refers to a group, and counts are in order. -/
def HasLanguage : Expr → Prop
  | seq first rest | alt first rest => first.HasLanguage ∧ rest.HasLanguage
  | rounds low high _ body => low ≤ high.getD low ∧ body.HasLanguage
  | capture _ body => body.HasLanguage
  | look direction negated body => direction = .ahead ∧ negated = true ∧ body = empty
  | anchor _ | atomic _ | backref _ _ _ => False
  | empty | fail | char _ _ | set _ | anyChar _ => True

instance decidableHasLanguage : (e : Expr) → Decidable e.HasLanguage
  | seq first rest | alt first rest =>
    @instDecidableAnd _ _ (decidableHasLanguage first) (decidableHasLanguage rest)
  | rounds low high _ body =>
    @instDecidableAnd (low ≤ high.getD low) body.HasLanguage inferInstance (decidableHasLanguage body)
  | capture _ body => decidableHasLanguage body
  | look direction negated body => inferInstanceAs (Decidable (direction = .ahead ∧ negated = true ∧ body = empty))
  | anchor _ | atomic _ | backref _ _ _ => .isFalse id
  | empty | fail | char _ _ | set _ | anyChar _ => .isTrue trivial

/-- What cannot be repeated has no text that is not empty. -/
theorem isRepeatable_of_takes {e : Expr} (h : Takes e.language) : e.isRepeatable = true := by
  obtain ⟨t, ht, hne⟩ := h
  cases e with
  | empty => exact absurd ht hne
  | look => exact absurd ht (Language.notMem_zero t)
  | _ => rfl

/-- Such an expression is refused for nothing but its size. -/
theorem HasLanguage.tame {e : Expr} (h : e.HasLanguage) : e.Tame := by
  induction e with
  | seq first rest ih ih' | alt first rest ih ih' => exact ⟨ih h.1, ih' h.2⟩
  | rounds low high greedy body ih => exact ⟨h.1, ih h.2⟩
  | capture group body ih => exact ih h
  | look d negated body ih =>
    obtain ⟨rfl, -, rfl⟩ := h
    exact ⟨rfl, trivial⟩
  | atomic body ih => exact h.elim
  | empty | fail | char | set | anyChar | anchor | backref => trivial

/-! ### Sequences, choices and repeats -/

theorem language_sequence (es : List Expr) : (sequence es).language = (es.map language).prod := by
  have hfold : ∀ es : List Expr, (es.foldr seq empty).language = (es.map language).prod := by
    intro es
    induction es with
    | nil => rfl
    | cons e es ih => rw [List.foldr_cons, language, ih, List.map_cons, List.prod_cons]
  match es with
  | [] => rfl
  | [e] => exact (mul_one e.language).symm
  | e :: f :: es => exact hfold (e :: f :: es)

theorem language_choice (bs : List Expr) : (choice bs).language = (bs.map language).sum := by
  have hfold : ∀ bs : List Expr, (bs.foldr alt fail).language = (bs.map language).sum := by
    intro bs
    induction bs with
    | nil => rfl
    | cons b bs ih => rw [List.foldr_cons, language, ih, List.map_cons, List.sum_cons]
  match bs with
  | [] => rfl
  | [b] => exact (add_zero b.language).symm
  | b :: c :: bs => exact hfold (b :: c :: bs)

theorem hasLanguage_sequence {es : List Expr} : (sequence es).HasLanguage ↔ ∀ e ∈ es, e.HasLanguage := by
  have hfold : ∀ es : List Expr, (es.foldr seq empty).HasLanguage ↔ ∀ e ∈ es, e.HasLanguage := by
    intro es
    induction es with
    | nil => exact ⟨fun _ _ he => absurd he List.not_mem_nil, fun _ => trivial⟩
    | cons e es ih =>
      rw [List.forall_mem_cons]
      exact and_congr_right fun _ => ih
  match es with
  | [] => exact hfold []
  | [e] => exact List.forall_mem_singleton.symm
  | e :: f :: es => exact hfold (e :: f :: es)

theorem hasLanguage_choice {bs : List Expr} (h : ∀ b ∈ bs, b.HasLanguage) : (choice bs).HasLanguage := by
  have hfold : ∀ bs : List Expr, (∀ b ∈ bs, b.HasLanguage) → (bs.foldr alt fail).HasLanguage := by
    intro bs h
    induction bs with
    | nil => trivial
    | cons b bs ih => exact ⟨h b List.mem_cons_self, ih fun c hc => h c (List.mem_cons_of_mem _ hc)⟩
  match bs with
  | [] => trivial
  | [b] => exact h b List.mem_cons_self
  | b :: c :: bs => exact hfold (b :: c :: bs) h

theorem language_optional (e : Expr) (greedy : Bool) : (rounds 0 (some 1) greedy e).language = 1 + e.language := by
  ext t
  rw [language, mem_roundsOf, Language.mem_add]
  constructor
  · rintro ⟨k, -, hk, ht⟩
    have hk := hk 1 rfl
    interval_cases k
    · exact .inl ht
    · exact .inr (by rwa [pow_one] at ht)
  · rintro (ht | ht)
    · exact ⟨0, le_refl 0, by simp, ht⟩
    · exact ⟨1, Nat.zero_le 1, by simp, by rwa [pow_one]⟩

theorem language_exactly (e : Expr) (k : Nat) (greedy : Bool) :
    (rounds k (some k) greedy e).language = e.language ^ k := by
  ext t
  rw [language, mem_roundsOf]
  constructor
  · rintro ⟨j, hle, hge, ht⟩
    rwa [le_antisymm (hge k rfl) hle] at ht
  · exact fun ht => ⟨k, le_refl k, by simp, ht⟩

/-! ### Flags and the numbers of groups -/

theorem hasLanguage_bare {loose : Flags} {e : Expr} : (e.bare loose).HasLanguage ↔ e.HasLanguage := by
  induction e with
  | seq first rest ih ih' | alt first rest ih ih' => exact and_congr ih ih'
  | rounds low high greedy body ih => exact and_congr_right fun _ => ih
  | capture group body ih => exact ih
  | look d negated body ih => exact and_congr_right fun _ => and_congr_right fun _ => bare_eq_empty
  | empty | fail | char | set | anyChar | anchor | atomic | backref => exact Iff.rfl

/-- Which places begin and end a line does not matter to an expression that has a language. -/
theorem language_bare {m : Bool} {e : Expr} (h : e.HasLanguage) : (e.bare { multiline := m }).language = e.language := by
  induction e with
  | seq first rest ih ih' | alt first rest ih ih' => rw [bare, language, ih h.1, ih' h.2, language]
  | rounds low high greedy body ih => rw [bare, language, ih h.2, language]
  | capture group body ih => rw [bare, language, ih h, language]
  | look | empty | fail => rfl
  | char | set | anyChar => simp [bare]
  | anchor | atomic | backref => exact h.elim

end Expr

/-! ### Matches -/

/-- Reading a text leads from a place to another one. -/
def Cursor.Reads (p : Cursor) (t : Text) (q : Cursor) : Prop := p.after = t ++ q.after ∧ q.before = t.reverse ++ p.before

namespace Cursor

variable {p q r : Cursor} {t u : Text}

theorem reads_nil : p.Reads [] q ↔ q = p := by
  obtain ⟨before, after⟩ := p
  obtain ⟨before', after'⟩ := q
  simp [Reads, and_comm, eq_comm]

theorem Reads.append (h : p.Reads t q) (h' : q.Reads u r) : p.Reads (t ++ u) r := by
  refine ⟨?_, ?_⟩
  · rw [h.1, h'.1, List.append_assoc]
  · rw [h'.2, h.2, List.reverse_append, List.append_assoc]

theorem exists_of_reads_append (h : p.Reads (t ++ u) r) : ∃ q, p.Reads t q ∧ q.Reads u r :=
  ⟨⟨t.reverse ++ p.before, u ++ r.after⟩, ⟨by rw [h.1, List.append_assoc], rfl⟩,
    ⟨rfl, by rw [h.2, List.reverse_append, List.append_assoc]⟩⟩

theorem reads_singleton {c : Char} : p.Reads [c] q ↔ p.step? .ahead = some (c, q) := by
  obtain ⟨before, after⟩ := p
  obtain ⟨before', after'⟩ := q
  cases after with
  | nil => simp [Reads, step?]
  | cons d after =>
    simp only [Reads, step?, List.singleton_append, List.reverse_singleton, List.cons.injEq, Option.some.injEq,
      Prod.mk.injEq, Cursor.mk.injEq]
    grind

theorem Reads.room_lt (h : p.Reads t q) (hne : t ≠ []) : q.room .ahead < p.room .ahead := by
  have hlen := List.length_pos_iff.2 hne
  simp only [room, h.1, List.length_append]
  omega

end Cursor

namespace Rounds

variable {r : Cursor → List Cursor} {L : Language Char}

/-- So many rounds read the texts of the power. -/
theorem mem_times_iff_pow (hr : ∀ p q, q ∈ r p ↔ ∃ t ∈ L, p.Reads t q) {k : Nat} {p q : Cursor} :
    q ∈ times r k p ↔ ∃ t ∈ L ^ k, p.Reads t q := by
  induction k generalizing p with
  | zero =>
    rw [times, List.mem_singleton, pow_zero]
    constructor
    · rintro rfl
      exact ⟨[], rfl, Cursor.reads_nil.2 rfl⟩
    · rintro ⟨t, ht, hreads⟩
      rw [Language.mem_one] at ht
      exact Cursor.reads_nil.1 (ht ▸ hreads)
  | succ k ih =>
    rw [times, List.mem_flatMap, pow_succ']
    constructor
    · rintro ⟨s, hs, hq⟩
      obtain ⟨t, ht, hreads⟩ := (hr p s).1 hs
      obtain ⟨u, hu, hreads'⟩ := ih.1 hq
      exact ⟨t ++ u, Language.append_mem_mul ht hu, hreads.append hreads'⟩
    · rintro ⟨_, ⟨t, ht, u, hu, rfl⟩, hreads⟩
      obtain ⟨s, hreads, hreads'⟩ := Cursor.exists_of_reads_append hreads
      exact ⟨s, (hr p s).2 ⟨t, ht, hreads⟩, ih.2 ⟨u, hu, hreads'⟩⟩

/-- Rounds that take nothing can be left out. -/
theorem mem_spin_of_times (hr : ∀ p q, q ∈ r p ↔ ∃ t ∈ L, p.Reads t q) {greedy : Bool} {fuel k : Nat} {p q : Cursor}
    (hfuel : p.room .ahead < fuel) (hq : q ∈ times r k p) : q ∈ spin r greedy fuel p := by
  induction k generalizing p fuel with
  | zero =>
    obtain ⟨fuel, rfl⟩ := Nat.exists_eq_add_of_lt hfuel
    rw [spin, mem_prefer]
    exact .inr hq
  | succ k ih =>
    obtain ⟨s, hs, hq⟩ := List.mem_flatMap.1 hq
    by_cases hsp : s = p
    · rw [hsp] at hq
      exact ih hfuel hq
    · obtain ⟨t, -, hreads⟩ := (hr p s).1 hs
      have hroom := hreads.room_lt fun hnil => hsp (Cursor.reads_nil.1 (hnil ▸ hreads))
      cases fuel with
      | zero => omega
      | succ fuel =>
        rw [spin, mem_prefer, List.mem_flatMap]
        refine .inl ⟨s, hs, ?_⟩
        rw [if_neg hsp]
        exact ih (by omega) hq

end Rounds

namespace Expr

/-- An expression that has a language matches the texts of the language. -/
theorem mem_ends_iff_language {e : Expr} (h : e.HasLanguage) {p q : Cursor} :
    q ∈ e.ends .ahead p ↔ ∃ t ∈ e.language, p.Reads t q := by
  have hone : ∀ {test : Char → Bool} {p q : Cursor}, q ∈ p.past .ahead test ↔ ∃ t ∈ oneOf test, p.Reads t q := by
    intro test p q
    rw [Cursor.mem_past]
    constructor
    · rintro ⟨c, hstep, hc⟩
      exact ⟨[c], ⟨c, hc, rfl⟩, Cursor.reads_singleton.2 hstep⟩
    · rintro ⟨_, ⟨c, hc, rfl⟩, hreads⟩
      exact ⟨c, Cursor.reads_singleton.1 hreads, hc⟩
  induction e generalizing p q with
  | empty =>
    rw [ends, List.mem_singleton, language]
    constructor
    · rintro rfl
      exact ⟨[], rfl, Cursor.reads_nil.2 rfl⟩
    · rintro ⟨t, ht, hreads⟩
      rw [Language.mem_one] at ht
      exact Cursor.reads_nil.1 (ht ▸ hreads)
  | fail => simp [ends, language, Language.notMem_zero]
  | char | set | anyChar => exact hone
  | seq first rest ih ih' =>
    rw [ends, List.mem_flatMap, language]
    constructor
    · rintro ⟨s, hs, hq⟩
      obtain ⟨t, ht, hreads⟩ := (ih h.1).1 hs
      obtain ⟨u, hu, hreads'⟩ := (ih' h.2).1 hq
      exact ⟨t ++ u, Language.append_mem_mul ht hu, hreads.append hreads'⟩
    · rintro ⟨_, ⟨t, ht, u, hu, rfl⟩, hreads⟩
      obtain ⟨s, hreads, hreads'⟩ := Cursor.exists_of_reads_append hreads
      exact ⟨s, (ih h.1).2 ⟨t, ht, hreads⟩, (ih' h.2).2 ⟨u, hu, hreads'⟩⟩
  | alt first rest ih ih' =>
    rw [ends, List.mem_append, language]
    simp only [Language.mem_add, or_and_right, exists_or]
    exact or_congr (ih h.1) (ih' h.2)
  | rounds low high greedy body ih =>
    obtain ⟨hle, hbody⟩ := h
    have hr : ∀ p q, q ∈ body.ends .ahead p ↔ ∃ t ∈ body.language, p.Reads t q := fun p q => ih hbody
    rw [language]
    constructor
    · intro hq
      obtain ⟨k, hk, hq⟩ := exists_times_of_mem_rounds hq
      obtain ⟨t, ht, hreads⟩ := (Rounds.mem_times_iff_pow hr).1 hq
      refine ⟨t, ⟨k, ?_, ?_, ht⟩, hreads⟩
      all_goals cases high <;> simp only [Allows, Option.getD_none, Option.getD_some] at hk hle ⊢ <;> grind
    · rintro ⟨t, ⟨k, hlow, hhigh, ht⟩, hreads⟩
      have hq := (Rounds.mem_times_iff_pow hr).2 ⟨t, ht, hreads⟩
      cases high with
      | some top =>
        have hk := hhigh top rfl
        exact (mem_ends_rounds (by simp)).2 ⟨k, ⟨by omega, by omega⟩, hq⟩
      | none =>
        obtain ⟨j, rfl⟩ := Nat.exists_eq_add_of_le hlow
        rw [Rounds.times_add] at hq
        obtain ⟨x, hx, hq⟩ := List.mem_flatMap.1 hq
        exact List.mem_flatMap.2 ⟨x, hx, Rounds.mem_spin_of_times hr (by omega) hq⟩
  | capture group body ih => exact ih h
  | look d negated body ih =>
    obtain ⟨rfl, rfl, rfl⟩ := h
    simp [ends, language, Language.notMem_zero]
  | anchor | atomic | backref => exact h.elim

end Expr

end WordPattern.Regex
