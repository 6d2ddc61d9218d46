import Mathlib.Data.Set.Card
import WordPattern.Proofs.Generation.Table

/-! There are placeholders for all symbols if as many characters are left above those in use.

Surrogates are no characters, so placeholders are counted in characters and not in code points. -/

namespace WordPattern

/-! ### The next characters -/

section Next

variable {n : Nat} {c : Char}

/-- After a code point without a next character there is none at all. -/
theorem le_of_nextChar?_eq_none (h : nextChar? n = none) (c : Char) : c.toNat ≤ n := by
  have hc := toNat_valid c
  unfold nextChar? at h
  split_ifs at h
  omega

/-- Between a code point and the next character there is no character. -/
theorem lt_toNat_iff_of_nextChar? (h : nextChar? n = some c) (d : Char) :
    n < d.toNat ↔ d = c ∨ c.toNat < d.toNat := by
  obtain ⟨hlt, hle⟩ := nextChar?_spec h
  constructor
  · intro hd
    rcases Nat.eq_or_lt_of_le (hle d hd) with heq | hlt
    · exact .inl (Char.toNat_inj.1 heq.symm)
    · exact .inr hlt
  · rintro (rfl | hd) <;> omega

/-- The next characters run out if fewer are left. -/
theorem nextChars?_eq_none_iff {count : Nat} :
    nextChars? n count = none ↔ {c : Char | n < c.toNat}.encard < count := by
  induction count generalizing n with
  | zero => simp [nextChars?]
  | succ count ih =>
    rw [nextChars?]
    cases hnext : nextChar? n with
    | none =>
      have hempty : {c : Char | n < c.toNat} = ∅ :=
        Set.eq_empty_of_forall_notMem fun c hc => Nat.not_lt.2 (le_of_nextChar?_eq_none hnext c) hc
      simp [hempty]
    | some c =>
      have hinsert : {d : Char | n < d.toNat} = insert c {d : Char | c.toNat < d.toNat} :=
        Set.ext fun d => lt_toNat_iff_of_nextChar? hnext d
      have hrest : (nextChars? c.toNat count).bind (fun cs => some (c :: cs)) = none ↔
          nextChars? c.toNat count = none := by cases nextChars? c.toNat count <;> simp
      have hfresh : c ∉ {d : Char | c.toNat < d.toNat} := Nat.lt_irrefl c.toNat
      rw [hinsert, Set.encard_insert_of_notMem hfresh, Nat.cast_succ]
      exact hrest.trans (ih.trans (ENat.add_lt_add_iff_right ENat.one_ne_top).symm)

end Next

theorem highest_lt_iff {t : Text} (ht : t ≠ []) {n : Nat} : highest t < n ↔ ∀ c ∈ t, c.toNat < n := by
  induction t with
  | nil => contradiction
  | cons c t ih =>
    rw [highest, List.foldr_cons, max_lt_iff, List.forall_mem_cons]
    refine and_congr_right fun hc => ?_
    cases t with
    | nil =>
      have hpos : 0 < n := Nat.zero_lt_of_lt hc
      simpa using hpos
    | cons d t => exact ih (List.cons_ne_nil d t)

/-! ### Symbols -/

/-- How many placeholders are taken. -/
def Settings.demand (settings : Settings) : Nat :=
  settings.rules.length + (settings.boundary.bind (·.left)).toList.length + (settings.boundary.bind (·.right)).toList.length

/-- The characters above all those of some items, of their lower case, and of the literal keys. -/
def Settings.spare (settings : Settings) (items : List Text) : Set Char :=
  {c | (∀ w ∈ items, ∀ d ∈ w, d < c ∧ ∀ e ∈ Unicode.lowerChar d, e < c) ∧
    ∀ rule ∈ settings.rules, ∀ key, rule.key = .literal key → ∀ d ∈ key, d < c}

namespace SymbolTable

variable {settings : Settings} {items : List Text} {splitter : Option Regex}

theorem spare_eq (hitems : ∃ w ∈ items, w ≠ []) :
    settings.spare items = {c : Char | ceiling settings items < c.toNat} := by
  obtain ⟨w, hw, hne⟩ := hitems
  obtain ⟨d, hd⟩ := List.exists_mem_of_ne_nil _ hne
  have huse : items.flatMap (fun word => word.flatMap fun c => c :: Unicode.lowerChar c) ≠ [] :=
    List.ne_nil_of_mem (List.mem_flatMap.2 ⟨w, hw, List.mem_flatMap.2 ⟨d, hd, List.mem_cons_self⟩⟩)
  ext c
  have hlt : ∀ d : Char, d < c ↔ d.toNat < c.toNat := fun d => UInt32.lt_iff_toNat_lt
  rw [Set.mem_ofPred_eq, ceiling, highest_lt_iff (List.append_ne_nil_of_left_ne_nil huse _), List.forall_mem_append]
  simp only [Settings.spare, Set.mem_ofPred_eq, hlt, List.mem_flatMap]
  refine and_congr ?_ ?_
  · constructor
    · rintro h e ⟨w, hw, d, hd, he⟩
      rcases List.mem_cons.1 he with rfl | he
      · exact (h w hw e hd).1
      · exact (h w hw d hd).2 e he
    · exact fun h w hw d hd => ⟨h d ⟨w, hw, d, hd, List.mem_cons_self⟩,
        fun e he => h e ⟨w, hw, d, hd, List.mem_cons_of_mem _ he⟩⟩
  · constructor
    · rintro h e ⟨rule, hrule, he⟩
      cases hkey : rule.key with
      | literal key =>
        rw [hkey] at he
        exact h rule hrule key hkey e he
      | regex source =>
        rw [hkey] at he
        contradiction
    · intro h rule hrule key hkey d hd
      exact h d ⟨rule, hrule, by rw [hkey]; exact hd⟩

/-- Where the keys can be found, there is a table unless too few characters are left. -/
theorem ofWords_cases (hsplitter : splitterOf (rulesOf settings) = .ok splitter) (hitems : ∃ w ∈ items, w ≠ []) :
    ((settings.spare items).encard < settings.demand → ofWords settings items = .error (.compile .noPlaceholderLeft)) ∧
      (¬ (settings.spare items).encard < settings.demand → ∃ table, ofWords settings items = .ok table) := by
  have hlength : (rulesOf settings).length = settings.rules.length := (sortBy_perm _ _).length_eq
  rw [spare_eq hitems, ← nextChars?_eq_none_iff, Settings.demand, ← hlength]
  unfold ofWords
  unfold rulesOf at hsplitter ⊢
  simp only [hsplitter]
  constructor
  · intro hnone
    rw [hnone]
    rfl
  · intro hsome
    obtain ⟨cs, hcs⟩ := Option.ne_none_iff_exists'.1 hsome
    rw [hcs]
    exact ⟨_, rfl⟩

end SymbolTable

end WordPattern
