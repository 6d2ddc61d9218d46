import Mathlib.Data.List.Basic
import Mathlib.Tactic.SplitIfs
import WordPattern.Regex.Syntax

/-! A fold class holds the characters that fold to the same one, and so does the lower case of a character, but for `İ`
and the characters that came later. -/

namespace WordPattern

namespace Unicode

def CodeMap.isAscending : CodeMap → Bool
  | a :: b :: rest => a.1.first ≤ a.1.last && a.1.last < b.1.first && isAscending (b :: rest)
  | _ => true

/-- No stride of a map holds a code point from `low` on in steps up to `high`. -/
def CodeMap.misses (low high step : Nat) : CodeMap → Bool
  | [] => true
  | e :: m =>
    (Nat.blt high e.1.first || Nat.blt e.1.last low ||
      ((Nat.beq step 2 || Nat.beq low high) && Nat.beq e.1.step 2 && Nat.beq ((low + e.1.first) % 2) 1)) &&
      misses low high step m

def isCharRange (low high : Nat) : Bool := Nat.blt high 0xD800 || (Nat.blt 0xDFFF low && Nat.blt high 0x110000)

/-- A stride has only characters, and sends them to characters that are sent nowhere else. -/
def CodeMap.settles (m : CodeMap) (e : Stride × Nat) : Bool :=
  isCharRange e.1.first e.1.last && isCharRange e.2 (e.2 + (e.1.last - e.1.first)) &&
    m.misses e.2 (e.2 + (e.1.last - e.1.first)) e.1.step

theorem foldMap_isAscending : foldMap.isAscending = true := by decide

theorem foldMap_settles : foldMap.all foldMap.settles = true := by decide +kernel

theorem Stride.le_of_contains {s : Stride} {n : Nat} (h : s.contains n = true) : s.first ≤ n ∧ n ≤ s.last := by
  simp only [contains, Bool.and_eq_true, decide_eq_true_eq] at h
  exact h.1

theorem CodeMap.last_lt_first {e : Stride × Nat} {m : CodeMap} (h : isAscending (e :: m) = true) :
    ∀ e' ∈ m, e.1.last < e'.1.first := by
  induction m generalizing e with
  | nil => simp
  | cons a m ih =>
    simp only [isAscending, Bool.and_eq_true, decide_eq_true_eq] at h
    obtain ⟨⟨-, hlt⟩, hrest⟩ := h
    intro e' he'
    rcases List.mem_cons.1 he' with rfl | he'
    · exact hlt
    · have hle : a.1.first ≤ a.1.last := by
        cases m with
        | nil => simp at he'
        | cons b m =>
          simp only [isAscending, Bool.and_eq_true, decide_eq_true_eq] at hrest
          exact hrest.1.1
      have := ih hrest e' he'
      omega

theorem CodeMap.get?_of_mem {m : CodeMap} (hm : m.isAscending = true) {s : Stride} {target n : Nat}
    (h : (s, target) ∈ m) (hn : s.contains n = true) : m.get? n = some (target + (n - s.first)) := by
  obtain ⟨hlow, -⟩ := Stride.le_of_contains hn
  induction m with
  | nil => simp at h
  | cons e m ih =>
    have hfirst := last_lt_first hm
    rw [get?]
    rcases List.mem_cons.1 h with rfl | h
    · rw [if_neg (Nat.not_lt.2 hlow), if_pos hn]
    · have hlt : e.1.last < s.first := hfirst _ h
      have hout : ¬ e.1.contains n = true := fun hc => by
        have := Stride.le_of_contains hc
        omega
      have hrest : e.1.first ≤ e.1.last ∧ isAscending m = true := by
        cases m with
        | nil => simp at h
        | cons b m =>
          simp only [isAscending, Bool.and_eq_true, decide_eq_true_eq] at hm
          exact ⟨hm.1.1, hm.2⟩
      rw [if_neg (by omega), if_neg hout]
      exact ih hrest.2 h

theorem CodeMap.exists_mem_of_get? {m : CodeMap} {n k : Nat} (h : m.get? n = some k) :
    ∃ s target, (s, target) ∈ m ∧ s.contains n = true ∧ k = target + (n - s.first) := by
  induction m with
  | nil => simp [get?] at h
  | cons e m ih =>
    rw [get?] at h
    split_ifs at h with hlow hn
    · exact ⟨e.1, e.2, List.mem_cons_self, hn, (Option.some.inj h).symm⟩
    · obtain ⟨s, target, hmem, hs⟩ := ih h
      exact ⟨s, target, List.mem_cons_of_mem _ hmem, hs⟩

theorem CodeMap.get?_eq_none {m : CodeMap} {n : Nat} (h : ∀ e ∈ m, ¬ e.1.contains n = true) : m.get? n = none := by
  induction m with
  | nil => rfl
  | cons e m ih =>
    rw [get?, if_neg (h e List.mem_cons_self), ih fun e' he' => h e' (List.mem_cons_of_mem _ he')]
    split_ifs <;> rfl

theorem CodeMap.not_contains_of_misses {m : CodeMap} {low high step n : Nat} (h : m.misses low high step = true)
    (hlow : low ≤ n) (hhigh : n ≤ high) (hstep : (n - low) % step = 0) : ∀ e ∈ m, ¬ e.1.contains n = true := by
  induction m with
  | nil => simp
  | cons e m ih =>
    simp only [misses, Bool.and_eq_true, Bool.or_eq_true, Nat.blt_eq, Nat.beq_eq] at h
    obtain ⟨hhead, hrest⟩ := h
    intro e' he'
    rcases List.mem_cons.1 he' with rfl | he'
    · intro hc
      have hle := Stride.le_of_contains hc
      simp only [Stride.contains, Bool.and_eq_true, decide_eq_true_eq] at hc
      rcases hhead with (hhead | hhead) | ⟨⟨hs, htwo⟩, hodd⟩
      · omega
      · omega
      · rw [htwo] at hc
        rcases hs with hs | hs
        · rw [hs] at hstep
          omega
        · omega
    · exact ih hrest e' he'

theorem isValidChar_of_isCharRange {low high n : Nat} (h : isCharRange low high = true) (hlow : low ≤ n)
    (hhigh : n ≤ high) : n.isValidChar := by
  simp only [isCharRange, Bool.or_eq_true, Bool.and_eq_true, Nat.blt_eq] at h
  unfold Nat.isValidChar
  omega

/-- What a map sends somewhere is a character, and so is what it is sent to, which the map sends nowhere else. -/
theorem CodeMap.settled {m : CodeMap} (hm : m.all m.settles = true) {s : Stride} {target n : Nat} (h : (s, target) ∈ m)
    (hn : s.contains n = true) :
    n.isValidChar ∧ (target + (n - s.first)).isValidChar ∧ m.get? (target + (n - s.first)) = none := by
  obtain ⟨hlow, hhigh⟩ := Stride.le_of_contains hn
  have hset := List.all_eq_true.1 hm _ h
  simp only [settles, Bool.and_eq_true] at hset
  obtain ⟨⟨hfrom, hto⟩, hmiss⟩ := hset
  have hstep : (n - s.first) % s.step = 0 := by
    simp only [Stride.contains, Bool.and_eq_true, decide_eq_true_eq] at hn
    exact hn.2
  refine ⟨isValidChar_of_isCharRange hfrom hlow hhigh, isValidChar_of_isCharRange hto (by omega) (by omega), ?_⟩
  refine get?_eq_none (not_contains_of_misses hmiss (by omega) (by omega) ?_)
  rwa [Nat.add_sub_cancel_left]

theorem foldMap_settled {s : Stride} {target n : Nat} (h : (s, target) ∈ foldMap) (hn : s.contains n = true) :
    n.isValidChar ∧ (target + (n - s.first)).isValidChar ∧ foldMap.get? (target + (n - s.first)) = none :=
  CodeMap.settled foldMap_settles h hn

theorem fold_fold (c : Char) : fold (fold c) = fold c := by
  cases h : foldMap.get? c.toNat with
  | none =>
    have hc : fold c = c := by rw [fold, h]
    rw [hc, hc]
  | some k =>
    obtain ⟨s, target, hmem, hs, rfl⟩ := CodeMap.exists_mem_of_get? h
    obtain ⟨-, hvalid, hnone⟩ := foldMap_settled hmem hs
    have hc : fold c = Char.ofNat (target + (c.toNat - s.first)) := by rw [fold, h]
    rw [hc, fold, toNat_ofNat hvalid, hnone]

theorem fold_eq_of_mem_foldClass {c d : Char} (h : c ∈ foldClass d) : fold c = fold d := by
  rcases List.mem_cons.1 h with rfl | h
  · exact fold_fold d
  · obtain ⟨n, hn, rfl⟩ := List.mem_map.1 h
    obtain ⟨⟨s, target⟩, hmem, hn⟩ := List.mem_filterMap.1 hn
    simp only [Bool.and_eq_true, decide_eq_true_eq] at hn
    split_ifs at hn with hc
    obtain rfl := Option.some.inj hn
    obtain ⟨hvalid, -, -⟩ := foldMap_settled hmem hc.2
    have hget := CodeMap.get?_of_mem foldMap_isAscending hmem hc.2
    have htarget : target + (s.first + ((fold d).toNat - target) - s.first) = (fold d).toNat := by omega
    rw [fold, toNat_ofNat hvalid, hget, htarget]
    exact Char.ofNat_toNat _

/-! ### Characters that are known -/

theorem Ranges.not_contains_of_apart {m : Ranges} {low high n : Nat}
    (h : m.all (fun r => Nat.blt r.2 low || Nat.blt high r.1) = true) (hlow : low ≤ n) (hhigh : n ≤ high) :
    m.contains n = false := by
  induction m with
  | nil => rfl
  | cons r m ih =>
    simp only [List.all_cons, Bool.and_eq_true, Bool.or_eq_true, Nat.blt_eq] at h
    obtain ⟨hr, hm⟩ := h
    rw [contains, ih hm, Bool.or_false]
    split_ifs
    · rfl
    · exact decide_eq_false (by omega)

/-- A stride sends what is not recent to what is not recent. -/
def keepsKnown (e : Stride × Nat) : Bool :=
  recent.all (fun r => Nat.blt r.2 e.2 || Nat.blt (e.2 + (e.1.last - e.1.first)) r.1) ||
    (List.range (e.1.last - e.1.first + 1)).all fun k =>
      !Nat.beq (k % e.1.step) 0 || recent.contains (e.1.first + k) || !recent.contains (e.2 + k)

theorem caseMaps_keepKnown : foldMap.all keepsKnown = true ∧ lowercaseMap.all keepsKnown = true := by decide +kernel

theorem contains_recent_get? {m : CodeMap} (hm : m.all keepsKnown = true) {n k : Nat} (h : m.get? n = some k)
    (hn : recent.contains n = false) : recent.contains k = false := by
  obtain ⟨s, target, hmem, hs, rfl⟩ := CodeMap.exists_mem_of_get? h
  obtain ⟨hlow, hhigh⟩ := Stride.le_of_contains hs
  have hkeeps := List.all_eq_true.1 hm _ hmem
  simp only [keepsKnown, Bool.or_eq_true] at hkeeps
  rcases hkeeps with hapart | hall
  · exact Ranges.not_contains_of_apart hapart (Nat.le_add_right _ _) (by omega)
  · have hk := List.all_eq_true.1 hall (n - s.first) (List.mem_range.2 (by omega))
    have hstep : Nat.beq ((n - s.first) % s.step) 0 = true := by
      simp only [Stride.contains, Bool.and_eq_true, decide_eq_true_eq] at hs
      rw [hs.2]
      rfl
    rw [hstep, Nat.add_sub_cancel' hlow, hn] at hk
    simpa using hk

theorem mem_foldClass_of_fold_eq {c d : Char} (h : fold c = fold d) : c ∈ foldClass d := by
  cases hget : foldMap.get? c.toNat with
  | none =>
    have hc : fold c = c := by rw [fold, hget]
    rw [← hc, h]
    exact List.mem_cons_self
  | some k =>
    obtain ⟨s, target, hmem, hs, rfl⟩ := CodeMap.exists_mem_of_get? hget
    obtain ⟨-, hvalid, -⟩ := foldMap_settled hmem hs
    have hc : fold c = Char.ofNat (target + (c.toNat - s.first)) := by rw [fold, hget]
    have hd : (fold d).toNat = target + (c.toNat - s.first) := by rw [← h, hc, toNat_ofNat hvalid]
    have hback : s.first + ((fold d).toNat - target) = c.toNat := by
      have := (Stride.le_of_contains hs).1
      omega
    refine List.mem_cons_of_mem _ (List.mem_map.2 ⟨c.toNat, List.mem_filterMap.2 ⟨(s, target), hmem, ?_⟩,
      Char.ofNat_toNat c⟩)
    rw [hd] at hback ⊢
    simp only [hback, hs, Nat.le_add_right, decide_true, Bool.and_self, if_true]

/-! ### Lower case -/

/-- A stride is one of a map, or the way back along one. -/
def CodeMap.follows (m : CodeMap) (e : Stride × Nat) : Bool :=
  m.any fun f => Nat.beq f.1.step e.1.step &&
    (Nat.beq f.1.first e.1.first && Nat.beq f.1.last e.1.last && Nat.beq f.2 e.2 ||
      Nat.beq f.1.first e.2 && Nat.beq f.1.last (e.2 + (e.1.last - e.1.first)) && Nat.beq f.2 e.1.first)

theorem lowercaseMap_follows : lowercaseMap.all foldMap.follows = true := by decide +kernel

/-- The lower case of a character folds as the character does. -/
theorem fold_of_lowercaseMap {c : Char} {k : Nat} (h : lowercaseMap.get? c.toNat = some k) :
    fold (Char.ofNat k) = fold c := by
  obtain ⟨s, target, hmem, hs, rfl⟩ := CodeMap.exists_mem_of_get? h
  have hfollows := List.all_eq_true.1 lowercaseMap_follows _ hmem
  obtain ⟨⟨s', target'⟩, hmem', hsame⟩ := List.any_eq_true.1 hfollows
  simp only [Bool.and_eq_true, Bool.or_eq_true, Nat.beq_eq] at hsame
  obtain ⟨hstep, hends⟩ := hsame
  simp only [Stride.contains, Bool.and_eq_true, decide_eq_true_eq] at hs
  rcases hends with ⟨⟨hfirst, hlast⟩, htarget⟩ | ⟨⟨hfirst, hlast⟩, htarget⟩
  · have hin : s'.contains c.toNat = true := by
      simp only [Stride.contains, Bool.and_eq_true, decide_eq_true_eq, hfirst, hlast, hstep]
      exact hs
    have hget := CodeMap.get?_of_mem foldMap_isAscending hmem' hin
    have hc : fold c = Char.ofNat (target + (c.toNat - s.first)) := by rw [fold, hget, htarget, hfirst]
    rw [← hc, fold_fold]
  · -- the fold of the lower case is the character itself
    have hin : s'.contains (target + (c.toNat - s.first)) = true := by
      simp only [Stride.contains, Bool.and_eq_true, decide_eq_true_eq, hfirst, hlast, hstep, Nat.add_sub_cancel_left]
      exact ⟨⟨Nat.le_add_right _ _, by omega⟩, hs.2⟩
    have hget := CodeMap.get?_of_mem foldMap_isAscending hmem' hin
    obtain ⟨hvalid, -, -⟩ := foldMap_settled hmem' hin
    have hback : target' + (target + (c.toNat - s.first) - s'.first) = c.toNat := by omega
    have hc : fold (Char.ofNat (target + (c.toNat - s.first))) = c := by
      rw [fold, toNat_ofNat hvalid, hget, hback]
      exact Char.ofNat_toNat c
    exact (fold_fold _).symm.trans (congrArg fold hc)

end Unicode

namespace Regex

theorem knows_fold {c : Char} (h : knows c = true) : knows (Unicode.fold c) = true := by
  unfold Unicode.fold
  cases hget : Unicode.foldMap.get? c.toNat with
  | none => exact h
  | some k =>
    obtain ⟨s, target, hmem, hs, rfl⟩ := Unicode.CodeMap.exists_mem_of_get? hget
    obtain ⟨-, hvalid, -⟩ := Unicode.foldMap_settled hmem hs
    simp only [knows, Unicode.isRecent, Bool.not_eq_true'] at h ⊢
    rw [Unicode.toNat_ofNat hvalid]
    exact Unicode.contains_recent_get? Unicode.caseMaps_keepKnown.1 hget h

end Regex

/-- A character and those of its fold class have the same representative. -/
theorem Regex.fold_eq_of_mem_foldClass {c d : Char} (h : c ∈ foldClass d) : fold c = fold d := by
  unfold foldClass at h
  split_ifs at h with hd
  · obtain ⟨hc, hk⟩ := List.mem_filter.1 h
    rw [fold, fold, if_pos hk, if_pos hd]
    exact Unicode.fold_eq_of_mem_foldClass hc
  · rw [List.mem_singleton.1 h]

/-- The characters that fold to the same one are a fold class. -/
theorem Regex.mem_foldClass {c d : Char} : c ∈ foldClass d ↔ fold c = fold d := by
  refine ⟨fold_eq_of_mem_foldClass, fun h => ?_⟩
  unfold fold at h
  unfold foldClass
  cases hc : knows c <;> cases hd : knows d <;>
    simp only [hc, hd, Bool.false_eq_true, if_true, if_false] at h ⊢
  · exact List.mem_singleton.2 h
  · rw [h, knows_fold hd] at hc
    contradiction
  · rw [← h, knows_fold hc] at hd
    contradiction
  · exact List.mem_filter.2 ⟨Unicode.mem_foldClass_of_fold_eq h, hc⟩

/-- The lower case of a character is one that folds as it does. -/
theorem Regex.exists_lowerChar {c : Char} (hdot : c ≠ 'İ') (hc : knows c = true ∨ Unicode.lowerChar c = [c]) :
    ∃ d, Unicode.lowerChar c = [d] ∧ fold d = fold c := by
  rcases hc with hc | hc
  case inr => exact ⟨c, hc, rfl⟩
  unfold Unicode.lowerChar
  rw [if_neg hdot]
  cases hget : Unicode.lowercaseMap.get? c.toNat with
  | none => exact ⟨c, rfl, rfl⟩
  | some k =>
    refine ⟨Char.ofNat k, rfl, ?_⟩
    have hk : knows (Char.ofNat k) = true := by
      by_cases hvalid : k.isValidChar
      · simp only [knows, Unicode.isRecent, Bool.not_eq_true'] at hc ⊢
        rw [Unicode.toNat_ofNat hvalid]
        exact Unicode.contains_recent_get? Unicode.caseMaps_keepKnown.2 hget hc
      · rw [Char.ofNat, dif_neg hvalid]
        decide
    rw [fold, fold, if_pos hk, if_pos hc, Unicode.fold_of_lowercaseMap hget]

/-- The lower case of a text folds as the text does. -/
theorem Regex.map_fold_lowercase {t : Text} (h : ∀ c ∈ t, c ≠ 'İ' ∧ (knows c = true ∨ Unicode.lowerChar c = [c])) :
    (Unicode.lowercase t).map fold = t.map fold := by
  have hafter : ∀ before : Text, (Unicode.lowerAfter before t).map fold = t.map fold := by
    induction t with
    | nil => exact fun _ => rfl
    | cons c t ih =>
      intro before
      have hrest := ih (fun d hd => h d (List.mem_cons_of_mem _ hd)) (c :: before)
      have hlower : (if c = 'Σ' then
          if Unicode.casedNeighbour before && !Unicode.casedNeighbour t then ['ς'] else ['σ']
          else Unicode.lowerChar c).map fold = [fold c] := by
        split_ifs with hsigma hfinal
        · rw [hsigma]
          decide
        · rw [hsigma]
          decide
        · obtain ⟨d, hd, hfold⟩ := exists_lowerChar (h c List.mem_cons_self).1 (h c List.mem_cons_self).2
          rw [hd, List.map_singleton, hfold]
      simp only [Unicode.lowerAfter, List.map_append, hlower, hrest, List.map_cons, List.singleton_append]
  exact hafter []

end WordPattern
