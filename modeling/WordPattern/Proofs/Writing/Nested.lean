import Mathlib.Data.List.Sort
import WordPattern.Proofs.Trees.Induction
import WordPattern.Proofs.Writing.Nodes

/-! A character up to `n` times in a row. The words share their first character and the shortest has no other, so what
is left of the others is optional behind it, and that is the character up to `n - 1` times in a row: optional groups in
each other. -/

namespace WordPattern

open Node Regex

variable {symbol : Char → Option Verbatim} {ignoreCase : Bool} {c : Char}

namespace Factoring

variable {words : List Text} {f : Factoring}

/-- Cut after the first character that they share, words are that character with what is left of them. -/
theorem eq_of_ofLength?_one (hordered : words.Pairwise (· < ·))
    (h : ofLength? .start (words.map (c :: ·)) 1 = some f) : f = ⟨.start, [[c]], words⟩ := by
  have hcuts : ∀ p r, (p = [c] ∧ r ∈ words) ↔ p ∈ f.parts ∧ r ∈ f.rests := fun p r => by
    rw [← mem_cuts_of_ofLength? h, List.map_map]
    simp [cut, eq_comm, and_comm]
  obtain ⟨hparts, hrests⟩ := pairwise_of_ofLength? h (hordered.map _ fun _ _ => List.cons_lt_cons_self.2)
  obtain ⟨hne, hne'⟩ := ne_nil_of_ofLength? h
  obtain ⟨p, hp⟩ := List.exists_mem_of_ne_nil _ hne
  obtain ⟨r, hr⟩ := List.exists_mem_of_ne_nil _ hne'
  have hc : [c] ∈ f.parts := ((hcuts _ _).2 ⟨hp, hr⟩).1 ▸ hp
  have hone : f.parts = [[c]] := hparts.eq_of_mem_iff (List.pairwise_singleton ..) fun q => by
    rw [List.mem_singleton]
    exact ⟨fun hq => ((hcuts _ _).2 ⟨hq, hr⟩).1, fun hq => hq ▸ hc⟩
  have hwords : f.rests = words := hrests.eq_of_mem_iff hordered fun q =>
    ⟨fun hq => ((hcuts _ _).2 ⟨hc, hq⟩).2, fun hq => ((hcuts _ _).1 ⟨rfl, hq⟩).2⟩
  rw [← hone, ← hwords, ← (length_le_of_ofLength? h).1]

/-- Words that share their first character are cut after it if one of them has no other. -/
theorem best?_common (hordered : words.Pairwise (· < ·)) (hnil : [] ∈ words) (htwo : 2 ≤ words.length) :
    best? .start (words.map (c :: ·)) = some ⟨.start, [[c]], words⟩ := by
  have hlong : ¬ ∀ w ∈ words.map (c :: ·), w.length = 1 := fun h => by
    have hsub : words ⊆ [[]] := fun w hw => by
      simpa using h _ (List.mem_map_of_mem hw)
    have := (nodup_of_pairwise_lt hordered).length_le_of_subset hsub
    rw [List.length_singleton] at this
    omega
  obtain ⟨f, hf⟩ := Option.ne_none_iff_exists'.1
    (best?_ne_none (c := c) (by simpa using htwo) (by simp) hlong)
  obtain ⟨n, hpos, hle, hlength⟩ := ofLength?_of_best? hf
  -- no part is longer than the shortest word
  obtain rfl : n = 1 := by
    have hshort := shortest_le (List.mem_map_of_mem (f := (c :: ·)) hnil)
    have := longestPart_le (words.map (c :: ·))
    rw [List.length_singleton] at hshort
    omega
  rw [hf, eq_of_ofLength?_one hordered hlength]

end Factoring

/-- The words `c`, `cc`, and so on up to `n` times `c`. -/
def timesInARow (c : Char) (n : Nat) : List Text := (List.range n).map fun k => List.replicate (k + 1) c

theorem timesInARow_succ (c : Char) (n : Nat) : timesInARow c (n + 1) = ([] :: timesInARow c n).map (c :: ·) := by
  rw [timesInARow, List.range_succ_eq_map, List.map_cons, List.map_cons, timesInARow, List.map_map, List.map_map]
  rfl

theorem pairwise_timesInARow (c : Char) (n : Nat) : ([] :: timesInARow c n).Pairwise (· < ·) := by
  induction n with
  | zero => exact List.pairwise_singleton ..
  | succ n ih =>
    rw [timesInARow_succ]
    refine List.pairwise_cons.2 ⟨?_, ih.map _ fun _ _ => List.cons_lt_cons_self.2⟩
    simp

namespace Node

/-- A character, and each of the next `n` times is optional behind the one before. -/
def nested (c : Char) (m : Mark) : Nat → Node
  | 0 => leaf m [c]
  | n + 1 => sequence m [leaf .plain [c], nested c ⟨true, .middle⟩ n]

theorem ofWords_timesInARow (hsymbol : symbol c = none) (n : Nat) :
    ofWords symbol ignoreCase (timesInARow c (n + 1)) = nested c .plain n := by
  have hchar : ofChar symbol c = leaf .plain [c] := by rw [ofChar, hsymbol]; rfl
  have hword : ofWords symbol ignoreCase [[c]] = leaf .plain [c] := by rw [ofWords, List.map_singleton, hchar]; rfl
  induction n with
  | zero => exact hword
  | succ n ih =>
    have hordered := pairwise_timesInARow c (n + 1)
    have hbest := Factoring.best?_common (c := c) hordered List.mem_cons_self (by simp [timesInARow])
    have hkeep : nonemptyWords ([] :: timesInARow c (n + 1)) = timesInARow c (n + 1) := by
      simp [nonemptyWords, timesInARow]
    have hoptional : (nested c .plain n).optionalIf true = nested c ⟨true, .middle⟩ n := by cases n <;> rfl
    rw [timesInARow_succ, ofWords_many (by simp [timesInARow]), hbest, if_neg, if_neg]
    · simp only [Factoring.prefixes, Factoring.suffixes, if_true, hword, hkeep, ih, List.any_cons, List.isEmpty_nil,
        Bool.true_or, hoptional]
      rfl
    · simp
    · simp [timesInARow_succ]

theorem flatten_nested (c : Char) (m : Mark) (n : Nat) : (nested c m n).flatten = nested c m n := by
  induction n generalizing m with
  | zero => rfl
  | succ n ih =>
    have hinlined : (nested c ⟨true, .middle⟩ n).inlined = [nested c ⟨true, .middle⟩ n] := by cases n <;> rfl
    rw [nested, flatten, flattenInto, flattenInto, flattenInto, ih, hinlined]
    rfl

theorem build_timesInARow (hsymbol : symbol c = none) (n : Nat) :
    build symbol ignoreCase (timesInARow c (n + 1)) = (nested c .plain n).place .root := by
  rw [build, ofWords_timesInARow hsymbol, flatten_nested]

end Node

/-- The text of a nested tree that is not optional itself. -/
def nestedText (c : Char) : Nat → Text
  | 0 => quoteChar c
  | 1 => quoteChar c ++ (quoteChar c ++ ['?'])
  | n + 2 => quoteChar c ++ (Mode.backtracking.group false (nestedText c (n + 1)) ++ ['?'])

/-- Two fragments that differ stay as they are. -/
theorem abbreviate_pair {f g : Text} (h : f ≠ g) (mode : Mode) (closed : Bool) :
    abbreviate mode closed [f, g] = f ++ g := by
  have hone : ∀ t : Text, ¬ quantifiedLength [t] 1 < t.length := fun t => by
    rw [quantifiedLength, List.flatten_singleton]
    omega
  have hruns : runs [[f], [g]] = [([f], 1), ([g], 1)] := by simp [runs, h]
  have hnone : abbreviateOnce mode closed [f, g] = none := by
    simp [abbreviateOnce, abbreviateAt, blocks, hruns, abbreviateRuns, hone]
  rw [abbreviate, abbreviated, hnone]
  simp

/-- What is optional behind a character. -/
theorem finish_nested (p : Position) (n : Nat) :
    quoteChar c ++ ((Node.nested c ⟨true, .middle⟩ n).place p).finish .backtracking false (nestedText c n) =
      nestedText c (n + 1) := by
  cases n with
  | zero =>
    have hempty : (quoteChar c).isEmpty = false := by simpa using quoteChar_ne_nil c
    simp [Node.nested, Node.place, finish, Node.mark, isAtomic, nestedText, hempty, Mode.optionalMark]
  | succ n => rfl

/-- What is optional behind a character is longer than the character. -/
theorem length_quoteChar_lt (c : Char) (p : Position) (n : Nat) :
    (quoteChar c).length <
      (((Node.nested c ⟨true, .middle⟩ n).place p).finish .backtracking false (nestedText c n)).length := by
  have hle : (quoteChar c).length ≤ (nestedText c n).length := by
    match n with
    | 0 => exact Nat.le_refl _
    | 1 | n + 2 =>
      rw [nestedText, List.length_append]
      omega
  have hoptional : ((Node.nested c ⟨true, .middle⟩ n).place p).mark.optional = true := by cases n <;> rfl
  rw [finish, if_pos hoptional, List.length_append]
  simp only [Mode.optionalMark, reduceCtorEq, false_and, if_false, List.length_singleton]
  split_ifs
  · omega
  · rw [Mode.length_group]
    omega

theorem patternBefore_nested (after : NextChars) (p : Position) (m : Mark) (n : Nat) :
    ((Node.nested c m n).place p).patternBefore .backtracking after =
      ((Node.nested c m n).place p).finish .backtracking false (nestedText c n) := by
  induction n generalizing after p m with
  | zero =>
    rw [Node.nested, Node.place, patternBefore, nestedText, List.map_singleton, abbreviate_singleton]
    rfl
  | succ n ih =>
    have hplace : (Node.nested c m (n + 1)).place p =
        sequence ⟨m.optional, p⟩ [leaf ⟨false, .first⟩ [c], (Node.nested c ⟨true, .middle⟩ n).place .last] := rfl
    have hne : quoteChar c ≠
        ((Node.nested c ⟨true, .middle⟩ n).place .last).finish .backtracking false (nestedText c n) := fun h =>
      (length_quoteChar_lt c .last n).ne (congrArg List.length h)
    rw [hplace, patternBefore, itemPatterns, itemPatterns, itemPatterns, ih, patternBefore, List.map_singleton,
      abbreviate_singleton]
    rw [← finish_nested .last, ← abbreviate_pair hne]
    rfl

theorem pattern_nested (c : Char) (n : Nat) :
    ((Node.nested c .plain n).place .root).pattern .backtracking = nestedText c n := by
  have hplain : ((Node.nested c .plain n).place .root).mark.optional = false := by cases n <;> rfl
  rw [Node.pattern, patternBefore_nested, finish, if_neg]
  rw [hplain]
  decide

end WordPattern
