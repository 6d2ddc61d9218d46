import WordPattern.Text.Ascending
import WordPattern.Text.Pieces

/-! Lists of words as products: every prefix with every suffix.

At one of their ends the words are cut after a fixed number of characters. This is a factoring if every part at that end
goes with the same remainders; of the factorings that take fewer characters than the list the best one takes fewest. -/

namespace WordPattern

/-- The end of the words at which the parts have a fixed length. -/
inductive Side where
  | start | stop
  deriving DecidableEq, Repr

/-- Parts of a fixed length, and the remainders that each of them goes with. -/
structure Factoring where
  side : Side
  parts : List Text
  rests : List Text
  deriving DecidableEq, Repr

/-- The number of characters in a list of words. -/
def charCount : List Text → Nat
  | [] => 0
  | w :: rest => w.length + charCount rest

namespace Factoring

def size (f : Factoring) : Nat := charCount f.parts + charCount f.rests

def prefixes (f : Factoring) : List Text := if f.side = .start then f.parts else f.rests

def suffixes (f : Factoring) : List Text := if f.side = .start then f.rests else f.parts

/-- The part of a word of the given length, and the remainder. -/
def cut (side : Side) (n : Nat) (word : Text) : Text × Text :=
  match side with
  | .start => (word.take n, word.drop n)
  | .stop => (word.drop (word.length - n), word.take (word.length - n))

/-- The remainders that go with a part, in order. -/
def restsOf (cuts : List (Text × Text)) (part : Text) : List Text :=
  sorted ((cuts.filter (·.1 = part)).map (·.2))

/-- The factoring into parts of the given length, if there is one. -/
def ofLength? (side : Side) (words : List Text) (n : Nat) : Option Factoring :=
  let cuts := words.map (cut side n)
  match ascending (cuts.map (·.1)) with
  | [] => none
  | part :: more =>
    let rests := restsOf cuts part
    if more.all (restsOf cuts · = rests) then some ⟨side, part :: more, rests⟩ else none

/-- The length of the shortest word, or zero. -/
def shortest (words : List Text) : Nat := ((words.map List.length).min?).getD 0

/-- The greatest length of a part: words of one length are not cut at their end. -/
def longestPart (words : List Text) : Nat :=
  if words.all (·.length = shortest words) then shortest words - 1 else shortest words

/-- The factorings with parts of at most the given length, shorter parts first. -/
def candidates (side : Side) (words : List Text) (longest : Nat) : List Factoring :=
  (List.range longest).filterMap fun n => ofLength? side words (n + 1)

/-- The first of the smallest factorings that are smaller than `bound`. -/
def smallest? (bound : Nat) : List Factoring → Option Factoring
  | [] => none
  | f :: rest =>
    if f.size < bound then (smallest? f.size rest).or (some f) else smallest? bound rest

/-- The best factoring of a list of words, if there is one that is smaller than the list. -/
def best? (side : Side) (words : List Text) : Option Factoring :=
  smallest? (charCount words) (candidates side words (longestPart words))

theorem size_lt_of_smallest? {bound : Nat} {fs : List Factoring} {f : Factoring} (h : smallest? bound fs = some f) :
    f ∈ fs ∧ f.size < bound := by
  induction fs generalizing bound with
  | nil => simp [smallest?] at h
  | cons g rest ih =>
    rw [smallest?] at h
    split at h
    · rename_i hlt
      cases hr : smallest? g.size rest with
      | none =>
        rw [hr, Option.none_or] at h
        obtain rfl := Option.some.inj h
        exact ⟨List.mem_cons_self, hlt⟩
      | some f' =>
        rw [hr, Option.some_or] at h
        obtain rfl := Option.some.inj h
        obtain ⟨hm, hs⟩ := ih hr
        exact ⟨List.mem_cons_of_mem _ hm, Nat.lt_trans hs hlt⟩
    · obtain ⟨hm, hs⟩ := ih h
      exact ⟨List.mem_cons_of_mem _ hm, hs⟩

theorem le_size_of_smallest?_eq_none {bound : Nat} {fs : List Factoring} (h : smallest? bound fs = none)
    {f : Factoring} (hf : f ∈ fs) : bound ≤ f.size := by
  induction fs generalizing bound with
  | nil => simp at hf
  | cons g rest ih =>
    rw [smallest?] at h
    split at h
    · simp at h
    · rename_i hge
      rcases List.mem_cons.1 hf with rfl | hf
      · exact Nat.not_lt.1 hge
      · exact ih h hf

theorem length_restsOf_le (cuts : List (Text × Text)) (part : Text) : (restsOf cuts part).length ≤ cuts.length := by
  rw [restsOf, (sorted_perm _).length_eq, List.length_map]
  exact List.length_filter_le ..

theorem length_le_of_ofLength? {side : Side} {words : List Text} {n : Nat} {f : Factoring}
    (h : ofLength? side words n = some f) :
    f.side = side ∧ f.parts.length ≤ words.length ∧ f.rests.length ≤ words.length := by
  have hparts := length_ascending_le ((words.map (cut side n)).map (·.1))
  simp only [ofLength?] at h
  split at h
  · contradiction
  · rename_i part more heq
    split at h
    · obtain rfl := Option.some.inj h
      rw [heq] at hparts
      have hrests := length_restsOf_le (words.map (cut side n)) part
      simp only [List.length_map] at hparts hrests
      exact ⟨rfl, hparts, hrests⟩
    · contradiction

/-- The two sides of the best factoring have fewer characters than the list and no more words. -/
theorem best?_smaller {side : Side} {words : List Text} {f : Factoring} (h : best? side words = some f) :
    f.size < charCount words ∧ f.prefixes.length ≤ words.length ∧ f.suffixes.length ≤ words.length := by
  obtain ⟨hm, hs⟩ := size_lt_of_smallest? h
  obtain ⟨n, _, hn⟩ := List.mem_filterMap.1 hm
  obtain ⟨_, hp, hr⟩ := length_le_of_ofLength? hn
  refine ⟨hs, ?_, ?_⟩ <;> simp only [prefixes, suffixes] <;> split <;> assumption

theorem charCount_append (vs ws : List Text) : charCount (vs ++ ws) = charCount vs + charCount ws := by
  induction vs with
  | nil => simp [charCount]
  | cons v rest ih => rw [List.cons_append, charCount, charCount, ih, Nat.add_assoc]

theorem charCount_perm {vs ws : List Text} (h : vs.Perm ws) : charCount vs = charCount ws := by
  induction h with
  | nil => rfl
  | cons w _ ih => rw [charCount, charCount, ih]
  | swap v w rest => simp only [charCount]; omega
  | trans _ _ ih ih' => exact ih.trans ih'

theorem size_eq (f : Factoring) : f.size = charCount f.prefixes + charCount f.suffixes := by
  simp only [size, prefixes, suffixes]; split <;> omega

theorem ascending_of_forall_eq {a : Text} {xs : List Text} (hne : xs ≠ []) (h : ∀ x ∈ xs, x = a) :
    ascending xs = [a] := by
  induction xs with
  | nil => contradiction
  | cons x rest ih =>
    obtain rfl := h x List.mem_cons_self
    cases rest with
    | nil => rfl
    | cons y more =>
      have := ih (by simp) fun z hz => h z (List.mem_cons_of_mem _ hz)
      rw [ascending, List.foldr_cons]
      rw [ascending] at this
      rw [this]
      simp [insertAscending]

theorem shortest_mem {words : List Text} (hne : words ≠ []) : ∃ w ∈ words, w.length = shortest words := by
  cases h : (words.map List.length).min? with
  | none => simp [List.min?_eq_none_iff, hne] at h
  | some n =>
    obtain ⟨w, hw, rfl⟩ := List.mem_map.1 (List.min?_mem h)
    exact ⟨w, hw, by simp [shortest, h]⟩

theorem charCount_drop_one {words : List Text} (h : ∀ w ∈ words, w ≠ []) :
    charCount (words.map (·.drop 1)) + words.length = charCount words := by
  induction words with
  | nil => rfl
  | cons w rest ih =>
    have := List.length_pos_iff.2 (h w List.mem_cons_self)
    have := ih fun v hv => h v (List.mem_cons_of_mem _ hv)
    simp only [List.map_cons, charCount, List.length_drop, List.length_cons]
    omega

/-- Cutting off a first character that all words share. -/
theorem ofLength?_one {words : List Text} {c : Char} (hne : words ≠ []) (hc : ∀ w ∈ words, w.head? = some c) :
    ∃ f, ofLength? .start words 1 = some f ∧ f.size + words.length = charCount words + 1 := by
  have hcut : ∀ w ∈ words, cut .start 1 w = ([c], w.drop 1) := fun w hw => by
    obtain ⟨t, rfl⟩ := List.head?_eq_some_iff.1 (hc w hw)
    rfl
  have hcuts : words.map (cut .start 1) = words.map fun w => ([c], w.drop 1) := List.map_congr_left hcut
  have hparts : ascending ((words.map (cut .start 1)).map (·.1)) = [[c]] := by
    apply ascending_of_forall_eq
    · simpa using hne
    · simp [hcuts]
  have hrests : charCount (restsOf (words.map (cut .start 1)) [c]) = charCount (words.map (·.drop 1)) := by
    rw [restsOf, charCount_perm (sorted_perm _), hcuts]
    congr 1
    simp [Function.comp_def, List.filter_eq_self.2]
  refine ⟨⟨.start, [[c]], restsOf (words.map (cut .start 1)) [c]⟩, by rw [ofLength?, hparts]; rfl, ?_⟩
  have hdrop := charCount_drop_one fun w hw h => by simpa [h] using hc w hw
  simp only [size, hrests, charCount, List.length_singleton]
  omega

/-- Words that begin with one character have a factoring, unless they are that character. -/
theorem best?_ne_none {words : List Text} {c : Char} (htwo : 2 ≤ words.length) (hc : ∀ w ∈ words, w.head? = some c)
    (hlong : ¬ ∀ w ∈ words, w.length = 1) : best? .start words ≠ none := by
  intro hnone
  have hne : words ≠ [] := by rintro rfl; simp at htwo
  obtain ⟨f, hf, hsize⟩ := ofLength?_one hne hc
  have hpos : 0 < longestPart words := by
    obtain ⟨w, hw, hs⟩ := shortest_mem hne
    have hw1 : 0 < w.length := List.length_pos_iff.2 fun h => by simpa [h] using hc w hw
    simp only [longestPart]
    split
    · rename_i hall
      rw [← hs] at hall ⊢
      have : w.length ≠ 1 := fun h => hlong fun v hv => by
        have := List.all_eq_true.1 hall v hv
        simp only [decide_eq_true_eq] at this
        omega
      omega
    · omega
  have hmem : f ∈ candidates .start words (longestPart words) :=
    List.mem_filterMap.2 ⟨0, List.mem_range.2 hpos, hf⟩
  have := le_size_of_smallest?_eq_none hnone hmem
  omega

end Factoring

end WordPattern
