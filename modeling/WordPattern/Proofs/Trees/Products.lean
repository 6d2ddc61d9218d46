import WordPattern.Factoring
import WordPattern.Proofs.Lists

/-! The two sides of a factoring are ordered lists whose products are the words. -/

namespace WordPattern

theorem nodup_of_pairwise_lt {words : List Text} (h : words.Pairwise (· < ·)) : words.Nodup :=
  h.imp fun hlt => ne_of_irrefl hlt

namespace Factoring

def rejoin (side : Side) (cut : Text × Text) : Text :=
  match side with
  | .start => cut.1 ++ cut.2
  | .stop => cut.2 ++ cut.1

theorem rejoin_cut (side : Side) (n : Nat) (w : Text) : rejoin side (cut side n w) = w := by
  cases side
  · exact List.take_append_drop n w
  · exact List.take_append_drop (w.length - n) w

theorem cut_injective (side : Side) (n : Nat) : Function.Injective (cut side n) := by
  intro v w h
  rw [← rejoin_cut side n v, h, rejoin_cut]

theorem length_cut (side : Side) {n : Nat} {w : Text} (h : n ≤ w.length) : (cut side n w).1.length = n := by
  cases side <;> simp only [cut, List.length_take, List.length_drop] <;> omega

theorem mem_restsOf {cuts : List (Text × Text)} {part rest : Text} :
    rest ∈ restsOf cuts part ↔ (part, rest) ∈ cuts := by
  rw [restsOf, (sorted_perm _).mem_iff]
  simp

theorem pairwise_restsOf {cuts : List (Text × Text)} (h : cuts.Nodup) (part : Text) :
    (restsOf cuts part).Pairwise (· < ·) := by
  refine pairwise_sorted ((h.filter _).map_on fun x hx y hy heq => ?_)
  have hx' : x.1 = part := of_decide_eq_true (List.mem_filter.1 hx).2
  have hy' : y.1 = part := of_decide_eq_true (List.mem_filter.1 hy).2
  exact Prod.ext (hx'.trans hy'.symm) heq

/-- The parts are those of the words, and every part goes with the same remainders. -/
theorem ofLength?_eq_some {side : Side} {words : List Text} {n : Nat} {f : Factoring}
    (h : ofLength? side words n = some f) :
    f.parts = ascending ((words.map (cut side n)).map (·.1)) ∧ f.parts ≠ [] ∧
      ∀ part ∈ f.parts, restsOf (words.map (cut side n)) part = f.rests := by
  simp only [ofLength?] at h
  split at h
  · contradiction
  · rename_i p more heq
    split_ifs at h with hall
    obtain rfl := Option.some.inj h
    refine ⟨heq.symm, by simp, fun part hp => ?_⟩
    rcases List.mem_cons.1 hp with rfl | hp
    · rfl
    · exact of_decide_eq_true (List.all_eq_true.1 hall part hp)

theorem mem_cuts_of_ofLength? {side : Side} {words : List Text} {n : Nat} {f : Factoring}
    (h : ofLength? side words n = some f) (part rest : Text) :
    (part, rest) ∈ words.map (cut side n) ↔ part ∈ f.parts ∧ rest ∈ f.rests := by
  obtain ⟨hparts, -, hrests⟩ := ofLength?_eq_some h
  constructor
  · intro hm
    have hp : part ∈ f.parts := by
      rw [hparts, mem_ascending]
      exact List.mem_map_of_mem hm
    exact ⟨hp, by rw [← hrests part hp, mem_restsOf]; exact hm⟩
  · rintro ⟨hp, hr⟩
    rwa [← hrests part hp, mem_restsOf] at hr

theorem ne_nil_of_ofLength? {side : Side} {words : List Text} {n : Nat} {f : Factoring}
    (h : ofLength? side words n = some f) : f.parts ≠ [] ∧ f.rests ≠ [] := by
  obtain ⟨hparts, hne, -⟩ := ofLength?_eq_some h
  refine ⟨hne, ?_⟩
  obtain ⟨part, hp⟩ := List.exists_mem_of_ne_nil _ hne
  rw [hparts, mem_ascending, List.mem_map] at hp
  obtain ⟨⟨part, rest⟩, hr, -⟩ := hp
  exact List.ne_nil_of_mem ((mem_cuts_of_ofLength? h part rest).1 hr).2

theorem pairwise_of_ofLength? {side : Side} {words : List Text} {n : Nat} {f : Factoring}
    (h : ofLength? side words n = some f) (hwords : words.Pairwise (· < ·)) :
    f.parts.Pairwise (· < ·) ∧ f.rests.Pairwise (· < ·) := by
  obtain ⟨hparts, hne, hrests⟩ := ofLength?_eq_some h
  obtain ⟨part, hp⟩ := List.exists_mem_of_ne_nil _ hne
  rw [hparts, ← hrests part hp]
  exact ⟨pairwise_ascending _, pairwise_restsOf ((nodup_of_pairwise_lt hwords).map (cut_injective side n)) part⟩

theorem longestPart_le (words : List Text) : longestPart words ≤ shortest words := by
  unfold longestPart
  split_ifs <;> omega

theorem shortest_le {words : List Text} {w : Text} (h : w ∈ words) : shortest words ≤ w.length := by
  cases hmin : (words.map List.length).min? with
  | none =>
    rw [List.min?_eq_none_iff, List.map_eq_nil_iff] at hmin
    simp [hmin] at h
  | some n =>
    rw [shortest, hmin]
    exact (List.min?_eq_some_iff.1 hmin).2 _ (List.mem_map_of_mem h)

/-- Two ordered lists whose products are the words of a list. -/
structure IsProduct (words before after : List Text) : Prop where
  mem : ∀ w, w ∈ words ↔ ∃ p ∈ before, ∃ s ∈ after, w = p ++ s
  before_ordered : before.Pairwise (· < ·)
  after_ordered : after.Pairwise (· < ·)
  before_ne : before ≠ []
  after_ne : after ≠ []

theorem IsProduct.append_mem {words before after : List Text} (h : IsProduct words before after) {p s : Text}
    (hp : p ∈ before) (hs : s ∈ after) : p ++ s ∈ words := (h.mem _).2 ⟨p, hp, s, hs, rfl⟩

theorem IsProduct.length_lt {words before after : List Text} (h : IsProduct words before after) {limit : Nat}
    (hlen : ∀ w ∈ words, w.length < limit) : (∀ p ∈ before, p.length < limit) ∧ ∀ s ∈ after, s.length < limit := by
  obtain ⟨p₀, hp₀⟩ := List.exists_mem_of_ne_nil _ h.before_ne
  obtain ⟨s₀, hs₀⟩ := List.exists_mem_of_ne_nil _ h.after_ne
  refine ⟨fun p hp => ?_, fun s hs => ?_⟩
  · have := hlen _ (h.append_mem hp hs₀)
    rw [List.length_append] at this
    omega
  · have := hlen _ (h.append_mem hp₀ hs)
    rw [List.length_append] at this
    omega

theorem ofLength?_of_best? {side : Side} {words : List Text} {f : Factoring} (h : best? side words = some f) :
    ∃ n, 0 < n ∧ n ≤ longestPart words ∧ ofLength? side words n = some f := by
  obtain ⟨hm, -⟩ := size_lt_of_smallest? h
  obtain ⟨n, hn, hf⟩ := List.mem_filterMap.1 hm
  exact ⟨n + 1, by omega, List.mem_range.1 hn, hf⟩

/-- The words are the products of the two sides, in whatever order they are and however often. -/
theorem mem_words_of_best? {side : Side} {words : List Text} {f : Factoring} (h : best? side words = some f)
    (w : Text) : w ∈ words ↔ ∃ p ∈ f.prefixes, ∃ s ∈ f.suffixes, w = p ++ s := by
  obtain ⟨n, -, -, hf⟩ := ofLength?_of_best? h
  obtain ⟨hside, -, -⟩ := length_le_of_ofLength? hf
  have hmem : w ∈ words ↔ ∃ p ∈ f.parts, ∃ r ∈ f.rests, w = rejoin side (p, r) := by
    constructor
    · intro hw
      obtain ⟨hp, hr⟩ := (mem_cuts_of_ofLength? hf _ _).1 (List.mem_map_of_mem hw)
      exact ⟨_, hp, _, hr, (rejoin_cut side n w).symm⟩
    · rintro ⟨p, hp, r, hr, rfl⟩
      obtain ⟨v, hv, hcut⟩ := List.mem_map.1 ((mem_cuts_of_ofLength? hf p r).2 ⟨hp, hr⟩)
      rwa [← hcut, rejoin_cut]
  cases side with
  | start =>
    simp only [prefixes, suffixes, hside, if_true]
    exact hmem
  | stop =>
    simp only [prefixes, suffixes, hside, reduceCtorEq, if_false]
    refine hmem.trans ?_
    constructor
    · rintro ⟨p, hp, r, hr, rfl⟩
      exact ⟨r, hr, p, hp, rfl⟩
    · rintro ⟨r, hr, p, hp, rfl⟩
      exact ⟨p, hp, r, hr, rfl⟩

theorem isProduct_of_best? {side : Side} {words : List Text} {f : Factoring} (h : best? side words = some f)
    (hwords : words.Pairwise (· < ·)) : IsProduct words f.prefixes f.suffixes := by
  have hmem := mem_words_of_best? h
  obtain ⟨n, -, -, hf⟩ := ofLength?_of_best? h
  obtain ⟨hside, -, -⟩ := length_le_of_ofLength? hf
  obtain ⟨hparts, hrests⟩ := pairwise_of_ofLength? hf hwords
  obtain ⟨hne, hne'⟩ := ne_nil_of_ofLength? hf
  cases side with
  | start =>
    simp only [prefixes, suffixes, hside, if_true] at hmem ⊢
    exact ⟨hmem, hparts, hrests, hne, hne'⟩
  | stop =>
    simp only [prefixes, suffixes, hside, reduceCtorEq, if_false] at hmem ⊢
    exact ⟨hmem, hrests, hparts, hne', hne⟩

/-- The parts are of one length, and some word is longer. -/
theorem parts_of_best? {side : Side} {words : List Text} {f : Factoring} (h : best? side words = some f) :
    ∃ n, 0 < n ∧ (∀ p ∈ f.parts, p.length = n) ∧ ∃ r ∈ f.rests, r ≠ [] := by
  obtain ⟨n, hpos, hle, hf⟩ := ofLength?_of_best? h
  obtain ⟨hparts, hrests⟩ := ne_nil_of_ofLength? hf
  have hlong := longestPart_le words
  obtain ⟨r, hr⟩ := List.exists_mem_of_ne_nil _ hrests
  have hlength : ∀ p ∈ f.parts, p.length = n := by
    intro p hp
    obtain ⟨w, hw, hcut⟩ := List.mem_map.1 ((mem_cuts_of_ofLength? hf p r).2 ⟨hp, hr⟩)
    have := length_cut side (hle.trans (hlong.trans (shortest_le hw)))
    rwa [hcut] at this
  refine ⟨n, hpos, hlength, Classical.byContradiction fun hnone => ?_⟩
  -- otherwise the words are the parts, and one character less could be cut off
  have hwords : ∀ w ∈ words, w.length = n := by
    intro w hw
    obtain ⟨hp, hr⟩ := (mem_cuts_of_ofLength? hf (cut side n w).1 (cut side n w).2).1 (List.mem_map_of_mem hw)
    have hnil : (cut side n w).2 = [] := Classical.byContradiction fun h => hnone ⟨_, hr, h⟩
    have hsplit : rejoin side ((cut side n w).1, []) = w := by rw [← hnil]; exact rejoin_cut side n w
    have hpart : (cut side n w).1 = w := by cases side <;> simpa [rejoin] using hsplit
    rw [← hpart]
    exact hlength _ hp
  have hne : words ≠ [] := by
    rintro rfl
    obtain ⟨p, hp⟩ := List.exists_mem_of_ne_nil _ hparts
    simpa using (mem_cuts_of_ofLength? hf p r).2 ⟨hp, hr⟩
  obtain ⟨w, hw, hshortest⟩ := shortest_mem hne
  have hall : words.all (fun w => decide (w.length = shortest words)) = true :=
    List.all_eq_true.2 fun v hv => decide_eq_true (by rw [hwords v hv, ← hshortest, hwords w hw])
  rw [longestPart, if_pos hall, ← hshortest, hwords w hw] at hle
  omega

end Factoring

end WordPattern
