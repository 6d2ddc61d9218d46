import Mathlib.Data.List.ProdSigma
import Mathlib.Data.Multiset.Bind
import WordPattern.Proofs.Trees.Products

/-! The best factoring of a list is its least product.

A list of words, in any order and with repeats, can be cut at one end after a fixed length if it is a product with every
word as often as it stands there. Cutting finds such a product wherever there is one, since the parts are then the parts
of the words and their remainders are the other side; so the best factoring is the least of all products. -/

namespace WordPattern

def Side.pick {α : Type} (side : Side) (before after : α) : α :=
  match side with
  | .start => before
  | .stop => after

namespace Factoring

/-- A length that parts may have: no word is shorter, and all words are longer if they have one length. -/
structure IsPartLength (words : List Text) (n : Nat) : Prop where
  pos : 0 < n
  le : ∀ w ∈ words, n ≤ w.length
  lt : (∀ v ∈ words, ∀ w ∈ words, v.length = w.length) → ∀ w ∈ words, n < w.length

/-- The words are the prefixes with the suffixes, each as often as it stands there. At the given side they are distinct
and of one length. -/
structure IsCut (side : Side) (words : List Text) (n : Nat) (prefixes suffixes : List Text) : Prop where
  perm : words.Perm (prefixes.flatMap fun p => suffixes.map (p ++ ·))
  nodup : (side.pick prefixes suffixes).Nodup
  length : ∀ part ∈ side.pick prefixes suffixes, part.length = n

/-- A factoring is smaller than the list and no larger than any other; of the smallest ones it has the shortest parts. -/
structure IsLeast (side : Side) (words : List Text) (n : Nat) (f : Factoring) : Prop where
  side_eq : f.side = side
  length : IsPartLength words n
  cut : IsCut side words n f.prefixes f.suffixes
  parts_ordered : f.parts.Pairwise (· < ·)
  rests_ordered : f.rests.Pairwise (· ≤ ·)
  lt : charCount f.prefixes + charCount f.suffixes < charCount words
  le : ∀ m ps ss, IsPartLength words m → IsCut side words m ps ss →
    charCount f.prefixes + charCount f.suffixes ≤ charCount ps + charCount ss ∧
      (charCount f.prefixes + charCount f.suffixes = charCount ps + charCount ss → n ≤ m)

/-! ### Lists in order -/

/-- A list is made of what is sent to each of some values. -/
theorem perm_flatMap_filter {α β : Type} [DecidableEq β] (f : α → β) {ks : List β} (hks : ks.Nodup) {xs : List α}
    (h : ∀ x ∈ xs, f x ∈ ks) : xs.Perm (ks.flatMap fun k => xs.filter (f · = k)) := by
  induction ks generalizing xs with
  | nil =>
    have hnil : xs = [] := List.eq_nil_iff_forall_not_mem.2 fun x hx => List.not_mem_nil (h x hx)
    rw [hnil, List.flatMap_nil]
  | cons k ks ih =>
    obtain ⟨hk, hks⟩ := List.nodup_cons.1 hks
    have hothers : ∀ x ∈ xs.filter (fun x => !decide (f x = k)), f x ∈ ks := by
      intro x hx
      obtain ⟨hx, hne⟩ := List.mem_filter.1 hx
      exact (List.mem_cons.1 (h x hx)).resolve_left (by simpa using hne)
    have hsame : ∀ k' ∈ ks, (xs.filter fun x => !decide (f x = k)).filter (f · = k') = xs.filter (f · = k') := by
      intro k' hk'
      rw [List.filter_filter]
      refine List.filter_congr fun x _ => ?_
      by_cases hx : f x = k'
      · have hne : k' ≠ k := fun heq => hk (heq ▸ hk')
        simp [hx, hne]
      · simp [hx]
    rw [List.flatMap_cons]
    refine (List.filter_append_perm (f · = k) xs).symm.trans (List.Perm.append_left _ ?_)
    rw [← List.flatMap_congr hsame]
    exact ih hks hothers

theorem pairwise_le_sorted (xs : List Text) : (sorted xs).Pairwise (· ≤ ·) := by
  have hsorted := @pairwise_sortBy Text (fun a b => a < b)
    (fun a b h => decide_eq_false (not_lt.2 (of_decide_eq_true h).le))
    (fun a b c h h' => decide_eq_false (not_lt.2 ((not_lt.1 (of_decide_eq_false h)).trans
      (not_lt.1 (of_decide_eq_false h'))))) xs
  exact hsorted.imp fun h => not_lt.1 (of_decide_eq_false h)

theorem eq_of_perm_of_le {xs ys : List Text} (h : xs.Perm ys) (hxs : xs.Pairwise (· ≤ ·)) (hys : ys.Pairwise (· ≤ ·)) :
    xs = ys := h.eq_of_pairwise (fun _ _ _ _ => le_antisymm) hxs hys

theorem sorted_eq_of_perm {xs ys : List Text} (h : xs.Perm ys) : sorted xs = sorted ys :=
  eq_of_perm_of_le (((sorted_perm xs).trans h).trans (sorted_perm ys).symm) (pairwise_le_sorted xs) (pairwise_le_sorted ys)

theorem ascending_perm {xs : List Text} (h : xs.Nodup) {ys : List Text} (hmem : ∀ y, y ∈ ys ↔ y ∈ xs) :
    (ascending ys).Perm xs :=
  (List.perm_ext_iff_of_nodup (nodup_of_pairwise_lt (pairwise_ascending ys)) h).2 fun y => by
    rw [mem_ascending, hmem]

/-! ### Products -/

section Products

variable {side : Side} {words ps ss : List Text} {n : Nat} {f g : Factoring}

/-- Parts and remainders make up the words. -/
theorem map_rejoin_product (side : Side) (ps ss : List Text) :
    ((side.pick ps ss ×ˢ side.pick ss ps).map (rejoin side)).Perm (ps.flatMap fun p => ss.map (p ++ ·)) := by
  have hmap : ∀ parts rests : List Text, (parts ×ˢ rests).map (rejoin side) =
      parts.flatMap fun part => rests.map fun rest => rejoin side (part, rest) := by
    intro parts rests
    induction parts with
    | nil => rfl
    | cons part parts ih => simp [ih]
  rw [hmap]
  cases side with
  | start => exact .refl _
  | stop =>
    have hswap := Multiset.bind_map_comm (ss : Multiset Text) (ps : Multiset Text) (f := fun s p => p ++ s)
    simp only [Multiset.map_coe, Multiset.coe_bind, Multiset.coe_eq_coe] at hswap
    exact hswap

theorem pick_sides (h : f.side = side) :
    side.pick f.prefixes f.suffixes = f.parts ∧ side.pick f.suffixes f.prefixes = f.rests := by
  subst h
  unfold prefixes suffixes
  cases f.side <;> exact ⟨rfl, rfl⟩

theorem size_eq_pick (side : Side) (ps ss : List Text) :
    charCount (side.pick ps ss) + charCount (side.pick ss ps) = charCount ps + charCount ss := by
  cases side
  · rfl
  · exact Nat.add_comm _ _

theorem cut_rejoin (side : Side) (part rest : Text) : cut side part.length (rejoin side (part, rest)) = (part, rest) := by
  cases side <;> simp [cut, rejoin]

/-- The cuts of the words are the parts with the remainders. -/
theorem IsCut.cuts (h : IsCut side words n ps ss) :
    (words.map (cut side n)).Perm (side.pick ps ss ×ˢ side.pick ss ps) := by
  have hwords := (h.perm.trans (map_rejoin_product side ps ss).symm).map (cut side n)
  refine hwords.trans (.of_eq ?_)
  rw [List.map_map]
  refine (List.map_congr_left ?_).trans (List.map_id _)
  rintro ⟨part, rest⟩ hmem
  have hcut := cut_rejoin side part rest
  rwa [h.length part (List.mem_product.1 hmem).1] at hcut

/-- In a product every part goes with all remainders. -/
theorem rests_of_product {parts : List Text} (hnodup : parts.Nodup) {part : Text} (hpart : part ∈ parts)
    (rests : List Text) : ((parts ×ˢ rests).filter (·.1 = part)).map (·.2) = rests := by
  induction parts with
  | nil => contradiction
  | cons p parts ih =>
    obtain ⟨hp, hnodup⟩ := List.nodup_cons.1 hnodup
    rw [List.product_cons, List.filter_append, List.map_append]
    by_cases heq : p = part
    · have hothers : (parts ×ˢ rests).filter (·.1 = part) = [] := by
        refine List.filter_eq_nil_iff.2 ?_
        rintro ⟨p', r⟩ hx
        have hne : p' ≠ part := fun h => hp (heq ▸ h ▸ (List.mem_product.1 hx).1)
        simpa using hne
      rw [hothers]
      simp [List.filter_map, Function.comp_def, heq]
    · have hpart := (List.mem_cons.1 hpart).resolve_left (Ne.symm heq)
      rw [ih hnodup hpart]
      simp [List.filter_map, Function.comp_def, heq]

/-- Where a list is a product, cutting it finds the two sides. -/
theorem IsCut.exists_ofLength? (hne : words ≠ []) (h : IsCut side words n ps ss) :
    ∃ f, ofLength? side words n = some f ∧ f.parts.Perm (side.pick ps ss) ∧ f.rests.Perm (side.pick ss ps) := by
  have hcuts := h.cuts
  have hnodup := h.nodup
  generalize side.pick ps ss = parts, side.pick ss ps = rests at hcuts hnodup ⊢
  have hrests : rests ≠ [] := by
    rintro rfl
    have hnil : words.map (cut side n) = [] := (hcuts.trans (.of_eq (by simp))).eq_nil
    exact hne (List.map_eq_nil_iff.1 hnil)
  have hparts : (ascending ((words.map (cut side n)).map (·.1))).Perm parts := by
    refine ascending_perm hnodup fun part => ?_
    rw [(hcuts.map _).mem_iff]
    simp [List.exists_mem_of_ne_nil rests hrests]
  have hof : ∀ part ∈ parts, restsOf (words.map (cut side n)) part = sorted rests := by
    intro part hpart
    refine sorted_eq_of_perm (((hcuts.filter _).map _).trans (.of_eq ?_))
    exact rests_of_product hnodup hpart rests
  rw [ofLength?]
  cases hascending : ascending ((words.map (cut side n)).map (·.1)) with
  | nil =>
    have hnil : words = [] := by
      rw [hascending] at hparts
      have := hcuts
      rw [hparts.symm.eq_nil] at this
      exact List.map_eq_nil_iff.1 this.eq_nil
    exact absurd hnil hne
  | cons part more =>
    rw [hascending] at hparts
    have hall : more.all (restsOf (words.map (cut side n)) · = restsOf (words.map (cut side n)) part) = true := by
      refine List.all_eq_true.2 fun p hp => decide_eq_true ?_
      rw [hof p (hparts.mem_iff.1 (List.mem_cons_of_mem _ hp)), hof part (hparts.mem_iff.1 List.mem_cons_self)]
    refine ⟨⟨side, part :: more, restsOf (words.map (cut side n)) part⟩, by simp only [hall, if_true], hparts, ?_⟩
    rw [hof part (hparts.mem_iff.1 List.mem_cons_self)]
    exact sorted_perm rests

theorem nodup_parts_of_ofLength? (h : ofLength? side words n = some f) : f.parts.Nodup := by
  rw [(ofLength?_eq_some h).1]
  exact nodup_of_pairwise_lt (pairwise_ascending _)

/-- The cuts of the words are what has been found, each part with all remainders. -/
theorem cuts_of_ofLength? (h : ofLength? side words n = some f) :
    (words.map (cut side n)).Perm (f.parts ×ˢ f.rests) := by
  obtain ⟨hparts, -, hrests⟩ := ofLength?_eq_some h
  refine (perm_flatMap_filter (·.1) (nodup_parts_of_ofLength? h) fun x hx => ?_).trans
    (.flatMap_left _ fun part hpart => ?_)
  · rw [hparts, mem_ascending]
    exact List.mem_map_of_mem hx
  · -- the cuts with this part are the part with each of its remainders
    have hgroup : (words.map (cut side n)).filter (·.1 = part) =
        (((words.map (cut side n)).filter (·.1 = part)).map (·.2)).map (Prod.mk part) := by
      rw [List.map_map]
      refine (List.map_id _).symm.trans (List.map_congr_left fun x hx => ?_)
      exact Prod.ext (of_decide_eq_true (List.mem_filter.1 hx).2) rfl
    rw [hgroup, ← hrests part hpart]
    exact (sorted_perm _).symm.map _

/-- What cutting finds is a product. -/
theorem isCut_of_ofLength? (hle : ∀ w ∈ words, n ≤ w.length) (h : ofLength? side words n = some f) :
    IsCut side words n f.prefixes f.suffixes := by
  obtain ⟨hpick, hpick'⟩ := pick_sides (length_le_of_ofLength? h).1
  refine ⟨?_, ?_, ?_⟩
  · have hself : words.map (rejoin side ∘ cut side n) = words :=
      (List.map_congr_left fun w _ => rejoin_cut side n w).trans (List.map_id words)
    have hwords := (cuts_of_ofLength? h).map (rejoin side)
    rw [List.map_map, hself, ← hpick, ← hpick'] at hwords
    exact hwords.trans (map_rejoin_product side f.prefixes f.suffixes)
  · rw [hpick]
    exact nodup_parts_of_ofLength? h
  · rw [hpick]
    intro part hpart
    rw [(ofLength?_eq_some h).1, mem_ascending] at hpart
    obtain ⟨_, hcut, rfl⟩ := List.mem_map.1 hpart
    obtain ⟨w, hw, rfl⟩ := List.mem_map.1 hcut
    exact length_cut side (hle w hw)

/-- The lengths that are tried are those that parts may have. -/
theorem isPartLength_iff (hne : words ≠ []) : IsPartLength words n ↔ 0 < n ∧ n ≤ longestPart words := by
  obtain ⟨v, hv, hshortest⟩ := shortest_mem hne
  have hone : (words.all fun w => decide (w.length = shortest words)) = true ↔
      ∀ u ∈ words, ∀ w ∈ words, u.length = w.length := by
    rw [List.all_eq_true]
    constructor
    · intro h u hu w hw
      rw [of_decide_eq_true (h u hu), of_decide_eq_true (h w hw)]
    · intro h w hw
      exact decide_eq_true ((h w hw v hv).trans hshortest)
  unfold longestPart
  constructor
  · rintro ⟨hpos, hle, hlt⟩
    have hv' := hle v hv
    refine ⟨hpos, ?_⟩
    split_ifs with hall
    · have := hlt (hone.1 hall) v hv
      omega
    · omega
  · rintro ⟨hpos, hle⟩
    split_ifs at hle with hall
    · have hlt : ∀ w ∈ words, n < w.length := fun w hw => by
        have := shortest_le hw
        omega
      exact ⟨hpos, fun w hw => (hlt w hw).le, fun _ => hlt⟩
    · exact ⟨hpos, fun w hw => hle.trans (shortest_le hw), fun h => absurd (hone.2 h) hall⟩

/-! ### The search -/

/-- Of the factorings of some lengths the one of this length is least, and it is the first of the least ones. -/
structure IsFirstLeast (factor : Nat → Option Factoring) (ns : List Nat) (f : Factoring) (n : Nat) : Prop where
  mem : n ∈ ns
  factor_eq : factor n = some f
  le : ∀ m ∈ ns, ∀ g, factor m = some g → f.size ≤ g.size ∧ (f.size = g.size → n ≤ m)

section Search

variable {factor : Nat → Option Factoring} {ns : List Nat} {k : Nat}

theorem IsFirstLeast.cons (h : IsFirstLeast factor ns f n) (hk : ∀ e, factor k = some e → f.size < e.size) :
    IsFirstLeast factor (k :: ns) f n := by
  refine ⟨List.mem_cons_of_mem _ h.mem, h.factor_eq, fun m hm g hg => ?_⟩
  rcases List.mem_cons.1 hm with rfl | hm
  · have hlt := hk g hg
    exact ⟨hlt.le, fun heq => absurd heq hlt.ne⟩
  · exact h.le m hm g hg

theorem isFirstLeast_cons_self (hk : ∀ m ∈ ns, k < m) (hfactor : factor k = some f)
    (hle : ∀ g ∈ ns.filterMap factor, f.size ≤ g.size) : IsFirstLeast factor (k :: ns) f k := by
  refine ⟨List.mem_cons_self, hfactor, fun m hm g hg => ?_⟩
  rcases List.mem_cons.1 hm with rfl | hm
  · obtain rfl := Option.some.inj (hfactor.symm.trans hg)
    exact ⟨le_rfl, fun _ => le_rfl⟩
  · exact ⟨hle g (List.mem_filterMap.2 ⟨m, hm, hg⟩), fun _ => (hk m hm).le⟩

/-- The search through growing lengths ends with the first of the least factorings. -/
theorem isFirstLeast_of_smallest? (hns : ns.Pairwise (· < ·)) {bound : Nat}
    (h : smallest? bound (ns.filterMap factor) = some f) : ∃ n, IsFirstLeast factor ns f n := by
  induction ns generalizing bound with
  | nil => contradiction
  | cons k ns ih =>
    obtain ⟨hk, hns⟩ := List.pairwise_cons.1 hns
    cases hfactor : factor k with
    | none =>
      rw [List.filterMap_cons_none hfactor] at h
      obtain ⟨n, hn⟩ := ih hns h
      exact ⟨n, hn.cons fun e he => absurd (hfactor.symm.trans he) nofun⟩
    | some e =>
      rw [List.filterMap_cons_some hfactor, smallest?] at h
      -- a factoring that is found further on is smaller than this one
      have hlater : ∀ b ≤ e.size, smallest? b (ns.filterMap factor) = some f →
          ∃ n, IsFirstLeast factor (k :: ns) f n := by
        intro b hb h
        obtain ⟨n, hn⟩ := ih hns h
        refine ⟨n, hn.cons fun e' he' => ?_⟩
        obtain rfl := Option.some.inj (hfactor.symm.trans he')
        exact (size_lt_of_smallest? h).2.trans_le hb
      split_ifs at h with hlt
      · cases hrest : smallest? e.size (ns.filterMap factor) with
        | some e' =>
          rw [hrest, Option.some_or] at h
          obtain rfl := Option.some.inj h
          exact hlater _ le_rfl hrest
        | none =>
          rw [hrest, Option.none_or] at h
          obtain rfl := Option.some.inj h
          exact ⟨k, isFirstLeast_cons_self hk hfactor fun g hg => le_size_of_smallest?_eq_none hrest hg⟩
      · exact hlater _ (not_lt.1 hlt) h

end Search

theorem ne_nil_of_best? (h : best? side words = some f) : words ≠ [] := by
  rintro rfl
  contradiction

theorem size_of_sides (hparts : f.parts.Perm (side.pick ps ss)) (hrests : f.rests.Perm (side.pick ss ps)) :
    charCount f.prefixes + charCount f.suffixes = charCount ps + charCount ss := by
  rw [← Factoring.size_eq, size, charCount_perm hparts, charCount_perm hrests, size_eq_pick]

/-- What is found is least. -/
theorem isLeast_of_best? (h : best? side words = some f) : ∃ n, IsLeast side words n f := by
  have hne := ne_nil_of_best? h
  have hsmall := (best?_smaller h).1
  obtain ⟨n, hn, hf, hleast⟩ := isFirstLeast_of_smallest? List.pairwise_lt_range h
  have hlength : IsPartLength words (n + 1) := (isPartLength_iff hne).2 ⟨Nat.succ_pos n, List.mem_range.1 hn⟩
  obtain ⟨hparts, hnonempty, hrests⟩ := ofLength?_eq_some hf
  refine ⟨n + 1, (length_le_of_ofLength? hf).1, hlength, isCut_of_ofLength? hlength.le hf, ?_, ?_, ?_, ?_⟩
  · rw [hparts]
    exact pairwise_ascending _
  · obtain ⟨part, hpart⟩ := List.exists_mem_of_ne_nil _ hnonempty
    rw [← hrests part hpart]
    exact pairwise_le_sorted _
  · rwa [← Factoring.size_eq]
  · intro m ps ss hm hcut
    obtain ⟨g, hg, hgparts, hgrests⟩ := hcut.exists_ofLength? hne
    obtain ⟨hpos, hle⟩ := (isPartLength_iff hne).1 hm
    obtain ⟨k, rfl⟩ := Nat.exists_eq_add_of_lt hpos
    rw [Nat.zero_add] at hg hle ⊢
    obtain ⟨hsize, htie⟩ := hleast k (List.mem_range.2 hle) g hg
    rw [← size_of_sides hgparts hgrests, ← Factoring.size_eq, ← Factoring.size_eq]
    exact ⟨hsize, fun heq => Nat.succ_le_succ (htie heq)⟩

/-- Cutting finds the least factoring. -/
theorem IsLeast.ofLength?_eq (h : IsLeast side words n f) : ofLength? side words n = some f := by
  have hne : words ≠ [] := by
    rintro rfl
    exact absurd h.lt (Nat.not_lt_zero _)
  obtain ⟨g, hg, hparts, hrests⟩ := h.cut.exists_ofLength? hne
  obtain ⟨hpick, hpick'⟩ := pick_sides h.side_eq
  rw [hpick] at hparts
  rw [hpick'] at hrests
  obtain ⟨hascending, hnonempty, hsame⟩ := ofLength?_eq_some hg
  have hside : g.side = f.side := (length_le_of_ofLength? hg).1.trans h.side_eq.symm
  have hparts : g.parts = f.parts := by
    refine eq_of_perm_of_le hparts ?_ (h.parts_ordered.imp le_of_lt)
    rw [hascending]
    exact (pairwise_ascending _).imp le_of_lt
  have hrests : g.rests = f.rests := by
    refine eq_of_perm_of_le hrests ?_ h.rests_ordered
    obtain ⟨part, hpart⟩ := List.exists_mem_of_ne_nil _ hnonempty
    rw [← hsame part hpart]
    exact pairwise_le_sorted _
  cases f
  cases g
  simp_all

/-- There is no more than one least factoring. -/
theorem IsLeast.unique {m : Nat} (h : IsLeast side words n f) (h' : IsLeast side words m g) : f = g := by
  obtain ⟨hle, htie⟩ := h.le m _ _ h'.length h'.cut
  obtain ⟨hle', htie'⟩ := h'.le n _ _ h.length h.cut
  have hsize := le_antisymm hle hle'
  obtain rfl : n = m := le_antisymm (htie hsize) (htie' hsize.symm)
  exact Option.some.inj (h.ofLength?_eq.symm.trans h'.ofLength?_eq)

/-- Where nothing is found no product is smaller than the list. -/
theorem le_of_best?_eq_none (h : best? side words = none) (hlength : IsPartLength words n)
    (hcut : IsCut side words n ps ss) : charCount words ≤ charCount ps + charCount ss := by
  by_cases hne : words = []
  · rw [hne]
    exact Nat.zero_le _
  · obtain ⟨f, hf, hparts, hrests⟩ := hcut.exists_ofLength? hne
    obtain ⟨hpos, hle⟩ := (isPartLength_iff hne).1 hlength
    obtain ⟨k, rfl⟩ := Nat.exists_eq_add_of_lt hpos
    rw [Nat.zero_add] at hf hle
    have hmem : f ∈ candidates side words (longestPart words) :=
      List.mem_filterMap.2 ⟨k, List.mem_range.2 hle, hf⟩
    rw [← size_of_sides hparts hrests, ← Factoring.size_eq]
    exact le_size_of_smallest?_eq_none h hmem

end Products

/-- The factoring that is found is the least one, and none is found only if no product is smaller than the list. -/
theorem best?_least (side : Side) (words : List Text) :
    (∀ f, best? side words = some f ↔ ∃ n, IsLeast side words n f) ∧
      (best? side words = none ↔ ∀ n ps ss, IsPartLength words n → IsCut side words n ps ss →
        charCount words ≤ charCount ps + charCount ss) := by
  have hnone : (∃ n f, IsLeast side words n f) → best? side words ≠ none := by
    rintro ⟨n, f, hf⟩ hnone
    exact absurd (le_of_best?_eq_none hnone hf.length hf.cut) (not_le.2 hf.lt)
  refine ⟨fun f => ⟨isLeast_of_best?, ?_⟩, fun h n ps ss => le_of_best?_eq_none h, fun h => ?_⟩
  · rintro ⟨n, hf⟩
    obtain ⟨g, hg⟩ := Option.ne_none_iff_exists'.1 (hnone ⟨n, f, hf⟩)
    obtain ⟨m, hleast⟩ := isLeast_of_best? hg
    rw [hg, hf.unique hleast]
  · refine Option.eq_none_iff_forall_ne_some.2 fun f hf => ?_
    obtain ⟨n, hleast⟩ := isLeast_of_best? hf
    exact absurd (h n _ _ hleast.length hleast.cut) (not_le.2 hleast.lt)

/-- A part that goes with other remainders makes no product; a word may stand there twice. -/
example : best? .start ["ba".toList, "a".toList, "ba".toList, "a".toList] = none ∧
    best? .stop ["cat".toList, "at".toList, "at".toList, "cat".toList] =
      some ⟨.stop, ["at".toList], [[], [], ['c'], ['c']]⟩ := by decide

end Factoring

end WordPattern
