import Mathlib.Data.List.Sort
import WordPattern.Proofs.Trees.Induction

/-! The tree of a list of words says nothing of the characters that stand for its symbols.

If the symbols are given other characters that stand in the same order among all others, the tree of the words stays the
same, because every step of it only compares characters. -/

namespace WordPattern

/-! ### Order -/

/-- Characters are renamed in such a way that they keep their order. -/
def KeepsOrder (A : Char → Prop) (ρ : Char → Char) : Prop := ∀ c d, A c → A d → c < d → ρ c < ρ d

def Over (A : Char → Prop) (words : List Text) : Prop := ∀ w ∈ words, ∀ c ∈ w, A c

section Order

variable {A : Char → Prop} {ρ : Char → Char} {words vs : List Text} {v w : Text} {c d : Char}

theorem KeepsOrder.injective (hρ : KeepsOrder A ρ) (hc : A c) (hd : A d) (heq : ρ c = ρ d) : c = d := by
  rcases lt_trichotomy c d with hlt | rfl | hlt
  · exact absurd heq (ne_of_lt (hρ c d hc hd hlt))
  · rfl
  · exact absurd heq.symm (ne_of_lt (hρ d c hd hc hlt))

/-- Lists are told apart by what a function tells apart. -/
theorem eq_of_map_eq {α β : Type} {f : α → β} {P : α → Prop} (hf : ∀ a b, P a → P b → f a = f b → a = b)
    {xs ys : List α} (hx : ∀ a ∈ xs, P a) (hy : ∀ a ∈ ys, P a) (heq : xs.map f = ys.map f) : xs = ys := by
  induction xs generalizing ys with
  | nil => exact (List.map_eq_nil_iff.1 heq.symm).symm
  | cons x xs ih =>
    cases ys with
    | nil => exact absurd heq (List.cons_ne_nil _ _)
    | cons y ys =>
      obtain ⟨hhead, htail⟩ := List.cons.inj heq
      rw [hf x y (hx x List.mem_cons_self) (hy y List.mem_cons_self) hhead]
      rw [ih (fun a ha => hx a (List.mem_cons_of_mem _ ha)) (fun a ha => hy a (List.mem_cons_of_mem _ ha)) htail]

theorem KeepsOrder.map_injective (hρ : KeepsOrder A ρ) (hv : ∀ c ∈ v, A c) (hw : ∀ c ∈ w, A c)
    (heq : v.map ρ = w.map ρ) : v = w :=
  eq_of_map_eq (fun _ _ => hρ.injective) hv hw heq

theorem KeepsOrder.words_injective (hρ : KeepsOrder A ρ) (hv : Over A vs) (hw : Over A words)
    (heq : vs.map (List.map ρ) = words.map (List.map ρ)) : vs = words :=
  eq_of_map_eq (fun _ _ => hρ.map_injective) hv hw heq

theorem KeepsOrder.map_lt (hρ : KeepsOrder A ρ) (hv : ∀ c ∈ v, A c) (hw : ∀ c ∈ w, A c) (hlt : v < w) :
    v.map ρ < w.map ρ := by
  induction v generalizing w with
  | nil =>
    cases w with
    | nil => exact absurd hlt (lt_irrefl _)
    | cons d w => exact List.nil_lt_cons _ _
  | cons c v ih =>
    cases w with
    | nil => exact absurd hlt (List.not_lt_nil _)
    | cons d w =>
      apply List.cons_lt_cons_iff.2
      rcases List.cons_lt_cons_iff.1 hlt with h | ⟨rfl, h⟩
      · exact .inl (hρ c d (hv c List.mem_cons_self) (hw d List.mem_cons_self) h)
      · refine .inr ⟨rfl, ih (fun e he => hv e (List.mem_cons_of_mem _ he)) (fun e he => ?_) h⟩
        exact hw e (List.mem_cons_of_mem _ he)

theorem Over.of_subset (h : Over A words) (hsub : ∀ w ∈ vs, w ∈ words) : Over A vs := fun w hw => h w (hsub w hw)

/-- Renaming, as far as the words of a list can tell. -/
theorem KeepsOrder.ascending_map (hρ : KeepsOrder A ρ) (h : Over A words) :
    ascending (words.map (List.map ρ)) = (ascending words).map (List.map ρ) := by
  apply (pairwise_ascending _).eq_of_mem_iff
  · apply List.pairwise_map.2
    apply (pairwise_ascending words).imp_of_mem
    intro v w hv hw hlt
    exact hρ.map_lt (h v (mem_ascending.1 hv)) (h w (mem_ascending.1 hw)) hlt
  · intro w
    simp only [mem_ascending, List.mem_map]

theorem KeepsOrder.insertBy_map (hρ : KeepsOrder A ρ) (hw : ∀ c ∈ w, A c) (h : Over A words) :
    insertBy (fun a b => a < b) (w.map ρ) (words.map (List.map ρ)) =
      (insertBy (fun a b => a < b) w words).map (List.map ρ) := by
  induction words with
  | nil => rfl
  | cons v words ih =>
    have hv := h v List.mem_cons_self
    have hlt : v.map ρ < w.map ρ ↔ v < w := by
      constructor
      · intro hmap
        rcases lt_trichotomy v w with hlt | rfl | hlt
        · exact hlt
        · exact absurd hmap (lt_irrefl _)
        · exact absurd (hρ.map_lt hw hv hlt) (lt_asymm hmap)
      · exact hρ.map_lt hv hw
    rw [List.map_cons, insertBy, insertBy]
    simp only [hlt]
    split_ifs
    · rw [List.map_cons, ih (h.of_subset fun _ => List.mem_cons_of_mem _)]
    · rfl

theorem KeepsOrder.sorted_map (hρ : KeepsOrder A ρ) (h : Over A words) :
    sorted (words.map (List.map ρ)) = (sorted words).map (List.map ρ) := by
  induction words with
  | nil => rfl
  | cons w words ih =>
    have hrest := h.of_subset fun _ => List.mem_cons_of_mem w
    change insertBy _ (w.map ρ) (sorted (words.map (List.map ρ))) = _
    rw [ih hrest]
    apply hρ.insertBy_map (h w List.mem_cons_self)
    exact hrest.of_subset fun v hv => (sorted_perm words).mem_iff.1 hv

end Order

/-! ### Factorings -/

namespace Factoring

variable {A : Char → Prop} {ρ : Char → Char} {words : List Text}

def rename (ρ : Char → Char) (f : Factoring) : Factoring :=
  ⟨f.side, f.parts.map (List.map ρ), f.rests.map (List.map ρ)⟩

theorem cut_map (side : Side) (n : Nat) (w : Text) :
    cut side n (w.map ρ) = ((cut side n w).1.map ρ, (cut side n w).2.map ρ) := by
  cases side <;> simp [cut, List.map_take, List.map_drop]

theorem charCount_map (words : List Text) : charCount (words.map (List.map ρ)) = charCount words := by
  induction words with
  | nil => rfl
  | cons w words ih => rw [List.map_cons, charCount, charCount, List.length_map, ih]

theorem size_rename (f : Factoring) : (f.rename ρ).size = f.size := by
  rw [size, size, rename, charCount_map, charCount_map]

theorem shortest_map (words : List Text) : shortest (words.map (List.map ρ)) = shortest words := by
  have hlengths : (words.map (List.map ρ)).map List.length = words.map List.length := by
    simp [Function.comp_def]
  rw [shortest, shortest, hlengths]

theorem longestPart_map (words : List Text) : longestPart (words.map (List.map ρ)) = longestPart words := by
  simp [longestPart, shortest_map, List.all_map, Function.comp_def]

theorem over_cuts (h : Over A words) (side : Side) (n : Nat) :
    Over A ((words.map (cut side n)).map (·.1)) ∧ Over A ((words.map (cut side n)).map (·.2)) := by
  constructor
  all_goals
    intro x hx c hc
    obtain ⟨y, hy, rfl⟩ := List.mem_map.1 hx
    obtain ⟨w, hw, rfl⟩ := List.mem_map.1 hy
    apply h w hw
    rw [← rejoin_cut side n w]
    cases side <;> simp [rejoin, hc]

theorem restsOf_map (hρ : KeepsOrder A ρ) {cuts : List (Text × Text)} (hparts : Over A (cuts.map (·.1)))
    (hrests : Over A (cuts.map (·.2))) {part : Text} (hpart : ∀ c ∈ part, A c) :
    restsOf (cuts.map fun x => (x.1.map ρ, x.2.map ρ)) (part.map ρ) = (restsOf cuts part).map (List.map ρ) := by
  have hsame : cuts.filter (fun x => x.1.map ρ = part.map ρ) = cuts.filter (·.1 = part) := by
    apply List.filter_congr
    intro x hx
    have hinj : x.1.map ρ = part.map ρ ↔ x.1 = part :=
      ⟨hρ.map_injective (hparts _ (List.mem_map_of_mem hx)) hpart, fun heq => by rw [heq]⟩
    simp only [hinj]
  have hmap : ∀ xs : List (Text × Text), (xs.map fun x => (x.1.map ρ, x.2.map ρ)).map (·.2) =
      (xs.map (·.2)).map (List.map ρ) := by
    intro xs
    simp [Function.comp_def]
  unfold restsOf
  rw [List.filter_map]
  change sorted (((cuts.filter (fun x => x.1.map ρ = part.map ρ)).map _).map _) = _
  rw [hsame, hmap]
  apply hρ.sorted_map
  apply hrests.of_subset
  intro r hr
  exact List.map_subset _ (List.filter_subset_self _) hr

theorem ofLength?_map (hρ : KeepsOrder A ρ) (h : Over A words) (side : Side) (n : Nat) :
    ofLength? side (words.map (List.map ρ)) n = (ofLength? side words n).map (rename ρ) := by
  obtain ⟨hparts, hrests⟩ := over_cuts h side n
  have hcuts : (words.map (List.map ρ)).map (cut side n) =
      (words.map (cut side n)).map fun x => (x.1.map ρ, x.2.map ρ) := by
    simp [Function.comp_def, cut_map]
  generalize hcs : words.map (cut side n) = cuts at hparts hrests hcuts
  have hheads : ascending ((cuts.map fun x => (x.1.map ρ, x.2.map ρ)).map (·.1)) =
      (ascending (cuts.map (·.1))).map (List.map ρ) := by
    rw [← hρ.ascending_map hparts]
    simp [Function.comp_def]
  have hover : Over A (ascending (cuts.map (·.1))) := hparts.of_subset fun _ => mem_ascending.1
  unfold ofLength?
  simp only [hcuts, hcs, hheads]
  cases hp : ascending (cuts.map (·.1)) with
  | nil => rfl
  | cons part more =>
    rw [hp] at hover
    have hpart := hover part List.mem_cons_self
    have hrest : ∀ p, Over A (restsOf cuts p) := fun p => hrests.of_subset fun r hr =>
      List.mem_map.2 ⟨(p, r), mem_restsOf.1 hr, rfl⟩
    have hall : (more.map (List.map ρ)).all (fun p => restsOf (cuts.map fun x => (x.1.map ρ, x.2.map ρ)) p =
        (restsOf cuts part).map (List.map ρ)) = more.all (restsOf cuts · = restsOf cuts part) := by
      rw [List.all_map, Bool.eq_iff_iff, List.all_eq_true, List.all_eq_true]
      apply forall₂_congr
      intro p hp
      have hinj : (restsOf cuts p).map (List.map ρ) = (restsOf cuts part).map (List.map ρ) ↔
          restsOf cuts p = restsOf cuts part :=
        ⟨hρ.words_injective (hrest p) (hrest part), fun heq => by rw [heq]⟩
      simp only [Function.comp_apply, restsOf_map hρ hparts hrests (hover p (List.mem_cons_of_mem _ hp)), hinj]
    simp only [List.map_cons, restsOf_map hρ hparts hrests hpart, hall]
    split_ifs <;> rfl

theorem candidates_map (hρ : KeepsOrder A ρ) (h : Over A words) (side : Side) (longest : Nat) :
    candidates side (words.map (List.map ρ)) longest = (candidates side words longest).map (rename ρ) := by
  simp only [candidates, ofLength?_map hρ h, List.map_filterMap]

theorem smallest?_map (bound : Nat) (fs : List Factoring) :
    smallest? bound (fs.map (rename ρ)) = (smallest? bound fs).map (rename ρ) := by
  induction fs generalizing bound with
  | nil => rfl
  | cons f fs ih =>
    rw [List.map_cons, smallest?, smallest?, size_rename, ih, ih]
    split_ifs
    · cases smallest? f.size fs <;> rfl
    · rfl

/-- The best factoring of renamed words is the renamed one. -/
theorem best?_map (hρ : KeepsOrder A ρ) (h : Over A words) (side : Side) :
    best? side (words.map (List.map ρ)) = (best? side words).map (rename ρ) := by
  rw [best?, best?, charCount_map, longestPart_map, candidates_map hρ h, smallest?_map]

theorem prefixes_rename (f : Factoring) : (f.rename ρ).prefixes = f.prefixes.map (List.map ρ) := by
  unfold prefixes rename
  split_ifs <;> rfl

theorem suffixes_rename (f : Factoring) : (f.rename ρ).suffixes = f.suffixes.map (List.map ρ) := by
  unfold suffixes rename
  split_ifs <;> rfl

theorem over_of_best? {side : Side} {f : Factoring} (h : Over A words) (hf : best? side words = some f) :
    Over A f.prefixes ∧ Over A f.suffixes := by
  have hmem := mem_words_of_best? hf
  obtain ⟨n, -, -, hn⟩ := ofLength?_of_best? hf
  obtain ⟨hparts, hrests⟩ := ne_nil_of_ofLength? hn
  have hprefixes : f.prefixes ≠ [] := by unfold prefixes; split_ifs <;> assumption
  have hsuffixes : f.suffixes ≠ [] := by unfold suffixes; split_ifs <;> assumption
  obtain ⟨p₀, hp₀⟩ := List.exists_mem_of_ne_nil _ hprefixes
  obtain ⟨s₀, hs₀⟩ := List.exists_mem_of_ne_nil _ hsuffixes
  constructor
  · intro p hp c hc
    exact h (p ++ s₀) ((hmem _).2 ⟨p, hp, s₀, hs₀, rfl⟩) c (List.mem_append_left _ hc)
  · intro s hs c hc
    exact h (p₀ ++ s) ((hmem _).2 ⟨p₀, hp₀, s, hs, rfl⟩) c (List.mem_append_right _ hc)

end Factoring

/-! ### Groups -/

section Groups

variable {A : Char → Prop} {ρ : Char → Char} {words : List Text}

theorem over_of_mem_headGroups (h : Over A words) {g : List Text} (hg : g ∈ headGroups words) : Over A g := by
  apply h.of_subset
  intro w hw
  rw [← flatten_headGroups words]
  exact List.mem_flatten.2 ⟨g, hg, hw⟩

theorem head?_map_iff (hρ : KeepsOrder A ρ) {v w : Text} (hv : ∀ c ∈ v, A c) (hw : ∀ c ∈ w, A c) :
    (v.map ρ).head? = (w.map ρ).head? ↔ v.head? = w.head? := by
  cases v with
  | nil => cases w <;> simp
  | cons c v =>
    cases w with
    | nil => simp
    | cons d w =>
      have hinj : ρ c = ρ d ↔ c = d :=
        ⟨hρ.injective (hv c List.mem_cons_self) (hw d List.mem_cons_self), fun heq => by rw [heq]⟩
      simpa using hinj

theorem headGroups_map (hρ : KeepsOrder A ρ) (h : Over A words) :
    headGroups (words.map (List.map ρ)) = (headGroups words).map (List.map (List.map ρ)) := by
  induction words with
  | nil => rfl
  | cons w words ih =>
    have hrest := h.of_subset fun _ => List.mem_cons_of_mem w
    rw [List.map_cons, headGroups, headGroups, ih hrest]
    cases hg : headGroups words with
    | nil => rfl
    | cons group more =>
      cases group with
      | nil => exact absurd rfl (ne_nil_of_mem_headGroups (hg ▸ List.mem_cons_self))
      | cons v group =>
        have hv : ∀ c ∈ v, A c := over_of_mem_headGroups hrest (hg ▸ List.mem_cons_self) v List.mem_cons_self
        simp only [List.map_cons, head?_map_iff hρ (h w List.mem_cons_self) hv]
        split_ifs <;> rfl

theorem nonemptyWords_map (words : List Text) :
    nonemptyWords (words.map (List.map ρ)) = (nonemptyWords words).map (List.map ρ) := by
  simp [nonemptyWords, List.filter_map, Function.comp_def]

end Groups

/-! ### Trees -/

namespace Node

variable {A : Char → Prop} {ρ : Char → Char} {symbol symbol' : Char → Option Verbatim} {ignoreCase : Bool}

/-- The new characters of symbols stand for what the old ones do, and other characters stay as they are. -/
structure Renames (A : Char → Prop) (ρ : Char → Char) (symbol symbol' : Char → Option Verbatim) : Prop where
  order : KeepsOrder A ρ
  meaning : ∀ c, A c → symbol' (ρ c) = symbol c
  literal : ∀ c, A c → symbol c = none → ρ c = c

variable (h : Renames A ρ symbol symbol')

include h

theorem ofChar_map {c : Char} (hc : A c) : ofChar symbol' (ρ c) = ofChar symbol c := by
  have hsymbol := h.meaning c hc
  unfold ofChar
  rw [hsymbol]
  cases hs : symbol c with
  | some v => rfl
  | none => rw [h.literal c hc hs]

theorem isSingleLiteral_map {g : List Text} (hg : Over A g) :
    isSingleLiteral symbol' (g.map (List.map ρ)) = isSingleLiteral symbol g := by
  have hsingle : ∀ c, A c → isSingleLiteral symbol' [[ρ c]] = isSingleLiteral symbol [[c]] := by
    intro c hc
    rw [isSingleLiteral, isSingleLiteral, h.meaning c hc]
  cases g with
  | nil => rfl
  | cons w g =>
    cases w with
    | nil => cases g <;> rfl
    | cons c w =>
      cases w with
      | nil =>
        cases g with
        | nil => exact hsingle c (hg [c] List.mem_cons_self c List.mem_cons_self)
        | cons => rfl
      | cons => cases g <;> rfl

theorem loneChars_map {groups : List (List Text)} (hgroups : ∀ g ∈ groups, Over A g) :
    (groups.map (List.map (List.map ρ))).filter (isSingleLiteral symbol') = groups.filter (isSingleLiteral symbol) := by
  induction groups with
  | nil => rfl
  | cons g groups ih =>
    have hg := hgroups g List.mem_cons_self
    rw [List.map_cons, List.filter_cons, List.filter_cons, isSingleLiteral_map h hg,
      ih fun g' hg' => hgroups g' (List.mem_cons_of_mem _ hg')]
    split_ifs with hsingle
    · obtain ⟨c, rfl, hc⟩ := isSingleLiteral_iff.1 hsingle
      rw [List.map_singleton, List.map_singleton, h.literal c (hg [c] List.mem_cons_self c List.mem_cons_self) hc]
    · rfl

theorem ofGroups_map {groups : List (List Text)} (hgroups : ∀ g ∈ groups, Over A g)
    (htrees : ∀ g ∈ groups, ofWords symbol' ignoreCase (g.map (List.map ρ)) = ofWords symbol ignoreCase g) :
    ofGroups symbol' ignoreCase (groups.map (List.map (List.map ρ))) = ofGroups symbol ignoreCase groups := by
  have hlone := loneChars_map h hgroups
  have hmap : ∀ gs : List (List Text), (∀ g ∈ gs, g ∈ groups) →
      (gs.map (List.map (List.map ρ))).map (ofWords symbol' ignoreCase) = gs.map (ofWords symbol ignoreCase) := by
    intro gs hsub
    rw [List.map_map]
    exact List.map_congr_left fun g hg => htrees g (hsub g hg)
  have hothers : (groups.map (List.map (List.map ρ))).filter (!isSingleLiteral symbol' ·) =
      (groups.filter (!isSingleLiteral symbol ·)).map (List.map (List.map ρ)) := by
    rw [List.filter_map]
    congr 1
    apply List.filter_congr
    intro g hg
    rw [Function.comp_apply, isSingleLiteral_map h (hgroups g hg)]
  unfold ofGroups loneChars
  rw [hlone, hothers, hmap groups fun _ hg => hg, hmap _ fun g hg => (List.mem_filter.1 hg).1]

theorem ofChars_map {chars : List Char} (hchars : ∀ c ∈ chars, A c) :
    ofChars symbol' ignoreCase (chars.map ρ) = ofChars symbol ignoreCase chars := by
  have hgroups : (chars.map ρ).map (fun c => [[c]]) = (chars.map fun c => [[c]]).map (List.map (List.map ρ)) := by
    simp [Function.comp_def]
  rw [ofChars_eq, ofChars_eq, hgroups]
  have hover : ∀ g ∈ chars.map (fun c => [[c]]), ∃ c, A c ∧ g = [[c]] := by
    intro g hg
    obtain ⟨c, hc, rfl⟩ := List.mem_map.1 hg
    exact ⟨c, hchars c hc, rfl⟩
  apply ofGroups_map h
  · intro g hg w hw d hd
    obtain ⟨c, hc, rfl⟩ := hover g hg
    obtain rfl := List.mem_singleton.1 hw
    rwa [List.mem_singleton.1 hd]
  · intro g hg
    obtain ⟨c, hc, rfl⟩ := hover g hg
    rw [List.map_singleton, List.map_singleton, ofWords, ofWords, List.map_singleton, List.map_singleton, ofChar_map h hc]

/-- The tree of renamed words is the tree of the words. -/
theorem ofWords_map {words : List Text} (hwords : Over A words) :
    ofWords symbol' ignoreCase (words.map (List.map ρ)) = ofWords symbol ignoreCase words := by
  induction hk : weight words using Nat.strong_induction_on generalizing words with
  | _ k ih =>
    subst hk
    have hnonempty : ∀ {vs : List Text}, weight vs < weight words → Over A vs →
        ofWords symbol' ignoreCase (nonemptyWords (vs.map (List.map ρ))) =
          ofWords symbol ignoreCase (nonemptyWords vs) := by
      intro vs hlt hvs
      rw [nonemptyWords_map]
      apply ih _ (Nat.lt_of_le_of_lt (weight_nonemptyWords_le vs) hlt) _ rfl
      exact hvs.of_subset fun w hw => (mem_nonemptyWords.1 hw).1
    have hany : ∀ vs : List Text, (vs.map (List.map ρ)).any (·.isEmpty) = vs.any (·.isEmpty) := by
      intro vs
      simp [Function.comp_def]
    by_cases htwo : 2 ≤ words.length
    · have hlengths : (∀ w ∈ words.map (List.map ρ), w.length = 1) ↔ ∀ w ∈ words, w.length = 1 := by simp
      have hempties : (∀ w ∈ words.map (List.map ρ), w = []) ↔ ∀ w ∈ words, w = [] := by simp
      rw [ofWords_many (by rwa [List.length_map]), ofWords_many htwo]
      simp only [hlengths, hempties, Factoring.best?_map h.order hwords]
      split_ifs with hlong hempty
      · rw [← List.map_flatten]
        apply ofChars_map h
        intro c hc
        obtain ⟨w, hw, hc⟩ := List.mem_flatten.1 hc
        exact hwords w hw c hc
      · rfl
      · cases hstart : Factoring.best? .start words with
        | some f =>
          obtain ⟨hprefixes, hsuffixes⟩ := Factoring.over_of_best? hwords hstart
          obtain ⟨hlt, hlt'⟩ := weight_sides_lt hstart
          simp only [Option.map_some, Factoring.prefixes_rename, Factoring.suffixes_rename, hany]
          rw [ih _ hlt hprefixes rfl, hnonempty hlt' hsuffixes]
        | none =>
          cases hstop : Factoring.best? .stop words with
          | some f =>
            obtain ⟨hprefixes, hsuffixes⟩ := Factoring.over_of_best? hwords hstop
            obtain ⟨hlt, hlt'⟩ := weight_sides_lt hstop
            simp only [Option.map_some, Option.map_none, Factoring.prefixes_rename, Factoring.suffixes_rename, hany]
            rw [ih _ hlt' hsuffixes rfl, hnonempty hlt hprefixes]
          | none =>
            simp only [Option.map_none, headGroups_map h.order hwords]
            apply ofGroups_map h
            · exact fun g hg => over_of_mem_headGroups hwords hg
            · intro g hg
              exact ih _ (weight_headGroup_lt htwo hempty hlong hstart hg) (over_of_mem_headGroups hwords hg) rfl
    · match words, htwo with
      | [], _ => rw [List.map_nil, ofWords, ofWords]
      | [w], _ =>
        rw [List.map_singleton, ofWords, ofWords, List.map_map]
        congr 1
        exact List.map_congr_left fun c hc => ofChar_map h (hwords w List.mem_cons_self c hc)
      | _ :: _ :: rest, htwo => exact absurd (Nat.le_add_left 2 rest.length) htwo

end Node

end WordPattern
