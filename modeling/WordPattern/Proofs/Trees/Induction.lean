import Mathlib.Data.List.Pairwise
import WordPattern.Node.Words
import WordPattern.Proofs.Trees.Products

/-! Induction over the tree of a list of words.

A list is a single word, a product of two lists, or falls apart into groups that begin with different characters. In
the last case those that are one literal may stand together as a class. -/

namespace WordPattern

/-- Words in order, none of them empty. -/
structure Listed (words : List Text) : Prop where
  ne_nil : words ≠ []
  ordered : words.Pairwise (· < ·)
  nonempty : ∀ w ∈ words, w ≠ []

theorem Listed.of_sublist {words vs : List Text} (h : Listed words) (hne : vs ≠ []) (hsub : vs.Sublist words) :
    Listed vs :=
  ⟨hne, h.ordered.sublist hsub, fun w hw => h.nonempty w (hsub.subset hw)⟩

theorem mem_nonemptyWords {words : List Text} {w : Text} : w ∈ nonemptyWords words ↔ w ∈ words ∧ w ≠ [] := by
  simp [nonemptyWords]

/-- The first word begins with the lesser character. -/
def Before (v w : Text) : Prop := ∃ c d s t, v = c :: s ∧ w = d :: t ∧ c < d

theorem Before.head?_ne {v w : Text} (h : Before v w) : v.head? ≠ w.head? := by
  obtain ⟨c, d, s, t, rfl, rfl, hlt⟩ := h
  simpa using ne_of_lt hlt

theorem Before.trans {u v w : Text} (h : Before u v) (h' : Before v w) : Before u w := by
  obtain ⟨c, d, s, t, rfl, rfl, hlt⟩ := h
  obtain ⟨d', e, s', t', heq, rfl, hlt'⟩ := h'
  obtain ⟨rfl, rfl⟩ := List.cons.inj heq
  exact ⟨c, e, s, t', rfl, rfl, hlt.trans hlt'⟩

/-- Of two words in order, the first begins with the lesser character, or they begin alike. -/
theorem before_of_lt {v w : Text} (hlt : v < w) (hv : v ≠ []) (hne : v.head? ≠ w.head?) : Before v w := by
  cases v with
  | nil => contradiction
  | cons c s =>
    cases w with
    | nil => exact absurd hlt (List.not_lt_nil _)
    | cons d t =>
      rcases List.cons_lt_cons_iff.1 hlt with h | ⟨rfl, -⟩
      · exact ⟨c, d, s, t, rfl, rfl, h⟩
      · exact absurd rfl hne

/-- Words that begin like the second of two. -/
theorem Before.of_head?_eq {v w w' : Text} (h : Before v w) (heq : w'.head? = w.head?) : Before v w' := by
  obtain ⟨c, d, s, t, rfl, rfl, hlt⟩ := h
  obtain ⟨t', rfl⟩ := List.head?_eq_some_iff.1 heq
  exact ⟨c, d, s, t', rfl, rfl, hlt⟩

/-- Groups begin with greater and greater characters. -/
def Rising (groups : List (List Text)) : Prop := groups.Pairwise fun g g' => ∀ v ∈ g, ∀ w ∈ g', Before v w

theorem rising_headGroups {words : List Text} (ho : words.Pairwise (· < ·)) (hne : ∀ w ∈ words, w ≠ []) :
    Rising (headGroups words) := by
  induction words with
  | nil => exact .nil
  | cons w rest ih =>
    obtain ⟨hw, hrest⟩ := List.pairwise_cons.1 ho
    have ih := ih hrest fun v hv => hne v (List.mem_cons_of_mem _ hv)
    have hflat := flatten_headGroups rest
    rw [headGroups]
    split
    · rename_i v group more hg
      have hfirst : ∀ u ∈ v :: group, u.head? = v.head? := fun u hu =>
        head?_eq_of_mem_headGroups (hg ▸ List.mem_cons_self) u hu v List.mem_cons_self
      rw [hg] at ih hflat
      obtain ⟨hmore, -⟩ := List.pairwise_cons.1 ih
      have hv : v ∈ rest := by rw [← hflat]; simp
      split_ifs with hhead
      · refine List.pairwise_cons.2 ⟨fun g hgm u hu x hx => ?_, (List.pairwise_cons.1 ih).2⟩
        rcases List.mem_cons.1 hu with rfl | hu
        · obtain ⟨c, d, s, t, rfl, rfl, hlt⟩ := hmore g hgm v List.mem_cons_self x hx
          obtain ⟨s', rfl⟩ := List.head?_eq_some_iff.1 hhead
          exact ⟨c, d, s', t, rfl, rfl, hlt⟩
        · exact hmore g hgm u hu x hx
      · have hbefore : Before w v := before_of_lt (hw v hv) (hne w List.mem_cons_self) hhead
        refine List.pairwise_cons.2 ⟨fun g hgm u hu x hx => ?_, ih⟩
        rw [List.mem_singleton.1 hu]
        rcases List.mem_cons.1 hgm with rfl | hgm
        · exact hbefore.of_head?_eq (hfirst x hx)
        · exact hbefore.trans (hmore g hgm v List.mem_cons_self x hx)
    · rename_i hgroups
      refine List.pairwise_cons.2 ⟨fun g hgm => ?_, ih⟩
      cases hg : headGroups rest with
      | nil => simp [hg] at hgm
      | cons g' more =>
        cases g' with
        | nil => exact absurd rfl (ne_nil_of_mem_headGroups (hg ▸ List.mem_cons_self))
        | cons v group => exact absurd hg (hgroups v group more)

theorem Rising.head?_ne {groups : List (List Text)} (h : Rising groups) {g g' : List Text} (hg : g ∈ groups)
    (hg' : g' ∈ groups) (hne : g ≠ g') : ∀ v ∈ g, ∀ w ∈ g', v.head? ≠ w.head? := by
  have : Std.Symm fun g g' : List Text => ∀ v ∈ g, ∀ w ∈ g', v.head? ≠ w.head? :=
    ⟨fun g g' h v hv w hw heq => h w hw v hv heq.symm⟩
  have hapart := h.imp fun hb v hv w hw => (hb v hv w hw).head?_ne
  exact hapart.forall hg hg' hne

def Alike (groups : List (List Text)) : Prop := ∀ g ∈ groups, ∀ v ∈ g, ∀ w ∈ g, v.head? = w.head?

/-- The groups of a list of words: single literals that stand together, and others. -/
structure Branching (symbol : Char → Option Verbatim) (words : List Text) (lone : List Char)
    (others : List (List Text)) : Prop where
  mem : ∀ w, w ∈ words ↔ (∃ c ∈ lone, w = [c]) ∨ ∃ g ∈ others, w ∈ g
  literal : ∀ c ∈ lone, symbol c = none
  nodup : lone.Nodup
  apart : ∀ c ∈ lone, ∀ g ∈ others, ∀ w ∈ g, w.head? ≠ some c
  rising : Rising others
  alike : Alike others

section Branching

variable {symbol : Char → Option Verbatim} {words : List Text} {lone : List Char} {others : List (List Text)}

theorem Branching.of_lone (h : Branching symbol words lone others) {c : Char} (hc : c ∈ lone) : [c] ∈ words :=
  (h.mem [c]).2 (.inl ⟨c, hc, rfl⟩)

theorem Branching.of_group (h : Branching symbol words lone others) {g : List Text} (hg : g ∈ others) :
    ∀ w ∈ g, w ∈ words :=
  fun w hw => (h.mem w).2 (.inr ⟨g, hg, hw⟩)

end Branching

namespace Node

variable {symbol : Char → Option Verbatim} {ignoreCase : Bool}

def classOf (ignoreCase : Bool) (lone : List Char) : List Node :=
  if lone = [] then [] else [ofClass (.ofChars lone ignoreCase)]

theorem mem_classOf {lone : List Char} {n : Node} :
    n ∈ classOf ignoreCase lone ↔ lone ≠ [] ∧ n = ofClass (.ofChars lone ignoreCase) := by
  unfold classOf
  split_ifs with h <;> simp [h]

/-- A branch is the class of the characters that stand together, or it comes from a group. -/
theorem mem_branches {lone : List Char} {others : List (List Text)} {f : List Text → Node} {n : Node} :
    n ∈ classOf ignoreCase lone ++ others.map f ↔
      (lone ≠ [] ∧ n = ofClass (.ofChars lone ignoreCase)) ∨ ∃ g ∈ others, f g = n := by
  rw [List.mem_append, mem_classOf, List.mem_map]

theorem branches_ne_nil {words : List Text} {lone : List Char} {others : List (List Text)}
    (h : Branching symbol words lone others) (hwords : words ≠ []) (f : List Text → Node) :
    classOf ignoreCase lone ++ others.map f ≠ [] := by
  obtain ⟨w, hw⟩ := List.exists_mem_of_ne_nil _ hwords
  rcases (h.mem w).1 hw with ⟨c, hc, -⟩ | ⟨g, hg, -⟩
  · exact List.ne_nil_of_mem (mem_branches.2 (.inl ⟨List.ne_nil_of_mem hc, rfl⟩))
  · exact List.ne_nil_of_mem (mem_branches.2 (.inr ⟨g, hg, rfl⟩))

theorem isSingleLiteral_iff {group : List Text} :
    isSingleLiteral symbol group = true ↔ ∃ c, group = [[c]] ∧ symbol c = none := by
  unfold isSingleLiteral
  split
  · simp
  · rename_i h
    refine iff_of_false Bool.false_ne_true ?_
    rintro ⟨c, rfl, -⟩
    exact h c rfl

/-- Groups that are single literals are made of single characters. -/
theorem eq_map_of_single {groups : List (List Text)} (h : ∀ g ∈ groups, isSingleLiteral symbol g = true) :
    groups = groups.flatten.flatten.map fun c => [[c]] := by
  induction groups with
  | nil => rfl
  | cons g rest ih =>
    obtain ⟨c, rfl, -⟩ := isSingleLiteral_iff.1 (h g List.mem_cons_self)
    have hrest := ih fun g hg => h g (List.mem_cons_of_mem _ hg)
    simpa using hrest

def loneChars (symbol : Char → Option Verbatim) (groups : List (List Text)) : List Char :=
  (groups.filter (isSingleLiteral symbol)).flatten.flatten

theorem filter_isSingleLiteral (groups : List (List Text)) :
    groups.filter (isSingleLiteral symbol) = (loneChars symbol groups).map fun c => [[c]] :=
  @eq_map_of_single symbol _ fun _ hg => (List.mem_filter.1 hg).2

theorem mem_loneChars {groups : List (List Text)} {c : Char} :
    c ∈ loneChars symbol groups ↔ [[c]] ∈ groups ∧ symbol c = none := by
  have hmem : [[c]] ∈ groups.filter (isSingleLiteral symbol) ↔ c ∈ loneChars symbol groups := by
    rw [filter_isSingleLiteral]
    simp
  rw [← hmem, List.mem_filter, isSingleLiteral_iff]
  simp

theorem branching_of_rising {groups : List (List Text)} (h : Rising groups) (halike : Alike groups) :
    Branching symbol groups.flatten (loneChars symbol groups) (groups.filter (!isSingleLiteral symbol ·)) where
  mem w := by
    rw [List.mem_flatten]
    constructor
    · rintro ⟨g, hg, hw⟩
      cases hlit : isSingleLiteral symbol g with
      | true =>
        obtain ⟨c, rfl, hc⟩ := isSingleLiteral_iff.1 hlit
        exact .inl ⟨c, mem_loneChars.2 ⟨hg, hc⟩, List.mem_singleton.1 hw⟩
      | false => exact .inr ⟨g, List.mem_filter.2 ⟨hg, by rw [hlit]; rfl⟩, hw⟩
    · rintro (⟨c, hc, rfl⟩ | ⟨g, hg, hw⟩)
      · exact ⟨_, (mem_loneChars.1 hc).1, List.mem_singleton_self _⟩
      · exact ⟨g, (List.mem_filter.1 hg).1, hw⟩
  literal c hc := (mem_loneChars.1 hc).2
  nodup := by
    have hlone : Rising ((loneChars symbol groups).map fun c => [[c]]) := by
      rw [← filter_isSingleLiteral]
      exact h.filter _
    refine (List.pairwise_map.1 hlone).imp fun hb => ?_
    have := (hb _ (List.mem_singleton_self _) _ (List.mem_singleton_self _)).head?_ne
    simpa using this
  apart c hc g hg w hw := by
    obtain ⟨hc, hsymbol⟩ := mem_loneChars.1 hc
    obtain ⟨hg, hlit⟩ := List.mem_filter.1 hg
    refine h.head?_ne hg hc ?_ w hw [c] (List.mem_singleton_self _)
    rintro rfl
    simp [isSingleLiteral, hsymbol] at hlit
  rising := h.filter _
  alike g hg := halike g (List.mem_filter.1 hg).1

def ofGroups (symbol : Char → Option Verbatim) (ignoreCase : Bool) (groups : List (List Text)) : Node :=
  if 1 < (groups.filter (isSingleLiteral symbol)).length then
    ofBranches (ofClass (.ofChars (loneChars symbol groups) ignoreCase) ::
      (groups.filter (!isSingleLiteral symbol ·)).map (ofWords symbol ignoreCase))
  else ofBranches (groups.map (ofWords symbol ignoreCase))

theorem ofGroups_eq {groups : List (List Text)} (h : Rising groups) (halike : Alike groups) :
    ∃ lone others, Branching symbol groups.flatten lone others ∧ (∀ g ∈ others, g ∈ groups) ∧
      ofGroups symbol ignoreCase groups =
        ofBranches (classOf ignoreCase lone ++ others.map (ofWords symbol ignoreCase)) := by
  unfold ofGroups
  split_ifs with hlone
  · have hne : loneChars symbol groups ≠ [] := by
      intro hnil
      rw [filter_isSingleLiteral, hnil] at hlone
      simp at hlone
    refine ⟨_, _, branching_of_rising h halike, fun g hg => (List.mem_filter.1 hg).1, ?_⟩
    rw [classOf, if_neg hne, List.singleton_append]
  · refine ⟨[], groups, ⟨fun w => by simp, by simp, .nil, by simp, h, halike⟩, fun _ hg => hg, ?_⟩
    rw [classOf, if_pos rfl, List.nil_append]

/-- Single characters are groups of their own. -/
theorem ofChars_eq (chars : List Char) :
    ofChars symbol ignoreCase chars = ofGroups symbol ignoreCase (chars.map fun c => [[c]]) := by
  have hword : ∀ c, ofWords symbol ignoreCase [[c]] = ofChar symbol c := fun c => by
    rw [ofWords]
    rfl
  have hsingle : ∀ c, isSingleLiteral symbol [[c]] = (symbol c).isNone := fun _ => rfl
  have hlone : loneChars symbol (chars.map fun c => [[c]]) = chars.filter fun c => (symbol c).isNone := by
    simp only [loneChars, List.filter_map, Function.comp_def, hsingle]
    induction chars.filter fun c => (symbol c).isNone with
    | nil => rfl
    | cons c cs ih => simpa using ih
  have hlength : ((chars.map fun c => [[c]]).filter (isSingleLiteral symbol)).length =
      (chars.filter fun c => (symbol c).isNone).length := by
    rw [filter_isSingleLiteral, hlone, List.length_map]
  have hothers : ((chars.map fun c => [[c]]).filter (!isSingleLiteral symbol ·)) =
      (chars.filter fun c => (symbol c).isSome).map fun c => [[c]] := by
    rw [List.filter_map]
    congr 2
    funext c
    simp [hsingle]
  unfold ofChars ofGroups
  rw [hlength, hlone, hothers]
  simp only [List.map_map, Function.comp_def, hword]

theorem map_filter_attach {α β : Type} (p : α → Bool) (f : α → β) (xs : List α) :
    (xs.attach.filter fun x => p x.1).map (fun x => f x.1) = (xs.filter p).map f := by
  conv_rhs => rw [← List.attach_map_subtype_val xs, List.filter_map, List.map_map]
  rfl

/-- The tree of several words. -/
theorem ofWords_many {words : List Text} (htwo : 2 ≤ words.length) :
    ofWords symbol ignoreCase words =
      if ∀ word ∈ words, word.length = 1 then ofChars symbol ignoreCase words.flatten
      else if ∀ word ∈ words, word = [] then ofSequence []
      else
        match Factoring.best? .start words, Factoring.best? .stop words with
        | some f, _ => ofSequence [ofWords symbol ignoreCase f.prefixes,
            (ofWords symbol ignoreCase (nonemptyWords f.suffixes)).optionalIf (f.suffixes.any (·.isEmpty))]
        | none, some f => ofSequence
            [(ofWords symbol ignoreCase (nonemptyWords f.prefixes)).optionalIf (f.prefixes.any (·.isEmpty)),
              ofWords symbol ignoreCase f.suffixes]
        | none, none => ofGroups symbol ignoreCase (headGroups words) := by
  match words, htwo with
  | v :: w :: rest, _ =>
    rw [ofWords]
    simp only [dite_eq_ite]
    congr 2
    split
    · rename_i f hf
      rw [hf]
    · rename_i hstart
      rw [hstart]
      split
      · rename_i f hf
        rw [hf]
      · rename_i hstop
        rw [hstop]
        unfold ofGroups loneChars
        simp only [List.attach_map_val]
        congr 3
        exact map_filter_attach (!isSingleLiteral symbol ·) (ofWords symbol ignoreCase) _

theorem sublist_flatten {gs : List (List Text)} {g : List Text} (h : g ∈ gs) : g.Sublist gs.flatten := by
  obtain ⟨before, after, rfl⟩ := List.append_of_mem h
  rw [List.flatten_append, List.flatten_cons]
  exact (List.sublist_append_left g _).trans (List.sublist_append_right _ _)

/-- Words of one character each. -/
theorem eq_map_of_length_one {words : List Text} (h : ∀ w ∈ words, w.length = 1) :
    words = words.flatten.map fun c => [c] := by
  induction words with
  | nil => rfl
  | cons w rest ih =>
    obtain ⟨c, rfl⟩ := List.length_eq_one_iff.1 (h w List.mem_cons_self)
    have hrest := ih fun v hv => h v (List.mem_cons_of_mem _ hv)
    rw [List.flatten_cons, List.singleton_append, List.map_cons, ← hrest]

theorem rising_singles {chars : List Char} (h : (chars.map fun c => [c]).Pairwise (· < ·)) :
    Rising (chars.map fun c => [[c]]) := by
  refine List.pairwise_map.2 ((List.pairwise_map.1 h).imp fun {c d} hlt v hv w hw => ?_)
  rw [List.mem_singleton.1 hv, List.mem_singleton.1 hw]
  refine ⟨c, d, [], [], rfl, rfl, ?_⟩
  simpa [List.cons_lt_cons_iff] using hlt

/-- The sides of a factoring. -/
theorem listed_of_best? {side : Side} {words : List Text} {f : Factoring} (h : Factoring.best? side words = some f)
    (hwords : Listed words) :
    f.side = side ∧ ∃ k, 0 < k ∧ (∀ p ∈ f.parts, p.length = k) ∧ Listed f.parts ∧ Listed (nonemptyWords f.rests) := by
  obtain ⟨n, -, -, hf⟩ := Factoring.ofLength?_of_best? h
  obtain ⟨hparts, hrests⟩ := Factoring.pairwise_of_ofLength? hf hwords.ordered
  obtain ⟨k, hk, hlength, r, hr, hne⟩ := Factoring.parts_of_best? h
  refine ⟨(Factoring.length_le_of_ofLength? hf).1, k, hk, hlength, ⟨?_, hparts, ?_⟩, ⟨?_, hrests.filter _, ?_⟩⟩
  · exact (Factoring.ne_nil_of_ofLength? hf).1
  · rintro p hp rfl
    have := hlength [] hp
    rw [List.length_nil] at this
    omega
  · exact List.ne_nil_of_mem (mem_nonemptyWords.2 ⟨hr, hne⟩)
  · exact fun w hw => (mem_nonemptyWords.1 hw).2

section Empty

variable {words vs : List Text}

theorem count_nil_nonemptyWords (words : List Text) : (nonemptyWords words).count [] = 0 :=
  List.count_eq_zero_of_not_mem fun h => (mem_nonemptyWords.1 h).2 rfl

theorem count_nil_parts {side : Side} {f : Factoring} (h : Factoring.best? side words = some f) : f.parts.count [] = 0 := by
  obtain ⟨k, hpos, hlength, -⟩ := Factoring.parts_of_best? h
  exact List.count_eq_zero_of_not_mem fun hnil => Nat.ne_of_lt hpos (hlength [] hnil)

theorem count_nil_of_mem_headGroups (h : vs ∈ headGroups words) : vs.count [] ≤ words.count [] := by
  have hsub := sublist_flatten h
  rw [flatten_headGroups] at hsub
  exact hsub.count_le []

theorem side_of_best? {side : Side} {f : Factoring} (h : Factoring.best? side words = some f) : f.side = side := by
  obtain ⟨n, -, -, hn⟩ := Factoring.ofLength?_of_best? h
  exact (Factoring.length_le_of_ofLength? hn).1

/-- Two words of which only one can be empty are not both empty. -/
theorem exists_ne_nil (htwo : 2 ≤ words.length) (h : words.count [] ≤ 1) : ¬ ∀ w ∈ words, w = [] := by
  intro hnil
  have hcount : words.count [] = words.length := List.count_eq_length.2 fun w hw => (hnil w hw).symm
  omega

end Empty

section Induction

variable {P : List Text → Node → Prop}

/-- What holds of single words, and of products and groups if it holds of their parts, holds of every list of words. -/
theorem ofWords_induction
    (single : ∀ w, w ≠ [] → P [w] (ofSequence (w.map (ofChar symbol))))
    (start : ∀ (words parts rests : List Text) (k : Nat), Listed words → Factoring.IsProduct words parts rests → 0 < k →
      (∀ p ∈ parts, p.length = k) → Listed parts → Listed (nonemptyWords rests) →
      P parts (ofWords symbol ignoreCase parts) →
      P (nonemptyWords rests) (ofWords symbol ignoreCase (nonemptyWords rests)) →
      P words (ofSequence [ofWords symbol ignoreCase parts,
        (ofWords symbol ignoreCase (nonemptyWords rests)).optionalIf (rests.any (·.isEmpty))]))
    (stop : ∀ (words rests parts : List Text) (k : Nat), Listed words → Factoring.IsProduct words rests parts → 0 < k →
      (∀ p ∈ parts, p.length = k) → Listed parts → Listed (nonemptyWords rests) →
      P (nonemptyWords rests) (ofWords symbol ignoreCase (nonemptyWords rests)) →
      P parts (ofWords symbol ignoreCase parts) →
      P words (ofSequence [(ofWords symbol ignoreCase (nonemptyWords rests)).optionalIf (rests.any (·.isEmpty)),
        ofWords symbol ignoreCase parts]))
    (branches : ∀ (words : List Text) (lone : List Char) (others : List (List Text)), Listed words →
      Branching symbol words lone others → (∀ g ∈ others, Listed g ∧ P g (ofWords symbol ignoreCase g)) →
      P words (ofBranches (classOf ignoreCase lone ++ others.map (ofWords symbol ignoreCase))))
    (words : List Text) (h : Listed words) : P words (ofWords symbol ignoreCase words) := by
  have hgroups : ∀ (words : List Text) (groups : List (List Text)), Listed words → groups.flatten = words →
      (∀ g ∈ groups, g ≠ []) → Rising groups → Alike groups → (∀ g ∈ groups, Listed g → P g (ofWords symbol ignoreCase g)) →
      P words (ofGroups symbol ignoreCase groups) := by
    rintro words groups h rfl hne hrising halike hP
    obtain ⟨lone, others, hbranching, hothers, heq⟩ := @ofGroups_eq symbol ignoreCase _ hrising halike
    rw [heq]
    refine branches _ lone others h hbranching fun g hg => ?_
    have hg := hothers g hg
    have hlisted := h.of_sublist (hne g hg) (sublist_flatten hg)
    exact ⟨hlisted, hP g hg hlisted⟩
  induction hk : weight words using Nat.strong_induction_on generalizing words with
  | _ k ih =>
    subst hk
    by_cases htwo : 2 ≤ words.length
    · rw [ofWords_many htwo]
      split_ifs with hlong hempty
      · -- single characters
        rw [ofChars_eq]
        have hwords := eq_map_of_length_one hlong
        generalize words.flatten = chars at hwords
        subst hwords
        refine hgroups _ _ h ?_ (fun g hg => ?_) (rising_singles h.ordered) (fun g hg v hv w hw => ?_) fun g hg _ => ?_
        · rw [← List.flatMap_def, List.map_eq_flatMap]
        · obtain ⟨c, -, rfl⟩ := List.mem_map.1 hg
          exact List.cons_ne_nil _ _
        · obtain ⟨c, -, rfl⟩ := List.mem_map.1 hg
          rw [List.mem_singleton.1 hv, List.mem_singleton.1 hw]
        · obtain ⟨c, -, rfl⟩ := List.mem_map.1 hg
          rw [ofWords]
          exact single [c] (List.cons_ne_nil _ _)
      · obtain ⟨w, hw⟩ := List.exists_mem_of_ne_nil _ h.ne_nil
        exact absurd (hempty w hw) (h.nonempty w hw)
      · split
        · rename_i f hf
          have hproduct := Factoring.isProduct_of_best? hf h.ordered
          obtain ⟨hside, k, hk, hlength, hparts, hrests⟩ := listed_of_best? hf h
          obtain ⟨hlt, hlt'⟩ := weight_sides_lt hf
          simp only [Factoring.prefixes, Factoring.suffixes, hside, if_true] at hproduct hlt hlt' ⊢
          exact start _ _ _ k h hproduct hk hlength hparts hrests (ih _ hlt _ hparts rfl)
            (ih _ (Nat.lt_of_le_of_lt (weight_nonemptyWords_le _) hlt') _ hrests rfl)
        · rename_i f _ hf
          have hproduct := Factoring.isProduct_of_best? hf h.ordered
          obtain ⟨hside, k, hk, hlength, hparts, hrests⟩ := listed_of_best? hf h
          obtain ⟨hlt, hlt'⟩ := weight_sides_lt hf
          simp only [Factoring.prefixes, Factoring.suffixes, hside, reduceCtorEq, if_false] at hproduct hlt hlt' ⊢
          exact stop _ _ _ k h hproduct hk hlength hparts hrests
            (ih _ (Nat.lt_of_le_of_lt (weight_nonemptyWords_le _) hlt) _ hrests rfl) (ih _ hlt' _ hparts rfl)
        · rename_i hstart hstop
          refine hgroups words _ h (flatten_headGroups words) (fun _ => ne_nil_of_mem_headGroups)
            (rising_headGroups h.ordered h.nonempty) (fun _ => head?_eq_of_mem_headGroups) fun g hg hlisted => ?_
          exact ih _ (weight_headGroup_lt htwo hempty hlong hstart hg) g hlisted rfl
    · obtain ⟨w, rfl⟩ : ∃ w, words = [w] := by
        rw [← List.length_eq_one_iff]
        have := List.length_pos_iff.2 h.ne_nil
        omega
      rw [ofWords]
      exact single w (h.nonempty w (List.mem_singleton_self w))

end Induction

theorem mark_ofChar (c : Char) : (ofChar symbol c).mark = .plain := by
  unfold ofChar
  split <;> rfl

theorem mark_ofSequence {ns : List Node} (h : ∀ n ∈ ns, n.mark = .plain) : (ofSequence ns).mark = .plain := by
  unfold ofSequence
  split
  · exact h _ List.mem_cons_self
  · rfl

theorem mark_ofBranches {ns : List Node} (h : ∀ n ∈ ns, n.mark = .plain) : (ofBranches ns).mark = .plain := by
  unfold ofBranches
  split
  · exact h _ List.mem_cons_self
  · rfl

/-- A list of words is never optional as a whole. -/
theorem mark_ofWords {words : List Text} (h : Listed words) : (ofWords symbol ignoreCase words).mark = .plain := by
  refine ofWords_induction (P := fun _ n => n.mark = .plain) ?_ ?_ ?_ ?_ words h
  · intro w _
    refine mark_ofSequence fun n hn => ?_
    obtain ⟨c, -, rfl⟩ := List.mem_map.1 hn
    exact mark_ofChar c
  · intros
    rfl
  · intros
    rfl
  · intro words lone others _ _ hothers
    refine mark_ofBranches fun n hn => ?_
    rcases mem_branches.1 hn with ⟨-, rfl⟩ | ⟨g, hg, rfl⟩
    · rfl
    · exact (hothers g hg).2

end Node

end WordPattern
