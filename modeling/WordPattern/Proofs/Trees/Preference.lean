import WordPattern.Proofs.Trees.Induction
import WordPattern.Proofs.Trees.Members
import WordPattern.Proofs.Trees.Places

/-! The tree of a list of words matches the words one after the other, longer ones before those that they begin with.

A word may end with a symbol that takes no text, the end. Between words it does not count: of two words the longer is the
one with more before its end. -/

namespace WordPattern

open Regex

def trunk (last : Char → Bool) (w : Text) : Text := w.filter (!last ·)

/-- No word is the beginning of a later one. -/
def LongerFirst (last : Char → Bool) (words : List Text) : Prop :=
  words.Pairwise fun v w => ¬ trunk last v <+: trunk last w

/-- Ends stand last, they are the greatest characters, and a word is known from what comes before its end. -/
structure Capped (last : Char → Bool) (words : List Text) : Prop where
  stop : ∀ w ∈ words, ∀ a c b, w = a ++ c :: b → last c = true → b = []
  top : ∀ v ∈ words, ∀ c ∈ v, ∀ w ∈ words, ∀ d ∈ w, last d = true → c ≤ d
  distinct : ∀ v ∈ words, ∀ w ∈ words, trunk last v = trunk last w → v = w

def Endless (last : Char → Bool) (words : List Text) : Prop := ∀ w ∈ words, ∀ c ∈ w, last c = false

section Ends

variable {last : Char → Bool} {words ps ss : List Text}

theorem trunk_append (v w : Text) : trunk last (v ++ w) = trunk last v ++ trunk last w := List.filter_append ..

theorem trunk_eq_self {w : Text} (h : ∀ c ∈ w, last c = false) : trunk last w = w :=
  List.filter_eq_self.2 fun c hc => by rw [h c hc]; rfl

theorem Endless.capped (h : Endless last words) : Capped last words where
  stop w hw a c b heq hc := by
    rw [h w hw c (by simp [heq])] at hc
    contradiction
  top v _ c _ w hw d hd hlast := by
    rw [h w hw d hd] at hlast
    contradiction
  distinct v hv w hw heq := by rwa [trunk_eq_self (h v hv), trunk_eq_self (h w hw)] at heq

theorem Capped.of_subset {vs : List Text} (h : Capped last words) (hsub : ∀ w ∈ vs, w ∈ words) : Capped last vs where
  stop w hw := h.stop w (hsub w hw)
  top v hv c hc w hw := h.top v (hsub v hv) c hc w (hsub w hw)
  distinct v hv w hw := h.distinct v (hsub v hv) w (hsub w hw)

/-- Where something can follow, there is no end. -/
theorem Capped.before (h : Capped last words) (hproduct : Factoring.IsProduct words ps ss)
    (hs : ∃ s ∈ ss, s ≠ []) : Endless last ps := by
  obtain ⟨s, hs, hne⟩ := hs
  intro p hp c hc
  obtain ⟨a, b, rfl⟩ := List.append_of_mem hc
  rw [Bool.eq_false_iff]
  intro hlast
  have := h.stop _ (hproduct.append_mem hp hs) a c (b ++ s) (by simp) hlast
  exact hne (List.append_eq_nil_iff.1 this).2

theorem Capped.after (h : Capped last words) (hproduct : Factoring.IsProduct words ps ss) :
    Capped last ss := by
  obtain ⟨p, hp⟩ := List.exists_mem_of_ne_nil _ hproduct.before_ne
  refine ⟨?_, ?_, ?_⟩
  · rintro s hs a c b rfl hlast
    exact h.stop _ (hproduct.append_mem hp hs) (p ++ a) c b (by simp) hlast
  · intro s hs c hc s' hs' d hd hlast
    exact h.top _ (hproduct.append_mem hp hs) c (List.mem_append_right _ hc) _ (hproduct.append_mem hp hs') d
      (List.mem_append_right _ hd) hlast
  · intro s hs s' hs' heq
    have := h.distinct _ (hproduct.append_mem hp hs) _ (hproduct.append_mem hp hs') (by rw [trunk_append, trunk_append, heq])
    exact List.append_cancel_left this

/-- Of the words of a group that ends early, only an end has nothing before it. -/
theorem not_prefix_of_before (h : Capped last words) {v w : Text} (hv : v ∈ words) (hw : w ∈ words) (hb : Before v w) :
    ¬ trunk last v <+: trunk last w := by
  obtain ⟨c, d, s, t, rfl, rfl, hlt⟩ := hb
  have hc : last c = false := by
    rw [Bool.eq_false_iff]
    intro hlast
    exact absurd hlt (not_lt_of_ge (h.top _ hw d List.mem_cons_self _ hv c List.mem_cons_self hlast))
  have htv : trunk last (c :: s) = c :: trunk last s := by simp [trunk, hc]
  cases hd : last d with
  | false =>
    have htw : trunk last (d :: t) = d :: trunk last t := by simp [trunk, hd]
    rw [htv, htw, List.cons_prefix_cons]
    exact fun hp => ne_of_lt hlt hp.1
  | true =>
    obtain rfl := h.stop _ hw [] d t rfl hd
    have htw : trunk last [d] = [] := by simp [trunk, hd]
    rw [htv, htw]
    simp

/-- Products of lists, where no product with a part begins one with a later part. -/
theorem longerFirst_product (hps : Endless last ps) (hss : LongerFirst last ss)
    (hcross : ps.Pairwise fun p p' => ∀ s ∈ ss, ∀ s' ∈ ss, ¬ p ++ trunk last s <+: p' ++ trunk last s') :
    LongerFirst last (ps.flatMap fun p => ss.map (p ++ ·)) := by
  have htrunk : ∀ p ∈ ps, ∀ s, trunk last (p ++ s) = p ++ trunk last s := fun p hp s => by
    rw [trunk_append, trunk_eq_self (hps p hp)]
  refine List.pairwise_flatMap.2 ⟨fun p hp => List.pairwise_map.2 (hss.imp fun h => ?_), ?_⟩
  · rwa [htrunk p hp, htrunk p hp, List.prefix_append_right_inj]
  · refine hcross.imp_of_mem fun {p p'} hp hp' h => ?_
    rintro _ hx _ hy
    obtain ⟨s, hs, rfl⟩ := List.mem_map.1 hx
    obtain ⟨s', hs', rfl⟩ := List.mem_map.1 hy
    rw [htrunk p hp, htrunk p' hp']
    exact h s hs s' hs'

/-- Parts of one length at the start. -/
theorem longerFirst_start {k : Nat} (hps : Endless last ps) (hlength : ∀ p ∈ ps, p.length = k)
    (hlonger : LongerFirst last ps) (hss : LongerFirst last ss) :
    LongerFirst last (ps.flatMap fun p => ss.map (p ++ ·)) := by
  refine longerFirst_product hps hss (hlonger.imp_of_mem fun {p p'} hp hp' h s _ s' _ hprefix => h ?_)
  rw [trunk_eq_self (hps p hp), trunk_eq_self (hps p' hp')]
  refine List.prefix_of_prefix_length_le ((List.prefix_append p _).trans hprefix) (List.prefix_append p' _) ?_
  rw [hlength p hp, hlength p' hp']

theorem length_trunk_le (w : Text) : (trunk last w).length ≤ w.length := List.length_filter_le ..

/-- Only an end is missing from a trunk. -/
theorem Capped.le_length_trunk (h : Capped last words) {w : Text} (hw : w ∈ words) :
    w.length ≤ (trunk last w).length + 1 := by
  rcases List.eq_nil_or_concat w with rfl | ⟨a, c, rfl⟩
  · exact Nat.zero_le _
  · have ha : ∀ d ∈ a, last d = false := by
      intro d hd
      obtain ⟨a₁, a₂, rfl⟩ := List.append_of_mem hd
      rw [Bool.eq_false_iff]
      intro hlast
      have := h.stop _ hw a₁ d (a₂ ++ [c]) (by simp) hlast
      simp at this
    rw [List.concat_eq_append, trunk_append, trunk_eq_self ha, List.length_append, List.length_append,
      List.length_singleton]
    omega

/-- Parts of one length at the end. -/
theorem longerFirst_stop {k : Nat} (hcapped : Capped last words) (hproduct : ∀ p ∈ ps, ∀ s ∈ ss, p ++ s ∈ words)
    (hps : Endless last ps) (hlength : ∀ s ∈ ss, s.length = k) (hlonger : LongerFirst last ps)
    (hss : LongerFirst last ss) (hcap : Capped last ss) : LongerFirst last (ps.flatMap fun p => ss.map (p ++ ·)) := by
  refine longerFirst_product hps hss (hlonger.imp_of_mem fun {p p'} hp hp' h s hs s' hs' hprefix => ?_)
  rw [trunk_eq_self (hps p hp), trunk_eq_self (hps p' hp')] at h
  have hle := hcap.le_length_trunk hs
  have hle' : (trunk last s').length ≤ s'.length := length_trunk_le s'
  rw [hlength s hs] at hle
  rw [hlength s' hs'] at hle'
  -- the later part is shorter, by the one character that an end can make up for
  have hshort : p'.length < p.length := by
    by_contra hlong
    exact h (List.prefix_of_prefix_length_le ((List.prefix_append p _).trans hprefix) (List.prefix_append p' _)
      (Nat.not_lt.1 hlong))
  have hlen := hprefix.length_le
  rw [List.length_append, List.length_append] at hlen
  have heq : p ++ trunk last s = p' ++ trunk last s' := by
    refine hprefix.eq_of_length ?_
    rw [List.length_append, List.length_append]
    omega
  have hword : p ++ s = p' ++ s' := by
    refine hcapped.distinct _ (hproduct p hp s hs) _ (hproduct p' hp' s' hs') ?_
    rw [trunk_append, trunk_append, trunk_eq_self (hps p hp), trunk_eq_self (hps p' hp'), heq]
  have := congrArg List.length hword
  rw [List.length_append, List.length_append, hlength s hs, hlength s' hs'] at this
  omega

end Ends

section Lists

variable {σ : Sense} {symbol : Char → Option Verbatim} {last : Char → Bool} {words : List Text}

def Sense.word (σ : Sense) (symbol : Char → Option Verbatim) (w : Text) : Reach :=
  σ.items (w.map (Node.ofChar symbol))

theorem Sense.word_append (v w : Text) : σ.word symbol (v ++ w) = (σ.word symbol v).andThen (σ.word symbol w) := by
  rw [Sense.word, List.map_append, Sense.items_append]
  rfl

theorem Sense.word_literal {c : Char} (h : symbol c = none) : σ.word symbol [c] = σ.char c := by
  rw [Sense.word, List.map_singleton, Sense.items_singleton, Node.ofChar, h]
  exact Reach.andThen_nil _

/-- What listed words match, the first ones preferred. -/
def Sense.listed (σ : Sense) (symbol : Char → Option Verbatim) (ws : List Text) : Reach :=
  fun p => ws.flatMap fun w => σ.word symbol w p

theorem Sense.listed_append (vs ws : List Text) :
    σ.listed symbol (vs ++ ws) = (σ.listed symbol vs).orElse (σ.listed symbol ws) :=
  funext fun _ => List.flatMap_append

theorem Sense.listed_singleton (w : Text) : σ.listed symbol [w] = σ.word symbol w :=
  funext fun _ => List.flatMap_singleton ..

theorem Sense.length_char_le (c : Char) (q : Cursor) : (σ.char c q).length ≤ 1 := by
  unfold char Cursor.past
  split
  · split_ifs <;> simp
  · exact Nat.zero_le 1

def Sense.Single (σ : Sense) (symbol : Char → Option Verbatim) : Prop :=
  ∀ c v, symbol c = some v → v.role = .pattern → ∀ q, (σ.special false v q).length ≤ 1

/-- A word then ends in one place at most. -/
theorem Sense.length_word_le (hsingle : σ.Single symbol) (w : Text) (q : Cursor) :
    (σ.word symbol w q).length ≤ 1 := by
  induction w generalizing q with
  | nil => exact le_refl _
  | cons c w ih =>
    have hchar : (σ.reach (.ofChar symbol c) q).length ≤ 1 := by
      unfold Node.ofChar
      split
      · rename_i v hv
        rw [Node.ofVerbatim, reach, verbatim]
        split_ifs with hrole
        · exact hsingle c v hv hrole q
        · change (σ.assertion v q).length ≤ 1
          unfold assertion
          split_ifs <;> simp
      · change (σ.text [c] q).length ≤ 1
        have hone : σ.text [c] = σ.char c := Reach.andThen_nil _
        rw [hone]
        exact length_char_le c q
    change ((σ.reach (.ofChar symbol c) q).flatMap (σ.word symbol w)).length ≤ 1
    match σ.reach (.ofChar symbol c) q, hchar with
    | [], _ => exact Nat.zero_le 1
    | [r], _ =>
      rw [List.flatMap_singleton]
      exact ih r

theorem Sense.listed_product (hsingle : σ.Single symbol) (ps ss : List Text) :
    σ.listed symbol (ps.flatMap fun p => ss.map (p ++ ·)) =
      (σ.listed symbol ps).andThen (σ.listed symbol ss) := by
  funext q
  simp only [Sense.listed, Reach.andThen, List.flatMap_assoc, List.flatMap_map, Sense.word_append]
  refine List.flatMap_congr fun p _ => ?_
  have hlength := σ.length_word_le hsingle p q
  rcases hword : σ.word symbol p q with _ | ⟨r, _ | ⟨s, rs⟩⟩
  · simp
  · simp [Sense.listed]
  · rw [hword, List.length_cons, List.length_cons] at hlength
    omega

/-- A node prefers the words in some order in which longer ones come first. -/
def Lists (σ : Sense) (symbol : Char → Option Verbatim) (last : Char → Bool) (words : List Text) (n : Node) : Prop :=
  ∃ ws, (∀ w, w ∈ ws ↔ w ∈ words) ∧ LongerFirst last ws ∧ σ.reach n = σ.listed symbol ws

/-- A list with the empty word, which may be left out. -/
theorem Lists.optionalIf (hσ : σ.Uniform) {n : Node} (hn : n.mark.optional = false)
    (h : Lists σ symbol last (nonemptyWords words) n) (htrunk : [] ∈ words → ∀ w ∈ words, w ≠ [] → trunk last w ≠ []) :
    Lists σ symbol last words (n.optionalIf (words.any (·.isEmpty))) := by
  obtain ⟨ws, hmem, hlonger, hreach⟩ := h
  have hin : ∀ w, w ∈ ws ↔ w ∈ words ∧ w ≠ [] := fun w => (hmem w).trans mem_nonemptyWords
  rw [Lists, Sense.reach_optionalIf hσ hn, hreach]
  cases hany : words.any (·.isEmpty) with
  | false =>
    refine ⟨ws, fun w => ?_, hlonger, rfl⟩
    have hne : w ∈ words → w ≠ [] := by
      rintro hw rfl
      simp only [List.any_eq_false, List.isEmpty_iff] at hany
      exact hany [] hw rfl
    rw [hin]
    exact and_iff_left_of_imp hne
  | true =>
    have hnil : [] ∈ words := by simpa using hany
    refine ⟨ws ++ [[]], fun w => ?_, ?_, ?_⟩
    · rw [List.mem_append, List.mem_singleton, hin]
      by_cases hw : w = []
      · simp [hw, hnil]
      · simp [hw]
    · refine List.pairwise_append.2 ⟨hlonger, List.pairwise_singleton _ _, fun v hv w hw hprefix => ?_⟩
      rw [List.mem_singleton.1 hw] at hprefix
      obtain ⟨hv, hne⟩ := (hin v).1 hv
      exact htrunk hnil v hv hne (List.prefix_nil.1 hprefix)
    · rw [Sense.listed_append, Sense.listed_singleton]
      rfl

theorem Capped.trunk_ne_nil (h : Capped last words) (hnil : [] ∈ words) : ∀ w ∈ words, w ≠ [] → trunk last w ≠ [] :=
  fun w hw hne htrunk => hne (h.distinct w hw [] hnil htrunk)

/-- Without folding, the class of some characters matches one of them. -/
theorem classTest_ofChars (hfolded : σ.folded = false) (chars : List Char) (d : Char) :
    σ.classTest (.ofChars chars false) d = true ↔ d ∈ chars := by
  rw [← CharClass.mem_ofChars]
  unfold Sense.classTest
  split
  · rename_i c hc
    rw [hc, List.mem_singleton, hfolded]
    simp [sameChar, eq_comm]
  · rw [hfolded, contains_classItems]
    simp

theorem reach_class (hfolded : σ.folded = false) {lone : List Char} (hlit : ∀ c ∈ lone, symbol c = none)
    (hnodup : lone.Nodup) :
    σ.reach (.ofClass (.ofChars lone false)) = σ.listed symbol (lone.map fun c => [c]) := by
  funext p
  change p.past .ahead (σ.classTest (.ofChars lone false)) = _
  have hlisted : σ.listed symbol (lone.map fun c => [c]) p =
      lone.flatMap fun c => p.past .ahead (sameChar false c) := by
    rw [Sense.listed, List.flatMap_map]
    refine List.flatMap_congr fun c hc => ?_
    rw [Sense.word_literal (hlit c hc), Sense.char, hfolded]
  rw [hlisted]
  unfold Cursor.past
  split
  · rename_i d q _
    have hone : (lone.flatMap fun c => if sameChar false c d = true then [q] else []) =
        if d ∈ lone then [q] else [] := by
      clear hlit hlisted
      induction lone with
      | nil => rfl
      | cons c rest ih =>
        obtain ⟨hc, hrest⟩ := List.nodup_cons.1 hnodup
        rw [List.flatMap_cons, ih hrest]
        by_cases hcd : c = d
        · subst hcd
          simp [sameChar, hc]
        · simp [sameChar, hcd, Ne.symm hcd]
    simp only [hone, classTest_ofChars hfolded]
  · simp

theorem Sense.branches_append (ns ms : List Node) :
    σ.branches (ns ++ ms) = (σ.branches ns).orElse (σ.branches ms) := by
  induction ns with
  | nil => rfl
  | cons n ns ih =>
    rw [List.cons_append, branches, ih, branches]
    funext p
    exact (List.append_assoc ..).symm

theorem branches_classOf (hfolded : σ.folded = false) {lone : List Char} (hlit : ∀ c ∈ lone, symbol c = none)
    (hnodup : lone.Nodup) : σ.branches (Node.classOf false lone) = σ.listed symbol (lone.map fun c => [c]) := by
  unfold Node.classOf
  split_ifs with hlone
  · rw [hlone]
    rfl
  · rw [Sense.branches_singleton, reach_class hfolded hlit hnodup]

theorem branches_map {f : List Text → List Text} {node : List Text → Node} {groups : List (List Text)}
    (h : ∀ g ∈ groups, σ.reach (node g) = σ.listed symbol (f g)) :
    σ.branches (groups.map node) = σ.listed symbol (groups.flatMap f) := by
  induction groups with
  | nil => rfl
  | cons g rest ih =>
    rw [List.map_cons, Sense.branches, h g List.mem_cons_self, ih fun g hg => h g (List.mem_cons_of_mem _ hg),
      List.flatMap_cons, Sense.listed_append]

/-- A class and then groups that begin with greater and greater characters. -/
theorem lists_branches (hfolded : σ.folded = false) (hcapped : Capped last words)
    (hlast : ∀ c, symbol c = none → last c = false) {lone : List Char} {others : List (List Text)}
    (hbranching : Branching symbol words lone others)
    (h : ∀ g ∈ others, Lists σ symbol last g (.ofWords symbol false g)) :
    Lists σ symbol last words (.ofBranches (Node.classOf false lone ++ others.map (.ofWords symbol false))) := by
  choose! f hmem hlonger hreach using h
  have hothers : ∀ w, w ∈ others.flatMap f ↔ ∃ g ∈ others, w ∈ g := fun w => by
    rw [List.mem_flatMap]
    exact exists_congr fun g => and_congr_right fun hg => hmem g hg w
  have htrunk : ∀ c ∈ lone, trunk last [c] = [c] := fun c hc =>
    trunk_eq_self fun d hd => by rw [List.mem_singleton.1 hd]; exact hlast c (hbranching.literal c hc)
  refine ⟨lone.map (fun c => [c]) ++ others.flatMap f, fun w => ?_, List.pairwise_append.2 ⟨?_, ?_, ?_⟩, ?_⟩
  · rw [List.mem_append, hothers, hbranching.mem, List.mem_map]
    simp only [eq_comm]
  · refine List.pairwise_map.2 (hbranching.nodup.imp_of_mem fun {c d} hc hd hne => ?_)
    rw [htrunk c hc, htrunk d hd, List.cons_prefix_cons]
    exact fun hp => hne hp.1
  · refine List.pairwise_flatMap.2 ⟨hlonger, hbranching.rising.imp_of_mem fun {g g'} hg hg' hb v hv w hw => ?_⟩
    have hv := (hmem g hg v).1 hv
    have hw := (hmem g' hg' w).1 hw
    exact not_prefix_of_before hcapped (hbranching.of_group hg v hv) (hbranching.of_group hg' w hw) (hb v hv w hw)
  · intro v hv w hw hprefix
    obtain ⟨c, hc, rfl⟩ := List.mem_map.1 hv
    obtain ⟨g, hg, hwg⟩ := (hothers w).1 hw
    rw [htrunk c hc] at hprefix
    -- the end may be the first character of a word, but then it is the whole word
    have hhead : w.head? = some c := by
      obtain ⟨t, ht⟩ := hprefix
      cases w with
      | nil => simp [trunk] at ht
      | cons d t' =>
        cases hd : last d with
        | true =>
          obtain rfl := hcapped.stop _ (hbranching.of_group hg _ hwg) [] d t' rfl hd
          simp [trunk, hd] at ht
        | false =>
          rw [trunk, List.filter_cons_of_pos (by simp [hd])] at ht
          rw [(List.cons.inj ht).1]
          rfl
    exact hbranching.apart c hc g hg w hwg hhead
  · rw [Sense.reach_ofBranches, Sense.branches_append, branches_classOf hfolded hbranching.literal hbranching.nodup,
      branches_map hreach, Sense.listed_append]

/-- The tree of a list of words prefers them in an order in which longer ones come first. -/
theorem lists_ofWords (hσ : σ.Uniform) (hfolded : σ.folded = false) (hsingle : σ.Single symbol)
    (hlast : ∀ c, symbol c = none → last c = false) (h : Listed words) (hcapped : Capped last words) :
    Lists σ symbol last words (.ofWords symbol false words) := by
  have hpair : ∀ {words ps ss : List Text} {n m : Node}, Factoring.IsProduct words ps ss →
      Lists σ symbol last ps n → Lists σ symbol last ss m →
      (∀ ps' ss', (∀ p, p ∈ ps' ↔ p ∈ ps) → (∀ s, s ∈ ss' ↔ s ∈ ss) → LongerFirst last ps' → LongerFirst last ss' →
        LongerFirst last (ps'.flatMap fun p => ss'.map (p ++ ·))) →
      Lists σ symbol last words (.ofSequence [n, m]) := by
    rintro words ps ss n m hproduct ⟨ps', hps, hlonger, hn⟩ ⟨ss', hss, hlonger', hm⟩ hlong
    refine ⟨_, fun w => ?_, hlong ps' ss' hps hss hlonger hlonger', ?_⟩
    · simp only [List.mem_flatMap, List.mem_map, hproduct.mem, hps, hss, eq_comm]
    · rw [Sense.reach_ofSequence, Sense.items, Sense.items_singleton, hn, hm, Sense.listed_product hsingle]
  refine Node.ofWords_induction (P := fun words n => Capped last words → Lists σ symbol last words n)
    ?_ ?_ ?_ ?_ words h hcapped
  · intro w _ _
    exact ⟨[w], fun _ => Iff.rfl, List.pairwise_singleton _ _, by rw [Sense.reach_ofSequence, Sense.listed_singleton]; rfl⟩
  · intro words parts rests k hlisted hproduct _ hlength hparts hrests hn hm hcapped
    obtain ⟨r, hr⟩ := List.exists_mem_of_ne_nil _ hrests.ne_nil
    have hendless := hcapped.before hproduct ⟨r, mem_nonemptyWords.1 hr⟩
    have hafter := hcapped.after hproduct
    have hsub : ∀ w ∈ nonemptyWords rests, w ∈ rests := fun w hw => (mem_nonemptyWords.1 hw).1
    refine hpair hproduct (hn hendless.capped) ?_ fun ps ss hps _ hlonger hlonger' => ?_
    · exact (hm (hafter.of_subset hsub)).optionalIf hσ (by rw [Node.mark_ofWords hrests]; rfl) hafter.trunk_ne_nil
    · exact longerFirst_start (fun p hp => hendless p ((hps p).1 hp)) (fun p hp => hlength p ((hps p).1 hp)) hlonger
        hlonger'
  · intro words rests parts k hlisted hproduct hk hlength hparts hrests hn hm hcapped
    obtain ⟨s, hs⟩ := List.exists_mem_of_ne_nil _ hparts.ne_nil
    have hendless := hcapped.before hproduct ⟨s, hs, hparts.nonempty s hs⟩
    have hafter := hcapped.after hproduct
    have hsub : ∀ w ∈ nonemptyWords rests, w ∈ rests := fun w hw => (mem_nonemptyWords.1 hw).1
    refine hpair hproduct ?_ (hm hafter) fun ps ss hps hss hlonger hlonger' => ?_
    · refine (hn (hendless.capped.of_subset hsub)).optionalIf hσ (by rw [Node.mark_ofWords hrests]; rfl) ?_
      exact hendless.capped.trunk_ne_nil
    · exact longerFirst_stop hcapped (fun p hp s hs => hproduct.append_mem ((hps p).1 hp) ((hss s).1 hs))
        (fun p hp => hendless p ((hps p).1 hp)) (fun s hs => hlength s ((hss s).1 hs)) hlonger hlonger'
        (hafter.of_subset fun s hs => (hss s).1 hs)
  · intro words lone others _ hbranching hothers hcapped
    exact lists_branches hfolded hcapped hlast hbranching fun g hg =>
      (hothers g hg).2 (hcapped.of_subset (hbranching.of_group hg))

end Lists

end WordPattern
