import WordPattern.Proofs.Trees.Induction
import WordPattern.Proofs.Trees.Members

/-! The strings of letters that a tree derives.

A letter is a character or a pattern taken as it is. A derivation takes one member of each class and one branch of each
choice, and every optional part with or without. The tree of a list of words derives the words, and if they are in order
and only boundaries are symbols, each of them once. -/

namespace WordPattern

/-- What stands at one place of a word. -/
inductive Letter where
  | char (c : Char)
  | special (v : Verbatim)
  deriving DecidableEq, Repr

def Letter.ofChar (symbol : Char → Option Verbatim) (c : Char) : Letter := (symbol c).elim (.char c) .special

/-- Symbols can be told apart by what is written for them. -/
theorem Letter.injective_ofChar {symbol : Char → Option Verbatim}
    (h : ∀ c d v, symbol c = some v → symbol d = some v → c = d) : Function.Injective (Letter.ofChar symbol) := by
  intro c d heq
  unfold Letter.ofChar at heq
  cases hc : symbol c with
  | none =>
    cases hd : symbol d with
    | none => simpa [hc, hd] using heq
    | some v => simp [hc, hd] at heq
  | some v =>
    cases hd : symbol d with
    | none => simp [hc, hd] at heq
    | some v' =>
      obtain rfl : v = v' := by simpa [hc, hd] using heq
      exact h c d v hc hd

def spell (symbol : Char → Option Verbatim) (w : Text) : List Letter := w.map (.ofChar symbol)

namespace Node

/-- What may be left out can also stand for nothing. -/
def perhaps (optional : Bool) (ds : List (List Letter)) : List (List Letter) := if optional then ds ++ [[]] else ds

mutual

/-- What a node derives, listed once for every derivation. -/
def derivations : Node → List (List Letter)
  | leaf m text => perhaps m.optional [text.map .char]
  | charClass m cls => perhaps m.optional (cls.members.map fun c => [.char c])
  | verbatim m v => perhaps m.optional [[.special v]]
  | sequence m children => perhaps m.optional (itemDerivations children)
  | alternate m children => perhaps m.optional (branchDerivations children)

def itemDerivations : List Node → List (List Letter)
  | [] => [[]]
  | n :: rest => n.derivations.flatMap fun x => (itemDerivations rest).map (x ++ ·)

def branchDerivations : List Node → List (List Letter)
  | [] => []
  | n :: rest => n.derivations ++ branchDerivations rest

end

theorem itemDerivations_singleton (n : Node) : itemDerivations [n] = n.derivations := by
  simp [itemDerivations]

theorem branchDerivations_singleton (n : Node) : branchDerivations [n] = n.derivations :=
  List.append_nil _

theorem itemDerivations_append (ns ms : List Node) : itemDerivations (ns ++ ms) =
    (itemDerivations ns).flatMap fun x => (itemDerivations ms).map (x ++ ·) := by
  induction ns with
  | nil => simp [itemDerivations]
  | cons n ns ih =>
    rw [List.cons_append, itemDerivations, itemDerivations, ih]
    simp only [List.map_flatMap, List.map_map, List.flatMap_assoc, List.flatMap_map, Function.comp_def,
      List.append_assoc]

theorem derivations_ofSequence (ns : List Node) : (ofSequence ns).derivations = itemDerivations ns := by
  unfold ofSequence
  split
  · exact (itemDerivations_singleton _).symm
  · rfl

theorem derivations_ofBranches (ns : List Node) : (ofBranches ns).derivations = branchDerivations ns := by
  unfold ofBranches
  split
  · exact (branchDerivations_singleton _).symm
  · rfl

theorem mem_branchDerivations {ns : List Node} {x : List Letter} :
    x ∈ branchDerivations ns ↔ ∃ n ∈ ns, x ∈ n.derivations := by
  induction ns with
  | nil => simp [branchDerivations]
  | cons n ns ih => rw [branchDerivations, List.mem_append, ih, List.exists_mem_cons_iff]

theorem derivations_optionalIf {n : Node} (h : n.mark.optional = false) (yes : Bool) :
    (n.optionalIf yes).derivations = perhaps yes n.derivations := by
  cases yes with
  | false => rfl
  | true => cases n <;> simp_all [optionalIf, withMark, mark, derivations, perhaps]

theorem mem_derivations_optionalIf {n : Node} {yes : Bool} {x : List Letter} :
    x ∈ (n.optionalIf yes).derivations ↔ x ∈ n.derivations ∨ yes = true ∧ x = [] := by
  have hperhaps : ∀ {optional : Bool} {ds : List (List Letter)},
      x ∈ perhaps optional ds ↔ x ∈ ds ∨ optional = true ∧ x = [] := by
    intro optional ds
    cases optional <;> simp [perhaps]
  cases yes with
  | false => simp [optionalIf]
  | true => cases n <;> simp only [optionalIf, if_true, withMark, derivations, hperhaps, mark] <;> tauto

/-! ### Flattening and places -/

theorem itemDerivations_inlined (n : Node) : itemDerivations n.inlined = n.derivations := by
  unfold inlined
  split
  · rfl
  · exact itemDerivations_singleton _

mutual

theorem derivations_flatten : (n : Node) → n.flatten.derivations = n.derivations
  | .leaf _ _ | .charClass _ _ | .verbatim _ _ => rfl
  | .sequence m children => by rw [flatten, derivations, derivations, itemDerivations_flattenInto children]
  | .alternate m children => by rw [flatten, derivations, derivations, branchDerivations_flattenEach children]

theorem itemDerivations_flattenInto : (ns : List Node) → itemDerivations (flattenInto ns) = itemDerivations ns
  | [] => rfl
  | n :: rest => by
    rw [flattenInto, itemDerivations_append, itemDerivations_inlined, derivations_flatten n,
      itemDerivations_flattenInto rest, itemDerivations]

theorem branchDerivations_flattenEach : (ns : List Node) → branchDerivations (flattenEach ns) = branchDerivations ns
  | [] => rfl
  | n :: rest => by
    rw [flattenEach, branchDerivations, derivations_flatten n, branchDerivations_flattenEach rest, branchDerivations]

end

mutual

theorem derivations_place : (n : Node) → ∀ p : Position, (n.place p).derivations = n.derivations
  | .leaf _ _, _ | .charClass _ _, _ | .verbatim _ _, _ => rfl
  | .sequence m children, p => by rw [place, derivations, derivations, itemDerivations_placeItems children]
  | .alternate m children, p => by rw [place, derivations, derivations, branchDerivations_placeEach children]

theorem itemDerivations_placeItems : (ns : List Node) → ∀ first : Bool,
    itemDerivations (placeItems first ns) = itemDerivations ns
  | [], _ => rfl
  | [n], first => by
    rw [placeItems, itemDerivations_singleton, itemDerivations_singleton, derivations_place n]
  | n :: m :: rest, first => by
    have hplaced : placeItems first (n :: m :: rest) =
        n.place (if first then .first else .middle) :: placeItems false (m :: rest) := rfl
    rw [hplaced, itemDerivations, derivations_place n, itemDerivations_placeItems (m :: rest) false]
    rfl

theorem branchDerivations_placeEach : (ns : List Node) → ∀ p : Position,
    branchDerivations (placeEach p ns) = branchDerivations ns
  | [], _ => rfl
  | n :: rest, p => by
    rw [placeEach, branchDerivations, derivations_place n, branchDerivations_placeEach rest, branchDerivations]

end

theorem derivations_build (symbol : Char → Option Verbatim) (ignoreCase : Bool) (words : List Text) :
    (build symbol ignoreCase words).derivations = (ofWords symbol ignoreCase words).derivations := by
  rw [build, derivations_place, derivations_flatten]

/-! ### Words -/

section Words

variable {symbol : Char → Option Verbatim} {words ps ss : List Text} {n m : Node}

/-- A node derives the words and nothing else. -/
def Spells (symbol : Char → Option Verbatim) (words : List Text) (n : Node) : Prop :=
  ∀ x, x ∈ n.derivations ↔ ∃ w ∈ words, x = spell symbol w

theorem derivations_ofChar (c : Char) : (ofChar symbol c).derivations = [[.ofChar symbol c]] := by
  unfold ofChar
  cases h : symbol c <;> simp [Letter.ofChar, h, ofVerbatim, ofText, derivations, perhaps, Mark.plain]

theorem derivations_word (w : Text) : (ofSequence (w.map (ofChar symbol))).derivations = [spell symbol w] := by
  rw [derivations_ofSequence]
  induction w with
  | nil => rfl
  | cons c w ih => simp [itemDerivations, derivations_ofChar, ih, spell]

theorem spells_word (w : Text) : Spells symbol [w] (ofSequence (w.map (ofChar symbol))) := fun x => by
  rw [derivations_word]
  simp

theorem spells_product (hn : Spells symbol ps n) (hm : Spells symbol ss m)
    (hwords : ∀ w, w ∈ words ↔ ∃ p ∈ ps, ∃ s ∈ ss, w = p ++ s) : Spells symbol words (ofSequence [n, m]) := by
  intro x
  rw [derivations_ofSequence, itemDerivations, itemDerivations_singleton]
  simp only [List.mem_flatMap, List.mem_map, hn _, hm _, hwords]
  constructor
  · rintro ⟨_, ⟨p, hp, rfl⟩, _, ⟨s, hs, rfl⟩, rfl⟩
    exact ⟨p ++ s, ⟨p, hp, s, hs, rfl⟩, (List.map_append ..).symm⟩
  · rintro ⟨_, ⟨p, hp, s, hs, rfl⟩, rfl⟩
    exact ⟨_, ⟨p, hp, rfl⟩, _, ⟨s, hs, rfl⟩, (List.map_append ..).symm⟩

/-- The empty word may be left out. -/
theorem spells_optionalIf (h : Spells symbol (nonemptyWords words) n) :
    Spells symbol words (n.optionalIf (words.any (·.isEmpty))) := by
  intro x
  rw [mem_derivations_optionalIf, h x]
  simp only [mem_nonemptyWords, List.any_eq_true, List.isEmpty_iff, exists_eq_right]
  constructor
  · rintro (⟨w, ⟨hw, -⟩, rfl⟩ | ⟨hnil, rfl⟩)
    · exact ⟨w, hw, rfl⟩
    · exact ⟨[], hnil, rfl⟩
  · rintro ⟨w, hw, rfl⟩
    by_cases hnil : w = []
    · exact .inr ⟨hnil ▸ hw, by rw [hnil]; rfl⟩
    · exact .inl ⟨w, ⟨hw, hnil⟩, rfl⟩

theorem mem_derivations_ofClass {chars : List Char} (hlit : ∀ c ∈ chars, symbol c = none) {x : List Letter} :
    x ∈ (ofClass (.ofChars chars false)).derivations ↔ ∃ c ∈ chars, x = spell symbol [c] := by
  have hspell : ∀ c ∈ chars, spell symbol [c] = [.char c] := fun c hc => by
    simp [spell, Letter.ofChar, hlit c hc]
  change x ∈ (CharClass.ofChars chars false).members.map _ ↔ _
  simp only [List.mem_map, CharClass.mem_ofChars]
  constructor
  · rintro ⟨c, hc, rfl⟩
    exact ⟨c, hc, (hspell c hc).symm⟩
  · rintro ⟨c, hc, rfl⟩
    exact ⟨c, hc, (hspell c hc).symm⟩

theorem spells_ofGroups {groups : List (List Text)} (h : ∀ g ∈ groups, Spells symbol g (ofWords symbol false g)) :
    Spells symbol groups.flatten (ofGroups symbol false groups) := by
  intro x
  have hgroups : ∀ gs : List (List Text), (∀ g ∈ gs, g ∈ groups) →
      (x ∈ branchDerivations (gs.map (ofWords symbol false)) ↔ ∃ g ∈ gs, ∃ w ∈ g, x = spell symbol w) := by
    intro gs hgs
    simp only [mem_branchDerivations, List.mem_map, exists_exists_and_eq_and]
    exact exists_congr fun g => and_congr_right fun hg => h g (hgs g hg) x
  have hflatten : (∃ w ∈ groups.flatten, x = spell symbol w) ↔ ∃ g ∈ groups, ∃ w ∈ g, x = spell symbol w := by
    simp only [List.mem_flatten]
    constructor
    · rintro ⟨w, ⟨g, hg, hw⟩, hx⟩
      exact ⟨g, hg, w, hw, hx⟩
    · rintro ⟨g, hg, w, hw, hx⟩
      exact ⟨w, ⟨g, hg, hw⟩, hx⟩
  rw [hflatten]
  unfold ofGroups
  split_ifs
  · rw [derivations_ofBranches, branchDerivations, List.mem_append, mem_derivations_ofClass fun c hc => (mem_loneChars.1 hc).2,
      hgroups _ fun g hg => (List.mem_filter.1 hg).1]
    constructor
    · rintro (⟨c, hc, hx⟩ | ⟨g, hg, hx⟩)
      · exact ⟨[[c]], (mem_loneChars.1 hc).1, [c], List.mem_singleton_self _, hx⟩
      · exact ⟨g, (List.mem_filter.1 hg).1, hx⟩
    · rintro ⟨g, hg, w, hw, hx⟩
      cases hlit : isSingleLiteral symbol g with
      | false => exact .inr ⟨g, List.mem_filter.2 ⟨hg, by rw [hlit]; rfl⟩, w, hw, hx⟩
      | true =>
        obtain ⟨c, rfl, hc⟩ := isSingleLiteral_iff.1 hlit
        exact .inl ⟨c, mem_loneChars.2 ⟨hg, hc⟩, by rw [hx, List.mem_singleton.1 hw]⟩
  · rw [derivations_ofBranches, hgroups groups fun _ => id]

/-- The tree of any list of words with at most one empty word derives the words. The induction is on their weight, as the
words need not be in order. -/
theorem spells_ofWords {words : List Text} (hempty : words.count [] ≤ 1) :
    Spells symbol words (ofWords symbol false words) := by
  induction hk : weight words using Nat.strong_induction_on generalizing words with
  | _ k ih =>
    subst hk
    have hnonempty : ∀ ws : List Text, (nonemptyWords ws).count [] ≤ 1 := fun ws => by
      rw [count_nil_nonemptyWords]
      exact Nat.zero_le 1
    have hparts : ∀ {side f}, Factoring.best? side words = some f → f.parts.count [] ≤ 1 := fun hf => by
      rw [count_nil_parts hf]
      exact Nat.zero_le 1
    match words with
    | [] =>
      intro x
      rw [ofWords]
      simp [nothing, derivations, branchDerivations, perhaps, Mark.plain]
    | [w] =>
      rw [ofWords]
      exact spells_word w
    | v :: w :: rest =>
      generalize hwords : v :: w :: rest = words at *
      have htwo : 2 ≤ words.length := by simp [← hwords]
      rw [ofWords_many htwo]
      split_ifs with hlong hnil
      · -- single characters
        rw [ofChars_eq]
        have hchars := eq_map_of_length_one hlong
        generalize words.flatten = chars at hchars
        have hflatten : (chars.map fun c => [[c]]).flatten = words := by
          rw [hchars, ← List.flatMap_def, List.map_eq_flatMap]
        rw [← hflatten]
        refine spells_ofGroups fun g hg => ?_
        obtain ⟨c, -, rfl⟩ := List.mem_map.1 hg
        rw [ofWords]
        exact spells_word [c]
      · exact absurd hnil (exists_ne_nil htwo hempty)
      · split
        · rename_i f hf
          have hside := side_of_best? hf
          have hmem := Factoring.mem_words_of_best? hf
          have hparts := hparts hf
          obtain ⟨hlt, hlt'⟩ := weight_sides_lt hf
          simp only [Factoring.prefixes, Factoring.suffixes, hside, if_true] at hmem hlt hlt' ⊢
          exact spells_product (ih _ hlt hparts rfl) (spells_optionalIf
            (ih _ (Nat.lt_of_le_of_lt (weight_nonemptyWords_le _) hlt') (hnonempty _) rfl)) hmem
        · rename_i f _ hf
          have hside := side_of_best? hf
          have hmem := Factoring.mem_words_of_best? hf
          have hparts := hparts hf
          obtain ⟨hlt, hlt'⟩ := weight_sides_lt hf
          simp only [Factoring.prefixes, Factoring.suffixes, hside, reduceCtorEq, if_false] at hmem hlt hlt' ⊢
          exact spells_product (spells_optionalIf
            (ih _ (Nat.lt_of_le_of_lt (weight_nonemptyWords_le _) hlt) (hnonempty _) rfl)) (ih _ hlt' hparts rfl) hmem
        · rename_i hstart hstop
          have hgroups : Spells symbol (headGroups words).flatten (ofGroups symbol false (headGroups words)) := by
            refine spells_ofGroups fun g hg => ih _ (weight_headGroup_lt htwo hnil hlong hstart hg) ?_ rfl
            exact (count_nil_of_mem_headGroups hg).trans hempty
          rwa [flatten_headGroups] at hgroups

theorem spells_of_listed (h : Listed words) : Spells symbol words (ofWords symbol false words) := by
  refine spells_ofWords ?_
  rw [List.count_eq_zero_of_not_mem fun hnil => h.nonempty [] hnil rfl]
  exact Nat.zero_le 1

theorem Spells.nil_notMem (h : Spells symbol words n) (hwords : ∀ w ∈ words, w ≠ []) : [] ∉ n.derivations := by
  intro hmem
  obtain ⟨w, hw, heq⟩ := (h []).1 hmem
  exact hwords w hw (List.map_eq_nil_iff.1 heq.symm)

end Words

/-! ### Words that are spelled differently -/

section Nodup

variable {symbol : Char → Option Verbatim} {words : List Text}

theorem branchDerivations_eq_flatMap (ns : List Node) : branchDerivations ns = ns.flatMap derivations := by
  induction ns with
  | nil => rfl
  | cons n ns ih => rw [branchDerivations, ih, List.flatMap_cons]

theorem nodup_derivations_ofClass (chars : List Char) : (ofClass (.ofChars chars false)).derivations.Nodup := by
  have hmembers : (CharClass.ofChars chars false).members.Nodup :=
    (CharClass.perm_members_ofChars chars).nodup_iff.2 ((pairwise_ascending chars).imp fun hlt => ne_of_irrefl hlt)
  exact hmembers.map fun c d h => by simpa using h

theorem nodup_perhaps {ds : List (List Letter)} (h : ds.Nodup) (hnil : [] ∉ ds) (yes : Bool) :
    (perhaps yes ds).Nodup := by
  unfold perhaps
  split_ifs
  · exact h.append (List.nodup_singleton _) (by simpa using hnil)
  · exact h

/-- One after the other, if from the whole it can be told where the first part ends. -/
theorem nodup_pair {n m : Node} (hn : n.derivations.Nodup) (hm : m.derivations.Nodup)
    (h : ∀ x ∈ n.derivations, ∀ x' ∈ n.derivations, ∀ y ∈ m.derivations, ∀ y' ∈ m.derivations,
      x ++ y = x' ++ y' → x = x') : (ofSequence [n, m]).derivations.Nodup := by
  rw [derivations_ofSequence, itemDerivations, itemDerivations_singleton, List.nodup_flatMap]
  refine ⟨fun x _ => hm.map fun y y' heq => List.append_cancel_left heq, ?_⟩
  refine hn.imp_of_mem fun {x x'} hx hx' hne z hz hz' => hne ?_
  obtain ⟨y, hy, rfl⟩ := List.mem_map.1 hz
  obtain ⟨y', hy', heq⟩ := List.mem_map.1 hz'
  exact h x hx x' hx' y hy y' hy' heq.symm

/-- Of words in order that are spelled differently each has one derivation. -/
theorem nodup_derivations_ofWords (hinj : Function.Injective (Letter.ofChar symbol)) (h : Listed words) :
    (ofWords symbol false words).derivations.Nodup := by
  have hspell : Function.Injective (spell symbol) := List.map_injective_iff.2 hinj
  have hnil : ∀ {ws}, Listed ws → [] ∉ (ofWords symbol false ws).derivations := fun hws =>
    (spells_of_listed hws).nil_notMem hws.nonempty
  have hmark : ∀ {ws}, Listed ws → (ofWords symbol false ws).mark.optional = false := fun hws => by
    rw [mark_ofWords hws]
    rfl
  have hlength : ∀ {ws k}, Listed ws → (∀ w ∈ ws, w.length = k) →
      ∀ x ∈ (ofWords symbol false ws).derivations, x.length = k := fun hws hk x hx => by
    obtain ⟨w, hw, rfl⟩ := (spells_of_listed hws x).1 hx
    rw [spell, List.length_map, hk w hw]
  refine ofWords_induction (P := fun _ n => n.derivations.Nodup) ?_ ?_ ?_ ?_ words h
  · intro w _
    rw [derivations_word]
    exact List.nodup_singleton _
  · intro words parts rests k _ _ _ hk hparts hrests hn hm
    refine nodup_pair hn ?_ fun x hx x' hx' y _ y' _ heq => ?_
    · rw [derivations_optionalIf (hmark hrests)]
      exact nodup_perhaps hm (hnil hrests) _
    · exact List.append_inj_left heq ((hlength hparts hk x hx).trans (hlength hparts hk x' hx').symm)
  · intro words rests parts k _ _ _ hk hparts hrests hn hm
    refine nodup_pair ?_ hm fun x _ x' _ y hy y' hy' heq => ?_
    · rw [derivations_optionalIf (hmark hrests)]
      exact nodup_perhaps hn (hnil hrests) _
    · exact List.append_inj_left' heq ((hlength hparts hk y hy).trans (hlength hparts hk y' hy').symm)
  · intro words lone others _ hbranching hothers
    have hdisjoint : ∀ {v w : Text}, v.head? ≠ w.head? → spell symbol v ≠ spell symbol w := fun hne heq =>
      hne (congrArg List.head? (hspell heq))
    rw [derivations_ofBranches, branchDerivations_eq_flatMap, List.flatMap_append]
    refine List.Nodup.append ?_ ?_ ?_
    · unfold classOf
      split_ifs
      · exact List.nodup_nil
      · rw [List.flatMap_singleton]
        exact nodup_derivations_ofClass lone
    · rw [List.flatMap_map, List.nodup_flatMap]
      refine ⟨fun g hg => (hothers g hg).2, hbranching.rising.imp_of_mem fun {g g'} hg hg' hbefore x hx hx' => ?_⟩
      obtain ⟨v, hv, rfl⟩ := (spells_of_listed (hothers g hg).1 x).1 hx
      obtain ⟨w, hw, heq⟩ := (spells_of_listed (hothers g' hg').1 _).1 hx'
      exact hdisjoint (hbefore v hv w hw).head?_ne heq
    · intro x hx hx'
      obtain ⟨_, hclass, hx⟩ := List.mem_flatMap.1 hx
      obtain ⟨-, rfl⟩ := mem_classOf.1 hclass
      obtain ⟨c, hc, rfl⟩ := (mem_derivations_ofClass hbranching.literal).1 hx
      obtain ⟨_, hn, hx⟩ := List.mem_flatMap.1 hx'
      obtain ⟨g, hg, rfl⟩ := List.mem_map.1 hn
      obtain ⟨w, hw, heq⟩ := (spells_of_listed (hothers g hg).1 _).1 hx
      exact hdisjoint (v := [c]) (hbranching.apart c hc g hg w hw).symm heq

end Nodup

end Node

end WordPattern
