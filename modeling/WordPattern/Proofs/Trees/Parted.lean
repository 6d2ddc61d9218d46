import Mathlib.Data.List.Chain
import WordPattern.Proofs.Trees.Shape

/-! Boundaries stand apart from each other, and none of them is optional.

This takes words in which no boundary follows another one directly, and none of which is another word without one of its
boundaries. Both are handed down to the parts of words. -/

namespace WordPattern

def Node.isBoundary : Node → Bool
  | .verbatim _ v => v.role ≠ .pattern
  | _ => false

mutual

/-- Of two nodes of a sequence that follow each other one at most is a boundary, and no boundary is optional. -/
def Node.Parted : Node → Prop
  | .leaf _ _ | .charClass _ _ => True
  | .verbatim m v => v.role ≠ .pattern → m.optional = false
  | .sequence _ children =>
    2 ≤ children.length ∧ children.IsChain (fun n n' => n.isBoundary = true → n'.isBoundary = false) ∧
      Node.PartedEach children
  | .alternate _ children => 2 ≤ children.length ∧ Node.PartedEach children

def Node.PartedEach : List Node → Prop
  | [] => True
  | n :: rest => n.Parted ∧ Node.PartedEach rest

end

def IsEdge (symbol : Char → Option Verbatim) (c : Char) : Prop := ∃ v, symbol c = some v ∧ v.role ≠ .pattern

/-- No boundary follows another one, and no word is another one without a boundary. -/
structure Edged (symbol : Char → Option Verbatim) (words : List Text) : Prop where
  apart : ∀ w ∈ words, w.IsChain fun c d => IsEdge symbol c → ¬ IsEdge symbol d
  needed : ∀ {a b : Text} {c : Char}, IsEdge symbol c → a ++ c :: b ∈ words → a ++ b ∉ words

section Words

variable {symbol : Char → Option Verbatim} {words befores afters : List Text}

theorem Edged.of_subset (h : Edged symbol words) {vs : List Text} (hsub : ∀ v ∈ vs, v ∈ words) : Edged symbol vs where
  apart v hv := h.apart v (hsub v hv)
  needed hc hlong hshort := h.needed hc (hsub _ hlong) (hsub _ hshort)

theorem Edged.before (h : Edged symbol words) (hproduct : Factoring.IsProduct words befores afters) :
    Edged symbol befores := by
  obtain ⟨s, hs⟩ := List.exists_mem_of_ne_nil _ hproduct.after_ne
  constructor
  · intro p hp
    exact (h.apart _ (hproduct.append_mem hp hs)).left_of_append
  · intro a b c hc hlong hshort
    have hlong := hproduct.append_mem hlong hs
    have hshort := hproduct.append_mem hshort hs
    rw [List.append_assoc] at hlong hshort
    exact h.needed hc hlong hshort

theorem Edged.after (h : Edged symbol words) (hproduct : Factoring.IsProduct words befores afters) :
    Edged symbol afters := by
  obtain ⟨p, hp⟩ := List.exists_mem_of_ne_nil _ hproduct.before_ne
  constructor
  · intro s hs
    exact (h.apart _ (hproduct.append_mem hp hs)).right_of_append
  · intro a b c hc hlong hshort
    have hlong := hproduct.append_mem hp hlong
    have hshort := hproduct.append_mem hp hshort
    rw [← List.append_assoc] at hlong hshort
    exact h.needed hc hlong hshort

end Words

namespace Node

variable {symbol : Char → Option Verbatim} {ignoreCase : Bool} {words : List Text} {n m : Node}

theorem partedEach_iff {ns : List Node} : PartedEach ns ↔ ∀ n ∈ ns, n.Parted := by
  induction ns with
  | nil => simp [PartedEach]
  | cons n rest ih => rw [PartedEach, ih, List.forall_mem_cons]

theorem Parted.inlined (h : n.Parted) : n.inlined ≠ [] ∧
    n.inlined.IsChain (fun n n' => n.isBoundary = true → n'.isBoundary = false) ∧ PartedEach n.inlined := by
  unfold Node.inlined
  split
  · obtain ⟨hlength, hchain, heach⟩ := h
    refine ⟨?_, hchain, heach⟩
    rintro rfl
    contradiction
  · exact ⟨List.cons_ne_nil _ _, .singleton _, h, trivial⟩

theorem isBoundary_optionalIf (n : Node) (yes : Bool) : (n.optionalIf yes).isBoundary = n.isBoundary := by
  unfold optionalIf
  split_ifs
  · cases n <;> rfl
  · rfl

theorem inlined_optionalIf_true (n : Node) : (n.optionalIf true).inlined = [n.optionalIf true] := by
  cases n <;> rfl

/-! ### Trees of words -/

/-- A flattened node is parted; where it begins or ends with a boundary so does a word. -/
structure Outlines (symbol : Char → Option Verbatim) (words : List Text) (n : Node) : Prop where
  parted : n.Parted
  head : ∀ m, n.inlined.head? = some m → m.isBoundary = true → ∃ w ∈ words, ∃ c, w.head? = some c ∧ IsEdge symbol c
  last : ∀ m, n.inlined.getLast? = some m → m.isBoundary = true →
    ∃ w ∈ words, ∃ c, w.getLast? = some c ∧ IsEdge symbol c
  whole : n.isBoundary = true → ∀ w ∈ words, ∃ c, w = [c] ∧ IsEdge symbol c

/-- What is no boundary and no sequence begins and ends with no boundary. -/
theorem outlines_of_parted (h : n.Parted) (hn : n.isBoundary = false) (hinlined : n.inlined = [n]) :
    Outlines symbol words n where
  parted := h
  head m hm hb := by
    obtain rfl : n = m := by simpa [hinlined] using hm
    rw [hn] at hb
    contradiction
  last m hm hb := by
    obtain rfl : n = m := by simpa [hinlined] using hm
    rw [hn] at hb
    contradiction
  whole hb := by
    rw [hn] at hb
    contradiction

theorem Outlines.optionalIf (h : Outlines symbol words n) {yes : Bool} (hyes : yes = true → n.isBoundary = false) :
    Outlines symbol words (n.optionalIf yes) := by
  cases yes with
  | false => exact h
  | true =>
    have hn := hyes rfl
    apply outlines_of_parted
    · cases n with
      | verbatim => exact fun hrole => absurd hn (by simp [isBoundary, hrole])
      | leaf | charClass | sequence | alternate => exact h.parted
    · rw [isBoundary_optionalIf, hn]
    · exact inlined_optionalIf_true n

/-- Two nodes one after the other, for words that are put together from those of the two. -/
theorem outlines_pair {befores afters : List Text} (hwords : Edged symbol words)
    (hmem : ∀ p ∈ befores, ∀ s ∈ afters, p ++ s ∈ words) (hbefores : Listed befores) (hafters : Listed afters)
    (hn : Outlines symbol befores n) (hm : Outlines symbol afters m) :
    Outlines symbol words (sequence .plain (n.inlined ++ m.inlined)) := by
  obtain ⟨hne, hchain, heach⟩ := hn.parted.inlined
  obtain ⟨hne', hchain', heach'⟩ := hm.parted.inlined
  obtain ⟨p₀, hp₀⟩ := List.exists_mem_of_ne_nil _ hbefores.ne_nil
  obtain ⟨s₀, hs₀⟩ := List.exists_mem_of_ne_nil _ hafters.ne_nil
  refine ⟨⟨?_, hchain.append hchain' ?_, ?_⟩, ?_, ?_, fun h => absurd h Bool.false_ne_true⟩
  · have hpos := List.length_pos_iff.2 hne
    have hpos' := List.length_pos_iff.2 hne'
    rw [List.length_append]
    omega
  · -- a boundary at the end of the one and one at the start of the other would meet in a word
    intro x hx y hy hxb
    by_contra hyb
    obtain ⟨p, hp, c, hc, hcedge⟩ := hn.last x hx hxb
    obtain ⟨s, hs, d, hd, hdedge⟩ := hm.head y hy (by simpa using hyb)
    have hjoin := (hwords.apart _ (hmem p hp s hs))
    rw [List.isChain_append] at hjoin
    exact hjoin.2.2 c hc d hd hcedge hdedge
  · rw [partedEach_iff] at heach heach' ⊢
    intro x hx
    exact (List.mem_append.1 hx).elim (heach x) (heach' x)
  · intro x hx hxb
    change (n.inlined ++ m.inlined).head? = some x at hx
    rw [List.head?_append_of_ne_nil _ hne] at hx
    obtain ⟨p, hp, c, hc, hedge⟩ := hn.head x hx hxb
    refine ⟨p ++ s₀, hmem p hp s₀ hs₀, c, ?_, hedge⟩
    rw [List.head?_append_of_ne_nil _ (hbefores.nonempty p hp), hc]
  · intro x hx hxb
    change (n.inlined ++ m.inlined).getLast? = some x at hx
    rw [List.getLast?_append_of_ne_nil _ hne'] at hx
    obtain ⟨s, hs, c, hc, hedge⟩ := hm.last x hx hxb
    refine ⟨p₀ ++ s, hmem p₀ hp₀ s hs, c, ?_, hedge⟩
    rw [List.getLast?_append_of_ne_nil _ (hafters.nonempty s hs), hc]

theorem isEdge_of_isBoundary {c : Char} (h : (ofChar symbol c).isBoundary = true) : IsEdge symbol c := by
  unfold ofChar at h
  split at h
  · rename_i v hv
    exact ⟨v, hv, by simpa [isBoundary, ofVerbatim] using h⟩
  · contradiction

theorem parted_ofChar (c : Char) : (ofChar symbol c).Parted := by
  unfold ofChar
  split
  · exact fun _ => rfl
  · trivial

theorem inlined_ofChar (c : Char) : (ofChar symbol c).flatten = ofChar symbol c ∧
    (ofChar symbol c).inlined = [ofChar symbol c] := by
  unfold ofChar
  split <;> exact ⟨rfl, rfl⟩

theorem exists_isEdge_of_map {x : Option Char} {m : Node} (hx : x.map (ofChar symbol) = some m)
    (hm : m.isBoundary = true) : ∃ c, x = some c ∧ IsEdge symbol c := by
  obtain ⟨c, rfl, rfl⟩ := Option.map_eq_some_iff.1 hx
  exact ⟨c, rfl, isEdge_of_isBoundary hm⟩

theorem outlines_word {w : Text} (hw : Edged symbol [w]) (hne : w ≠ []) :
    Outlines symbol [w] (ofSequence (w.map (ofChar symbol))).flatten := by
  have hmem := List.mem_singleton_self w
  have hhead : ∀ m, (w.map (ofChar symbol)).head? = some m → m.isBoundary = true →
      ∃ v ∈ [w], ∃ c, v.head? = some c ∧ IsEdge symbol c :=
    fun m hm hb => ⟨w, hmem, exists_isEdge_of_map (List.head?_map.symm.trans hm) hb⟩
  have hlast : ∀ m, (w.map (ofChar symbol)).getLast? = some m → m.isBoundary = true →
      ∃ v ∈ [w], ∃ c, v.getLast? = some c ∧ IsEdge symbol c :=
    fun m hm hb => ⟨w, hmem, exists_isEdge_of_map (List.getLast?_map.symm.trans hm) hb⟩
  match w with
  | [] => contradiction
  | [c] =>
    obtain ⟨hflat, hinlined⟩ := @inlined_ofChar symbol c
    change Outlines symbol [[c]] (ofChar symbol c).flatten
    rw [hflat]
    refine ⟨parted_ofChar c, by rwa [hinlined], by rwa [hinlined], fun hb v hv => ?_⟩
    exact ⟨c, List.mem_singleton.1 hv, isEdge_of_isBoundary hb⟩
  | c :: d :: w =>
    have hseq : (ofSequence ((c :: d :: w).map (ofChar symbol))).flatten =
        sequence .plain ((c :: d :: w).map (ofChar symbol)) :=
      congrArg (sequence .plain) (flattenInto_word (c :: d :: w))
    rw [hseq]
    refine ⟨⟨by simp, ?_, ?_⟩, hhead, hlast, fun h => absurd h Bool.false_ne_true⟩
    · refine List.isChain_map_of_isChain _ (fun a b hab ha => ?_) (hw.apart _ hmem)
      by_contra hb
      exact hab (isEdge_of_isBoundary ha) (isEdge_of_isBoundary (by simpa using hb))
    · rw [partedEach_iff]
      intro x hx
      obtain ⟨c', -, rfl⟩ := List.mem_map.1 hx
      exact parted_ofChar c'

theorem flattenEach_eq (ns : List Node) : flattenEach ns = ns.map flatten := by
  induction ns with
  | nil => rfl
  | cons n rest ih => rw [flattenEach, ih, List.map_cons]

/-- What is left out in some words is no boundary. -/
theorem isBoundary_eq_false {rests : List Text} (hn : Outlines symbol (nonemptyWords rests) n)
    (hrests : Listed (nonemptyWords rests)) (hwords : ∀ c, IsEdge symbol c → [c] ∈ rests → [] ∉ rests)
    (hempty : rests.any (·.isEmpty) = true) : n.isBoundary = false := by
  by_contra hb
  obtain ⟨w, hw⟩ := List.exists_mem_of_ne_nil _ hrests.ne_nil
  obtain ⟨c, rfl, hedge⟩ := hn.whole (by simpa using hb) w hw
  obtain ⟨r, hr, hnil⟩ := List.any_eq_true.1 hempty
  rw [List.isEmpty_iff] at hnil
  exact hwords c hedge (mem_nonemptyWords.1 hw).1 (hnil ▸ hr)

/-- What outlines some of the words outlines them all, if it is no boundary or they are all there. -/
theorem Outlines.of_subset {vs : List Text} (h : Outlines symbol vs n) (hsub : ∀ w ∈ vs, w ∈ words)
    (hall : n.isBoundary = true → ∀ w ∈ words, w ∈ vs) : Outlines symbol words n where
  parted := h.parted
  head m hm hb := by
    obtain ⟨w, hw, hc⟩ := h.head m hm hb
    exact ⟨w, hsub w hw, hc⟩
  last m hm hb := by
    obtain ⟨w, hw, hc⟩ := h.last m hm hb
    exact ⟨w, hsub w hw, hc⟩
  whole hb w hw := h.whole hb w (hall hb w hw)

/-- Alternatives are no boundary; a single branch stands for itself. -/
theorem outlines_ofBranches {ns : List Node} (hne : ns ≠ []) (hparted : ∀ n ∈ ns, n.flatten.Parted)
    (hone : ∀ n, ns = [n] → Outlines symbol words n.flatten) : Outlines symbol words (ofBranches ns).flatten := by
  unfold ofBranches
  split
  · exact hone _ rfl
  · rename_i hmany
    refine outlines_of_parted ⟨?_, ?_⟩ rfl rfl
    · rw [flattenEach_eq, List.length_map]
      have hpos := List.length_pos_iff.2 hne
      by_contra hshort
      obtain ⟨n, hn⟩ := List.length_eq_one_iff.1 (show ns.length = 1 by omega)
      exact hmany n hn
    · rw [flattenEach_eq, partedEach_iff]
      intro m hm
      obtain ⟨n, hn, rfl⟩ := List.mem_map.1 hm
      exact hparted n hn

/-- Boundaries stand apart in the tree of a list of words. -/
theorem outlines_ofWords (h : Listed words) (hwords : Edged symbol words) :
    Outlines symbol words (ofWords symbol ignoreCase words).flatten := by
  refine ofWords_induction (P := fun words n => Edged symbol words → Outlines symbol words n.flatten) ?_ ?_ ?_ ?_
    words h hwords
  · exact fun w hne hw => outlines_word hw hne
  · intro words parts rests _ _ hproduct _ _ hparts hrests hn hm hwords
    have hpart := hn (hwords.before hproduct)
    have hafter := hwords.after hproduct
    have hrest := hm (hafter.of_subset fun w hw => (mem_nonemptyWords.1 hw).1)
    change Outlines symbol words (sequence .plain (flattenInto [_, _]))
    rw [flattenInto_pair, flatten_optionalIf]
    refine outlines_pair hwords (fun p hp s hs => hproduct.append_mem hp (mem_nonemptyWords.1 hs).1) hparts hrests hpart
      (hrest.optionalIf fun hyes => isBoundary_eq_false hrest hrests (fun c hc => ?_) hyes)
    exact @Edged.needed _ _ hafter [] [] c hc
  · intro words rests parts _ _ hproduct _ _ hparts hrests hn hm hwords
    have hpart := hm (hwords.after hproduct)
    have hbefore := hwords.before hproduct
    have hrest := hn (hbefore.of_subset fun w hw => (mem_nonemptyWords.1 hw).1)
    change Outlines symbol words (sequence .plain (flattenInto [_, _]))
    rw [flattenInto_pair, flatten_optionalIf]
    refine outlines_pair hwords (fun p hp s hs => hproduct.append_mem (mem_nonemptyWords.1 hp).1 hs) hrests hparts
      (hrest.optionalIf fun hyes => isBoundary_eq_false hrest hrests (fun c hc => ?_) hyes) hpart
    exact @Edged.needed _ _ hbefore [] [] c hc
  · intro words lone others hlisted hbranching hothers hwords
    have hgroup : ∀ g ∈ others, Outlines symbol g (ofWords symbol ignoreCase g).flatten :=
      fun g hg => (hothers g hg).2 (hwords.of_subset (hbranching.of_group hg))
    refine outlines_ofBranches (branches_ne_nil hbranching hlisted.ne_nil _) (fun n hn => ?_) fun n hone => ?_
    · rcases mem_branches.1 hn with ⟨-, rfl⟩ | ⟨g, hg, rfl⟩
      · trivial
      · exact (hgroup g hg).parted
    · rcases List.append_eq_singleton_iff.1 hone with ⟨hlone, hone⟩ | ⟨hlone, -⟩
      · -- a single group has all words
        obtain ⟨g, rfl, rfl⟩ := List.map_eq_singleton_iff.1 hone
        have hg := List.mem_singleton_self g
        refine (hgroup g hg).of_subset (hbranching.of_group hg) fun _ w hw => ?_
        rcases (hbranching.mem w).1 hw with ⟨c, hc, -⟩ | ⟨g', hg', hw⟩
        · rw [classOf, if_neg (List.ne_nil_of_mem hc)] at hlone
          contradiction
        · rwa [List.mem_singleton.1 hg'] at hw
      · obtain ⟨-, rfl⟩ := mem_classOf.1 (hlone ▸ List.mem_singleton_self n)
        exact outlines_of_parted trivial rfl rfl

/-! ### Places -/

theorem isBoundary_place (n : Node) (p : Position) : (n.place p).isBoundary = n.isBoundary := by
  cases n <;> rfl

theorem isChain_placeItems {ns : List Node} (h : ns.IsChain fun n n' => n.isBoundary = true → n'.isBoundary = false)
    (first : Bool) : (placeItems first ns).IsChain fun n n' => n.isBoundary = true → n'.isBoundary = false := by
  have hmap : (ns.map isBoundary).IsChain fun b b' => b = true → b' = false := (List.isChain_map isBoundary).2 h
  rw [← map_placeItems isBoundary_place ns first] at hmap
  exact (List.isChain_map isBoundary).1 hmap

mutual

theorem Parted.place : {n : Node} → n.Parted → (p : Position) → (n.place p).Parted
  | .leaf _ _, h, _ => h
  | .charClass _ _, h, _ => h
  | .verbatim _ _, h, _ => h
  | .sequence _ children, h, _ =>
    ⟨(length_placeItems children true).symm ▸ h.1, isChain_placeItems h.2.1 true, PartedEach.placeItems h.2.2 true⟩
  | .alternate _ children, h, p =>
    ⟨(length_placeEach (branchPosition p) children).symm ▸ h.1, PartedEach.placeEach h.2 (branchPosition p)⟩

theorem PartedEach.placeItems : {ns : List Node} → PartedEach ns → (first : Bool) → PartedEach (placeItems first ns)
  | [], _, _ => trivial
  | [_], h, _ => ⟨Parted.place h.1 _, trivial⟩
  | _ :: _ :: _, h, _ => ⟨Parted.place h.1 _, PartedEach.placeItems h.2 false⟩

theorem PartedEach.placeEach : {ns : List Node} → PartedEach ns → (p : Position) → PartedEach (placeEach p ns)
  | [], _, _ => trivial
  | _ :: _, h, p => ⟨Parted.place h.1 p, PartedEach.placeEach h.2 p⟩

end

/-- In the tree of a pattern boundaries stand apart, and the tree itself is none if no word is one. -/
theorem parted_build (h : Listed words) (hwords : Edged symbol words) : (build symbol ignoreCase words).Parted ∧
    ((build symbol ignoreCase words).isBoundary = true → ∀ w ∈ words, ∃ c, w = [c] ∧ IsEdge symbol c) := by
  obtain ⟨hparted, -, -, hwhole⟩ := @outlines_ofWords symbol ignoreCase words h hwords
  rw [build, isBoundary_place]
  exact ⟨hparted.place .root, hwhole⟩

end Node

end WordPattern
