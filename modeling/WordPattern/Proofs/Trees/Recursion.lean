import Mathlib.Logic.Relation
import WordPattern.Proofs.Trees.Derivations

/-! The recursion that takes a list of words apart comes to an end.

Each round of it divides a list and asks for the trees of the parts. If a list has one empty word at most, so have its
parts, and all of them weigh less. Several empty words alone would be their own part. -/

namespace WordPattern

/-- What a round of the recursion makes of a list of words. -/
inductive Division where
  | nothing
  | word (w : Text)
  /-- Single characters. -/
  | chars (cs : List Char)
  /-- Every prefix with every suffix; where the empty word has been taken out, the side is optional. -/
  | product (prefixes suffixes : List Text) (optionalPrefix optionalSuffix : Bool)
  /-- Characters that stand together, and groups that begin alike. -/
  | branches (lone : List Char) (groups : List (List Text))

namespace Division

def ofGroups (symbol : Char → Option Verbatim) (groups : List (List Text)) : Division :=
  if 1 < (groups.filter (Node.isSingleLiteral symbol)).length then
    branches (Node.loneChars symbol groups) (groups.filter (!Node.isSingleLiteral symbol ·))
  else branches [] groups

def ofWords (symbol : Char → Option Verbatim) (words : List Text) : Division :=
  match words with
  | [] => nothing
  | [w] => word w
  | words =>
    if ∀ w ∈ words, w.length = 1 then chars words.flatten
    else
      match Factoring.best? .start words, Factoring.best? .stop words with
      | some f, _ => product f.prefixes (nonemptyWords f.suffixes) false (f.suffixes.any (·.isEmpty))
      | none, some f => product (nonemptyWords f.prefixes) f.suffixes (f.prefixes.any (·.isEmpty)) false
      | none, none => ofGroups symbol (headGroups words)

/-- The lists whose trees are asked for. -/
def parts : Division → List (List Text)
  | nothing | word _ | chars _ => []
  | product prefixes suffixes _ _ => [prefixes, suffixes]
  | branches _ groups => groups

/-- The tree of a list of words, given the trees of its parts. -/
def assemble (symbol : Char → Option Verbatim) (ignoreCase : Bool) (tree : List Text → Node) : Division → Node
  | nothing => .nothing
  | word w => .ofSequence (w.map (.ofChar symbol))
  | chars cs => .ofChars symbol ignoreCase cs
  | product prefixes suffixes optionalPrefix optionalSuffix =>
    .ofSequence [(tree prefixes).optionalIf optionalPrefix, (tree suffixes).optionalIf optionalSuffix]
  | branches lone groups => .ofBranches (Node.classOf ignoreCase lone ++ groups.map tree)

theorem ofWords_many {symbol : Char → Option Verbatim} {words : List Text} (htwo : 2 ≤ words.length) :
    ofWords symbol words =
      if ∀ w ∈ words, w.length = 1 then chars words.flatten
      else
        match Factoring.best? .start words, Factoring.best? .stop words with
        | some f, _ => product f.prefixes (nonemptyWords f.suffixes) false (f.suffixes.any (·.isEmpty))
        | none, some f => product (nonemptyWords f.prefixes) f.suffixes (f.prefixes.any (·.isEmpty)) false
        | none, none => ofGroups symbol (headGroups words) := by
  match words, htwo with
  | _ :: _ :: _, _ => rfl

theorem parts_ofGroups_subset {symbol : Char → Option Verbatim} {groups : List (List Text)} {g : List Text}
    (h : g ∈ (ofGroups symbol groups).parts) : g ∈ groups := by
  unfold ofGroups at h
  split_ifs at h
  · exact (List.mem_filter.1 h).1
  · exact h

theorem assemble_ofGroups (symbol : Char → Option Verbatim) (ignoreCase : Bool) (groups : List (List Text)) :
    (ofGroups symbol groups).assemble symbol ignoreCase (Node.ofWords symbol ignoreCase) =
      Node.ofGroups symbol ignoreCase groups := by
  unfold ofGroups Node.ofGroups
  split_ifs with hlone
  · have hne : Node.loneChars symbol groups ≠ [] := by
      intro hnil
      rw [Node.filter_isSingleLiteral, hnil] at hlone
      simp at hlone
    simp only [assemble, Node.classOf, if_neg hne, List.singleton_append]
  · rfl

theorem assemble_congr {symbol : Char → Option Verbatim} {ignoreCase : Bool} {tree tree' : List Text → Node}
    {d : Division} (h : ∀ vs ∈ d.parts, tree vs = tree' vs) :
    d.assemble symbol ignoreCase tree = d.assemble symbol ignoreCase tree' := by
  cases d with
  | nothing | word | chars => rfl
  | product ps ss =>
    have hps := h ps List.mem_cons_self
    have hss := h ss (List.mem_cons_of_mem _ List.mem_cons_self)
    rw [assemble, assemble, hps, hss]
  | branches lone groups =>
    have hgroups : groups.map tree = groups.map tree' := List.map_congr_left h
    rw [assemble, assemble, hgroups]

end Division

namespace Node

variable {symbol : Char → Option Verbatim} {ignoreCase : Bool} {words vs : List Text}

/-- The rounds on a list of words and on all lists that are asked for come to an end with a tree. -/
inductive Built (symbol : Char → Option Verbatim) (ignoreCase : Bool) : List Text → Node → Prop
  | intro (words : List Text) (tree : List Text → Node) :
    (∀ vs ∈ (Division.ofWords symbol words).parts, Built symbol ignoreCase vs (tree vs)) →
      Built symbol ignoreCase words ((Division.ofWords symbol words).assemble symbol ignoreCase tree)

/-- One list is a part of another, or a part of a part. -/
abbrev Reaches (symbol : Char → Option Verbatim) : List Text → List Text → Prop :=
  Relation.ReflTransGen fun words vs => vs ∈ (Division.ofWords symbol words).parts

/-! ### Parts -/

/-- Parts have one empty word at most, and weigh less. -/
theorem of_mem_parts (h : words.count [] ≤ 1) (hvs : vs ∈ (Division.ofWords symbol words).parts) :
    vs.count [] ≤ 1 ∧ weight vs < weight words := by
  by_cases htwo : 2 ≤ words.length
  · rw [Division.ofWords_many htwo] at hvs
    split_ifs at hvs with hlong
    · exact absurd hvs List.not_mem_nil
    · cases hstart : Factoring.best? .start words with
      | some f =>
        obtain ⟨hlt, hlt'⟩ := weight_sides_lt hstart
        have hprefixes : f.prefixes = f.parts := by rw [Factoring.prefixes, side_of_best? hstart, if_pos rfl]
        simp only [hstart, Division.parts, List.mem_cons, List.not_mem_nil, or_false] at hvs
        rcases hvs with rfl | rfl
        · exact ⟨by rw [hprefixes, count_nil_parts hstart]; exact Nat.zero_le 1, hlt⟩
        · exact ⟨by rw [count_nil_nonemptyWords]; exact Nat.zero_le 1, (weight_nonemptyWords_le _).trans_lt hlt'⟩
      | none =>
        cases hstop : Factoring.best? .stop words with
        | some f =>
          obtain ⟨hlt, hlt'⟩ := weight_sides_lt hstop
          have hsuffixes : f.suffixes = f.parts := by rw [Factoring.suffixes, side_of_best? hstop, if_neg (by simp)]
          simp only [hstart, hstop, Division.parts, List.mem_cons, List.not_mem_nil, or_false] at hvs
          rcases hvs with rfl | rfl
          · exact ⟨by rw [count_nil_nonemptyWords]; exact Nat.zero_le 1, (weight_nonemptyWords_le _).trans_lt hlt⟩
          · exact ⟨by rw [hsuffixes, count_nil_parts hstop]; exact Nat.zero_le 1, hlt'⟩
        | none =>
          simp only [hstart, hstop] at hvs
          have hgroup := Division.parts_ofGroups_subset hvs
          exact ⟨(count_nil_of_mem_headGroups hgroup).trans h,
            weight_headGroup_lt htwo (exists_ne_nil htwo h) hlong hstart hgroup⟩
  · rcases words with _ | ⟨w, _ | ⟨v, rest⟩⟩
    · exact absurd hvs List.not_mem_nil
    · exact absurd hvs List.not_mem_nil
    · exact absurd (by simp) htwo

/-! ### The tree -/

/-- The tree of a list of words is assembled from the trees of its parts. -/
theorem ofWords_eq_assemble (h : words.count [] ≤ 1) : ofWords symbol ignoreCase words =
    (Division.ofWords symbol words).assemble symbol ignoreCase (ofWords symbol ignoreCase) := by
  by_cases htwo : 2 ≤ words.length
  · rw [ofWords_many htwo, if_neg (exists_ne_nil htwo h), Division.ofWords_many htwo]
    split_ifs
    · rfl
    · cases hstart : Factoring.best? .start words with
      | some f => rfl
      | none =>
        cases hstop : Factoring.best? .stop words with
        | some f => rfl
        | none => exact (Division.assemble_ofGroups symbol ignoreCase _).symm
  · rcases words with _ | ⟨w, _ | ⟨v, rest⟩⟩
    · rw [ofWords]
      rfl
    · rw [ofWords]
      rfl
    · exact absurd (by simp) htwo

/-- The rounds end with the tree of the list. The induction is on the weight. -/
theorem built_iff (h : words.count [] ≤ 1) {n : Node} :
    Built symbol ignoreCase words n ↔ n = ofWords symbol ignoreCase words := by
  constructor
  · intro hn
    induction hn with
    | intro words tree _ ih =>
      rw [ofWords_eq_assemble h]
      exact Division.assemble_congr fun vs hvs => ih vs hvs (of_mem_parts h hvs).1
  · rintro rfl
    induction hk : weight words using Nat.strong_induction_on generalizing words with
    | _ k ih =>
      subst hk
      rw [ofWords_eq_assemble h]
      refine .intro words _ fun vs hvs => ?_
      obtain ⟨hcount, hlt⟩ := of_mem_parts h hvs
      exact ih _ hlt hcount rfl

/-! ### Several empty words -/

theorem charCount_of_forall_nil (h : ∀ w ∈ words, w = []) : charCount words = 0 := by
  induction words with
  | nil => rfl
  | cons w rest ih =>
    obtain ⟨rfl, hrest⟩ := List.forall_mem_cons.1 h
    rw [charCount, ih hrest, List.length_nil]

theorem best?_of_forall_nil (h : ∀ w ∈ words, w = []) (side : Side) : Factoring.best? side words = none := by
  cases hf : Factoring.best? side words with
  | none => rfl
  | some f =>
    have hlt := (Factoring.best?_smaller hf).1
    rw [charCount_of_forall_nil h] at hlt
    exact absurd hlt (Nat.not_lt_zero _)

/-- Empty words begin alike. -/
theorem headGroups_of_forall_nil (hne : words ≠ []) (h : ∀ w ∈ words, w = []) : headGroups words = [words] := by
  induction words with
  | nil => contradiction
  | cons w rest ih =>
    obtain ⟨rfl, hrest⟩ := List.forall_mem_cons.1 h
    cases rest with
    | nil => rfl
    | cons v more =>
      obtain ⟨rfl, -⟩ := List.forall_mem_cons.1 hrest
      rw [headGroups, ih (List.cons_ne_nil _ _) hrest]
      rfl

/-- Of several words that are all empty, the only part is the list itself. -/
theorem parts_of_forall_nil (htwo : 2 ≤ words.length) (h : ∀ w ∈ words, w = []) :
    (Division.ofWords symbol words).parts = [words] := by
  have hne : words ≠ [] := by
    rintro rfl
    simp at htwo
  have hlong : ¬ ∀ w ∈ words, w.length = 1 := by
    obtain ⟨w, hw⟩ := List.exists_mem_of_ne_nil _ hne
    intro hlong
    simpa [h w hw] using hlong w hw
  have hlone : ¬ 1 < ([words].filter (isSingleLiteral symbol)).length := Nat.not_lt.2 (List.length_filter_le _ _)
  rw [Division.ofWords_many htwo, if_neg hlong]
  simp only [best?_of_forall_nil h, headGroups_of_forall_nil hne h, Division.ofGroups, if_neg hlone, Division.parts]

/-- Taken apart without end, so that there is no tree. -/
theorem not_built_of_forall_nil (htwo : 2 ≤ words.length) (h : ∀ w ∈ words, w = []) (n : Node) :
    ¬ Built symbol ignoreCase words n := by
  intro hn
  induction hn with
  | intro words tree _ ih =>
    refine ih words ?_ htwo h
    rw [parts_of_forall_nil htwo h]
    exact List.mem_singleton_self words

/-- From a list with one empty word at most the recursion reaches only such lists, each part lighter than the whole; so
it comes to an end, and gives the tree that is flattened and put in place. -/
theorem exists_built (h : words.count [] ≤ 1) :
    (∀ us, Reaches symbol words us → us.count [] ≤ 1 ∧
      ∀ vs ∈ (Division.ofWords symbol us).parts, vs.count [] ≤ 1 ∧ weight vs < weight us) ∧
      ∃ n, (∀ m, Built symbol ignoreCase words m ↔ m = n) ∧ build symbol ignoreCase words = n.flatten.place .root := by
  refine ⟨fun us hus => ?_, ofWords symbol ignoreCase words, fun n => built_iff h, rfl⟩
  have hcount : us.count [] ≤ 1 := by
    induction hus with
    | refl => exact h
    | tail _ hpart ih => exact (of_mem_parts ih hpart).1
  exact ⟨hcount, fun vs => of_mem_parts hcount⟩

/-- Of words out of order, one of them twice and one empty. -/
theorem exists_built_repeated : [['b'], [], ['a', 'b'], ['b']].count [] ≤ 1 ∧
    (∀ us, Reaches (fun _ => none) [['b'], [], ['a', 'b'], ['b']] us → us.count [] ≤ 1 ∧
      ∀ vs ∈ (Division.ofWords (fun _ => none) us).parts, vs.count [] ≤ 1 ∧ weight vs < weight us) ∧
    ∃ n, (∀ m, Built (fun _ => none) false [['b'], [], ['a', 'b'], ['b']] m ↔ m = n) ∧
      build (fun _ => none) false [['b'], [], ['a', 'b'], ['b']] = n.flatten.place .root :=
  have hcount : [['b'], [], ['a', 'b'], ['b']].count [] ≤ 1 := by decide
  ⟨hcount, exists_built hcount⟩

end Node

end WordPattern
