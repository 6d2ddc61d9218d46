import WordPattern.Factoring
import WordPattern.Node.Basic

/-! The tree of a list of words.

A single word is a sequence and single characters are alternatives, mostly a class. Any other list is written as a
product if it is one, with the shared part at the start or at the end, and else word by word in the groups that begin
with the same character. Every step leaves lists that weigh less. -/

namespace WordPattern

/-- Groups neighbouring words that begin with the same character. -/
def headGroups : List Text → List (List Text)
  | [] => []
  | w :: rest =>
    match headGroups rest with
    | (v :: group) :: more => if w.head? = v.head? then (w :: v :: group) :: more else [w] :: (v :: group) :: more
    | groups => [w] :: groups

/-- The number of words and of their characters. -/
def weight (words : List Text) : Nat := charCount words + words.length

def nonemptyWords (words : List Text) : List Text := words.filter (!·.isEmpty)

theorem weight_nonemptyWords_le (words : List Text) : weight (nonemptyWords words) ≤ weight words := by
  induction words with
  | nil => simp [nonemptyWords]
  | cons w rest ih =>
    simp only [nonemptyWords, List.filter_cons, weight, charCount, List.length_cons] at ih ⊢
    split
    · simp only [charCount, List.length_cons]; omega
    · omega

theorem weight_sides_lt {side : Side} {words : List Text} {f : Factoring} (h : Factoring.best? side words = some f) :
    weight f.prefixes < weight words ∧ weight f.suffixes < weight words := by
  obtain ⟨hs, hp, hq⟩ := Factoring.best?_smaller h
  rw [Factoring.size_eq] at hs
  simp only [weight]
  omega

theorem flatten_headGroups (words : List Text) : (headGroups words).flatten = words := by
  induction words with
  | nil => rfl
  | cons w rest ih =>
    rw [headGroups]
    split
    · rename_i h
      rw [h] at ih
      split <;> simp [← ih]
    · simp [ih]

theorem ne_nil_of_mem_headGroups {words group : List Text} (h : group ∈ headGroups words) : group ≠ [] := by
  induction words generalizing group with
  | nil => simp [headGroups] at h
  | cons w rest ih =>
    rw [headGroups] at h
    split at h
    · rename_i hg
      split at h
      · rcases List.mem_cons.1 h with rfl | h
        · simp
        · exact ih (hg ▸ List.mem_cons_of_mem _ h)
      · rcases List.mem_cons.1 h with rfl | h
        · simp
        · exact ih (hg ▸ h)
    · rcases List.mem_cons.1 h with rfl | h
      · simp
      · exact ih h

/-- The words of a group begin alike. -/
theorem head?_eq_of_mem_headGroups {words group : List Text} (h : group ∈ headGroups words) :
    ∀ v ∈ group, ∀ w ∈ group, v.head? = w.head? := by
  induction words generalizing group with
  | nil => simp [headGroups] at h
  | cons w rest ih =>
    rw [headGroups] at h
    split at h
    · rename_i v group' more hg
      have hfirst := @ih (v :: group') (hg ▸ List.mem_cons_self)
      split at h
      · rename_i hw
        rcases List.mem_cons.1 h with rfl | h
        · have hall : ∀ u ∈ w :: v :: group', u.head? = v.head? := fun u hu => by
            rcases List.mem_cons.1 hu with rfl | hu
            · exact hw
            · exact hfirst u hu v List.mem_cons_self
          exact fun a ha b hb => (hall a ha).trans (hall b hb).symm
        · exact ih (hg ▸ List.mem_cons_of_mem _ h)
      · rcases List.mem_cons.1 h with rfl | h
        · simp
        · exact ih (hg ▸ h)
    · rcases List.mem_cons.1 h with rfl | h
      · simp
      · exact ih h

theorem weight_append (vs ws : List Text) : weight (vs ++ ws) = weight vs + weight ws := by
  simp only [weight, Factoring.charCount_append, List.length_append]; omega

/-- Where there are two groups, each weighs less than all words. -/
theorem weight_lt_of_mem {groups : List (List Text)} (hne : ∀ g ∈ groups, g ≠ []) (htwo : 2 ≤ groups.length)
    {group : List Text} (h : group ∈ groups) : weight group < weight groups.flatten := by
  obtain ⟨before, after, rfl⟩ := List.append_of_mem h
  have hpos : ∀ gs : List (List Text), (∀ g ∈ gs, g ≠ []) → gs ≠ [] → 0 < weight gs.flatten := by
    intro gs hg hgs
    cases gs with
    | nil => contradiction
    | cons g rest =>
      have := List.length_pos_iff.2 (hg g List.mem_cons_self)
      simp only [weight, List.flatten_cons, List.length_append]; omega
  simp only [List.flatten_append, List.flatten_cons, weight_append]
  by_cases hb : before = []
  · have ha : after ≠ [] := by rintro rfl; subst hb; simp at htwo
    have := hpos after (fun g hg => hne g (by simp [hg])) ha
    omega
  · have := hpos before (fun g hg => hne g (by simp [hg])) hb
    omega

/-- A list that has no factoring falls into groups that weigh less. -/
theorem weight_headGroup_lt {words : List Text} (htwo : 2 ≤ words.length) (hempty : ¬ ∀ w ∈ words, w = [])
    (hlong : ¬ ∀ w ∈ words, w.length = 1) (hbest : Factoring.best? .start words = none) {group : List Text}
    (h : group ∈ headGroups words) : weight group < weight words := by
  have hflat := flatten_headGroups words
  by_cases hgroups : 2 ≤ (headGroups words).length
  · have := weight_lt_of_mem (fun g hg => ne_nil_of_mem_headGroups hg) hgroups h
    rwa [hflat] at this
  · have hone : headGroups words = [group] := by
      cases hg : headGroups words with
      | nil => simp [hg] at h
      | cons g rest =>
        cases rest with
        | nil => rw [hg] at h; rw [List.mem_singleton.1 h]
        | cons => simp [hg] at hgroups
    have hwords : group = words := by simpa [hone] using hflat
    subst hwords
    have halike := head?_eq_of_mem_headGroups h
    exfalso
    cases hg : group with
    | nil => simp [hg] at htwo
    | cons v rest =>
      have hv : v ∈ group := by simp [hg]
      cases hc : v.head? with
      | none => exact hempty fun w hw => List.head?_eq_none_iff.1 ((halike w hw v hv).trans hc)
      | some c => exact Factoring.best?_ne_none htwo (fun w hw => (halike w hw v hv).trans hc) hlong hbest

namespace Node

/-- The node of a character: what its symbol stands for, or else itself. -/
def ofChar (symbol : Char → Option Verbatim) (c : Char) : Node :=
  match symbol c with
  | some v => ofVerbatim v
  | none => ofText [c]

/-- Single characters: a class for those that are no symbols, if there are several. -/
def ofChars (symbol : Char → Option Verbatim) (ignoreCase : Bool) (chars : List Char) : Node :=
  let literals := chars.filter fun c => (symbol c).isNone
  if 1 < literals.length then
    ofBranches (ofClass (.ofChars literals ignoreCase) ::
      (chars.filter fun c => (symbol c).isSome).map (ofChar symbol))
  else ofBranches (chars.map (ofChar symbol))

/-- A group that is a single character and no symbol. -/
def isSingleLiteral (symbol : Char → Option Verbatim) (group : List Text) : Bool :=
  match group with
  | [[c]] => (symbol c).isNone
  | _ => false

/-- The tree of a list of words. -/
def ofWords (symbol : Char → Option Verbatim) (ignoreCase : Bool) (words : List Text) : Node :=
  match words with
  | [] => nothing
  | [word] => ofSequence (word.map (ofChar symbol))
  | v :: w :: rest =>
    let words := v :: w :: rest
    if _hlong : ∀ word ∈ words, word.length = 1 then ofChars symbol ignoreCase words.flatten
    else if _hempty : ∀ word ∈ words, word = [] then ofSequence []
    else
      match _hstart : Factoring.best? .start words with
      | some f =>
        ofSequence [ofWords symbol ignoreCase f.prefixes,
          (ofWords symbol ignoreCase (nonemptyWords f.suffixes)).optionalIf (f.suffixes.any (·.isEmpty))]
      | none =>
        match _hstop : Factoring.best? .stop words with
        | some f =>
          ofSequence [(ofWords symbol ignoreCase (nonemptyWords f.prefixes)).optionalIf (f.prefixes.any (·.isEmpty)),
            ofWords symbol ignoreCase f.suffixes]
        | none =>
          let groups := headGroups words
          let lone := groups.filter (isSingleLiteral symbol)
          let branch (group : { g // g ∈ groups }) := ofWords symbol ignoreCase group.1
          if 1 < lone.length then
            ofBranches (ofClass (.ofChars lone.flatten.flatten ignoreCase) ::
              (groups.attach.filter fun group => !isSingleLiteral symbol group.1).map branch)
          else ofBranches (groups.attach.map branch)
termination_by weight words
decreasing_by
  · exact (weight_sides_lt _hstart).1
  · exact Nat.lt_of_le_of_lt (weight_nonemptyWords_le _) (weight_sides_lt _hstart).2
  · exact Nat.lt_of_le_of_lt (weight_nonemptyWords_le _) (weight_sides_lt _hstop).1
  · exact (weight_sides_lt _hstop).2
  · exact weight_headGroup_lt (show 2 ≤ (v :: w :: rest).length by simp) _hempty _hlong _hstart group.2

/-- The tree of a list of words, flattened and with every node in its place. -/
def build (symbol : Char → Option Verbatim) (ignoreCase : Bool) (words : List Text) : Node :=
  (ofWords symbol ignoreCase words).flatten.place .root

end Node

end WordPattern
