import WordPattern.Proofs.Folding

/-! A text in lower case stays as it is when it is lowercased once more.

Lowercasing a text looks at what stands around a capital sigma, but leaves no capital sigma behind; every other character
becomes characters that are their own lower case. -/

namespace WordPattern.Unicode

theorem lowercaseMap_settles : lowercaseMap.all lowercaseMap.settles = true := by decide +kernel

/-- No stride reaches `İ`, whose lower case is not in the map. -/
theorem lowercaseMap_passesOver : lowercaseMap.all (fun e =>
    Nat.blt 0x130 e.2 || Nat.blt (e.2 + (e.1.last - e.1.first)) 0x130) = true := by decide

def IsLower (c : Char) : Prop := c ≠ 'Σ' ∧ lowerChar c = [c]

theorem isLower_of_get?_eq_none {c : Char} (hdot : c ≠ 'İ') (h : lowercaseMap.get? c.toNat = none) : IsLower c := by
  have hsigma : lowercaseMap.get? 'Σ'.toNat ≠ none := by decide
  refine ⟨?_, by rw [lowerChar, if_neg hdot, h]⟩
  rintro rfl
  exact hsigma h

theorem isLower_of_mem_lowerChar {c d : Char} (h : d ∈ lowerChar c) : IsLower d := by
  unfold lowerChar at h
  split_ifs at h with hdot
  · have hletters : ∀ n ∈ ['i', '\u0307'].map Char.toNat, lowercaseMap.get? n = none := by decide
    refine isLower_of_get?_eq_none ?_ (hletters _ (List.mem_map_of_mem h))
    rintro rfl
    simp at h
  · cases hget : lowercaseMap.get? c.toNat with
    | none =>
      rw [hget] at h
      obtain rfl := List.mem_singleton.1 h
      exact isLower_of_get?_eq_none hdot hget
    | some k =>
      rw [hget] at h
      obtain rfl := List.mem_singleton.1 h
      obtain ⟨s, target, hmem, hs, rfl⟩ := CodeMap.exists_mem_of_get? hget
      obtain ⟨-, hvalid, hnone⟩ := CodeMap.settled lowercaseMap_settles hmem hs
      refine isLower_of_get?_eq_none ?_ (by rw [toNat_ofNat hvalid, hnone])
      intro hdot
      have hnat : target + (c.toNat - s.first) = 0x130 := by rw [← toNat_ofNat hvalid, hdot]; rfl
      have hover := List.all_eq_true.1 lowercaseMap_passesOver _ hmem
      have hhigh := (Stride.le_of_contains hs).2
      simp only [Bool.or_eq_true, Nat.blt_eq] at hover
      omega

theorem isLower_of_mem_lowerAfter {before t : Text} {d : Char} (h : d ∈ lowerAfter before t) : IsLower d := by
  have hsigma : ∀ e, lowercaseMap.get? e.toNat = none → e ≠ 'İ' → d ∈ [e] → IsLower d := by
    intro e hnone hdot hd
    obtain rfl := List.mem_singleton.1 hd
    exact isLower_of_get?_eq_none hdot hnone
  induction t generalizing before with
  | nil => contradiction
  | cons c t ih =>
    rw [lowerAfter] at h
    rcases List.mem_append.1 h with h | h
    · split_ifs at h
      · exact hsigma 'ς' (by decide) (by decide) h
      · exact hsigma 'σ' (by decide) (by decide) h
      · exact isLower_of_mem_lowerChar h
    · exact ih h

theorem lowerAfter_of_isLower {before t : Text} (h : ∀ c ∈ t, IsLower c) : lowerAfter before t = t := by
  induction t generalizing before with
  | nil => rfl
  | cons c t ih =>
    obtain ⟨⟨hsigma, hlower⟩, hrest⟩ := List.forall_mem_cons.1 h
    simp only [lowerAfter, if_neg hsigma, hlower, ih hrest, List.singleton_append]

theorem lowercase_lowercase (t : Text) : lowercase (lowercase t) = lowercase t :=
  lowerAfter_of_isLower fun _ hc => isLower_of_mem_lowerAfter hc

end WordPattern.Unicode
