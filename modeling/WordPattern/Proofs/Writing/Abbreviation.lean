import WordPattern.Proofs.Reading.Groups

/-! What one round of abbreviation does.

It writes one run of equal blocks with a count, where that is shorter, and leaves everything else as it is; so what such
a step keeps up is kept up by all rounds. -/

namespace WordPattern

open Regex

variable {mode : Mode} {closed : Bool}

/-! ### Rounds -/

/-- One list of fragments is another one with a run of at least two equal blocks written with a count. -/
def Abbreviates (mode : Mode) (closed : Bool) (fragments out : List Text) : Prop :=
  ∃ before block n after, block ≠ [] ∧ 2 ≤ n ∧ fragments = before ++ ((List.replicate n block).flatten ++ after) ∧
    out = before ++ quantified mode closed block n :: after

theorem Abbreviates.context {fragments out : List Text} (h : Abbreviates mode closed fragments out)
    (front back : List Text) : Abbreviates mode closed (front ++ (fragments ++ back)) (front ++ (out ++ back)) := by
  obtain ⟨before, block, n, after, hblock, hn, rfl, rfl⟩ := h
  exact ⟨front ++ before, block, n, after ++ back, hblock, hn, by simp only [List.append_assoc], by simp⟩

/-- A run is written with a count, and the text gets shorter by that. -/
structure Shortens (mode : Mode) (closed : Bool) (fragments out : List Text) : Prop where
  abbreviates : Abbreviates mode closed fragments out
  length_lt : out.flatten.length < fragments.flatten.length

theorem Shortens.context {fragments out : List Text} (h : Shortens mode closed fragments out)
    (front back : List Text) : Shortens mode closed (front ++ (fragments ++ back)) (front ++ (out ++ back)) := by
  refine ⟨h.abbreviates.context front back, ?_⟩
  simp only [List.flatten_append, List.length_append]
  exact Nat.add_lt_add_left (Nat.add_lt_add_right h.length_lt _) _

/-- A count pays where it is shorter than its run, which is then more than one block. -/
theorem shortens_run {block : List Text} {n : Nat} (after : List Text)
    (h : quantifiedLength block n < n * block.flatten.length) :
    Shortens mode closed ((List.replicate n block).flatten ++ after) (quantified mode closed block n :: after) := by
  refine ⟨⟨[], block, n, after, ?_, two_le_of_quantifiedLength_lt h, rfl, rfl⟩, ?_⟩
  · rintro rfl
    simp at h
  · have hrun : (List.replicate n block).flatten.flatten.length = n * block.flatten.length := by simp
    rw [List.flatten_append, List.flatten_cons, List.length_append, List.length_append, hrun, length_quantified]
    exact Nat.add_lt_add_right h _

theorem shortens_runs {rs : List (List Text × Nat)} {out : List Text} (h : abbreviateRuns mode closed rs = some out) :
    Shortens mode closed (unrolled rs) out := by
  obtain ⟨before, block, n, after, rfl, hpays, rfl⟩ := exists_of_abbreviateRuns h
  simpa [unrolled_append, unrolled] using (shortens_run (unrolled after) hpays).context (unrolled before) []

theorem shortens_at {fragments out : List Text} {size offset : Nat}
    (h : abbreviateAt mode closed fragments size offset = some out) : Shortens mode closed fragments out := by
  obtain ⟨shorter, hruns, rfl⟩ := Option.map_eq_some_iff.1 h
  have hstep := (shortens_runs hruns).context (fragments.take offset)
    ((fragments.drop offset).drop ((fragments.drop offset).length / size * size))
  rwa [unrolled_runs, flatten_blocks_append, List.take_append_drop, ← List.append_assoc] at hstep

theorem shortens_once {fragments out : List Text} (h : abbreviateOnce mode closed fragments = some out) :
    Shortens mode closed fragments out := by
  obtain ⟨_, _, h⟩ := List.exists_of_findSome?_eq_some h
  obtain ⟨_, _, h⟩ := List.exists_of_findSome?_eq_some h
  exact shortens_at h

/-- A run is no longer than the list that it stands in. -/
theorem le_length_of_run {before block after : List Text} {n : Nat} (hblock : block ≠ []) :
    n ≤ (before ++ ((List.replicate n block).flatten ++ after)).length := by
  have hone : n * 1 ≤ n * block.length := Nat.mul_le_mul_left n (List.length_pos_iff.2 hblock)
  have hrun : (List.replicate n block).flatten.length = n * block.length := by simp
  simp only [List.length_append, hrun]
  omega

/-- What every step keeps up is kept up by all rounds. No count exceeds the number of fragments. -/
theorem abbreviated_induction {P : List Text → Prop} {fragments : List Text} (h : P fragments)
    (hstep : ∀ before block n after, block ≠ [] → 2 ≤ n → n ≤ fragments.length →
      P (before ++ ((List.replicate n block).flatten ++ after)) → P (before ++ quantified mode closed block n :: after)) :
    P (abbreviated mode closed fragments) := by
  induction fragments using abbreviated.induct mode closed with
  | case1 fragments shorter hs ih =>
    rw [abbreviated, hs]
    have hshort := length_abbreviateOnce_lt hs
    obtain ⟨before, block, n, after, hblock, hn, rfl, rfl⟩ := (shortens_once hs).abbreviates
    refine ih (hstep before block n after hblock hn (le_length_of_run hblock) h) ?_
    intro before' block' n' after' hblock' hn' hle
    exact hstep before' block' n' after' hblock' hn' (Nat.le_trans hle (Nat.le_of_lt hshort))
  | case2 fragments hs =>
    rw [abbreviated, hs]
    exact h

/-- A text that is written with counts is shorter than the one without. -/
theorem abbreviate_eq_or_length_lt (mode : Mode) (closed : Bool) (fragments : List Text) :
    abbreviate mode closed fragments = fragments.flatten ∨
      (abbreviate mode closed fragments).length < fragments.flatten.length := by
  unfold abbreviate
  induction fragments using abbreviated.induct mode closed with
  | case1 fragments shorter hs ih =>
    have hlt := (shortens_once hs).length_lt
    rw [abbreviated, hs]
    exact .inr (ih.elim (fun heq => by rw [heq]; exact hlt) fun hlt' => hlt'.trans hlt)
  | case2 fragments hs =>
    rw [abbreviated, hs]
    exact .inl rfl

/-! ### Counts -/

section Counts

variable {block : List Text} {count : Nat} {strict : Prop} {φ : Flags} {ts : List Token}

theorem quantified_eq (mode : Mode) (closed : Bool) (block : List Text) (count : Nat) :
    quantified mode closed block count =
      (if isAtomicText block.flatten then block.flatten else mode.group closed block.flatten) ++ countText count := by
  simp only [quantified, countText, List.append_assoc]

theorem opens_quantified (hopens : Opens block.flatten) (hcount : count < boundLimit) (closed : Bool) :
    Opens (quantified mode closed block count) := by
  rw [quantified_eq]
  refine Opens.append ?_ (opens_count hcount)
  split_ifs
  · exact hopens
  · exact opens_group mode closed _

/-- What is refused is refused with a count as well. -/
theorem refused_quantified (mode : Mode) (closed : Bool) (hlex : Lexes block.flatten ts) (hopens : Opens block.flatten)
    (hts : Refused strict φ ts) (hcount : count < boundLimit) :
    ∃ us, Lexes (quantified mode closed block count) us ∧ Refused strict φ us := by
  rw [quantified_eq]
  split_ifs
  · exact ⟨_, hlex.append (lexes_count hcount) (opens_count hcount), hts.append _⟩
  · exact ⟨_, (lexes_group hlex hopens mode closed).append (lexes_count hcount) (opens_count hcount),
      ((hts.group mode closed).append _).append _⟩

end Counts

end WordPattern
