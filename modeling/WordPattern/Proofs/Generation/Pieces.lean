import Mathlib.Data.List.Chain
import WordPattern.Proofs.Generation.Splitter

/-! The pieces of a word, where labels are taken from left to right.

What is pending before a label is a text in which no label begins; so induction on a word goes from label to label, and
what is said of its pieces follows from what is said of a literal piece. -/

namespace WordPattern

def Piece.isSpecial : Piece → Bool
  | .literal _ => false
  | .special _ => true

namespace SymbolTable

variable {entries : List Symbol}

/-- No label begins inside the text that is pending before the rest of a text. -/
def Clear (entries : List Symbol) (pending rest : Text) : Prop :=
  ∀ front back, pending = front ++ back → back ≠ [] → next? entries (back ++ rest) = none

theorem clear_nil (rest : Text) : Clear entries [] rest :=
  fun _ _ h hback => absurd (List.append_eq_nil_iff.1 h.symm).2 hback

theorem Clear.append {pending rest : Text} {c : Char} (h : Clear entries pending (c :: rest))
    (hnext : next? entries (c :: rest) = none) : Clear entries (pending ++ [c]) rest := by
  intro front back hsplit hback
  obtain ⟨back, d, rfl⟩ := List.eq_nil_or_concat back |>.resolve_left hback
  rw [List.concat_eq_append, ← List.append_assoc] at hsplit
  obtain ⟨hpending, hlast⟩ := List.append_inj' hsplit rfl
  obtain rfl : c = d := List.singleton_injective hlast
  rw [List.concat_eq_append, List.append_assoc, List.singleton_append]
  by_cases hempty : back = []
  · rw [hempty]
    exact hnext
  · exact h front back hpending hempty

theorem Clear.not_infix {pending rest : Text} (h : Clear entries pending rest) {s : Symbol} (hs : s ∈ entries)
    (hne : s.label ≠ []) : ¬ s.label <:+: pending := by
  rintro ⟨front, after, rfl⟩
  have hnext := h front (s.label ++ after) (by rw [List.append_assoc]) (by simp [hne])
  have hnot := List.find?_eq_none.1 hnext s hs
  rw [List.append_assoc] at hnot
  exact hnot (List.isPrefixOf_iff_prefix.2 (List.prefix_append _ _))

/-- A word is a text in which no label begins, or such a text with a label and another word behind it. -/
theorem scan_induction (hne : ∀ s ∈ entries, s.label ≠ []) {P : Text → List Piece → Prop}
    (hliteral : ∀ t, Clear entries t [] → P t (literalPiece t))
    (hspecial : ∀ t s w pieces, Clear entries t (s.label ++ w) → next? entries (s.label ++ w) = some s → P w pieces →
      P (t ++ (s.label ++ w)) (literalPiece t ++ .special s :: pieces)) (w : Text) : P w (scan entries [] 0 w) := by
  suffices h : ∀ pending inside, Clear entries pending (w.drop inside) →
      P (pending ++ w.drop inside) (scan entries pending inside w) from h [] 0 (clear_nil _)
  induction w with
  | nil =>
    intro pending inside hclear
    rw [List.drop_nil] at hclear
    rw [scan, List.drop_nil, List.append_nil]
    exact hliteral pending hclear
  | cons c w ih =>
    intro pending inside hclear
    cases inside with
    | succ n => exact ih pending n hclear
    | zero =>
      rw [List.drop_zero] at hclear
      rw [scan, List.drop_zero]
      cases hnext : next? entries (c :: w) with
      | none => simpa using ih (pending ++ [c]) 0 (hclear.append hnext)
      | some s =>
        obtain ⟨hs, after, hafter⟩ := next?_spec hnext
        have hrest : w.drop (s.label.length - 1) = after := by
          obtain ⟨d, label, hlabel⟩ := List.exists_cons_of_ne_nil (hne s hs)
          rw [hlabel] at hafter ⊢
          obtain ⟨-, rfl⟩ := List.cons.inj hafter
          simp
        have hpieces := ih [] (s.label.length - 1) (clear_nil _)
        rw [hrest, List.nil_append] at hpieces
        rw [hafter] at hclear hnext ⊢
        exact hspecial pending s after _ hclear hnext hpieces

theorem flatMap_source_literalPiece (t : Text) : (literalPiece t).flatMap Piece.source = t := by
  unfold literalPiece
  split_ifs with h
  · exact (List.isEmpty_iff.1 h).symm
  · exact List.append_nil t

/-- Nothing is lost: the pieces of a word are the word. -/
theorem flatMap_source_scan (hne : ∀ s ∈ entries, s.label ≠ []) (w : Text) :
    (scan entries [] 0 w).flatMap Piece.source = w := by
  refine scan_induction hne (P := fun w pieces => pieces.flatMap Piece.source = w)
    (fun t _ => flatMap_source_literalPiece t) (fun t s w pieces _ _ ih => ?_) w
  rw [List.flatMap_append, List.flatMap_cons, flatMap_source_literalPiece, ih]
  rfl

/-- What a literal piece is written as. -/
theorem flatMap_pieceText_literalPiece (settings : Settings) (t : Text) :
    (literalPiece t).flatMap settings.pieceText = if settings.ignoreCase then Unicode.lowercase t else t := by
  unfold literalPiece
  split_ifs with hnil hcase hcase
  · rw [List.isEmpty_iff.1 hnil]
    rfl
  · exact (List.isEmpty_iff.1 hnil).symm
  · simp [Settings.pieceText, hcase]
  · simp [Settings.pieceText, hcase]

/-- Where case counts, a literal piece is written as it is. -/
theorem flatMap_literalPiece {settings : Settings} (hcase : settings.ignoreCase = false) (t : Text) :
    (literalPiece t).flatMap settings.pieceText = t := by
  rw [flatMap_pieceText_literalPiece, hcase]
  rfl

theorem mem_literalPiece {t u : Text} : .literal t ∈ literalPiece u ↔ t = u ∧ u ≠ [] := by
  unfold literalPiece
  split_ifs with h
  · simp [List.isEmpty_iff.1 h]
  · have hne : u ≠ [] := by simpa using h
    simp [hne]

/-- No label occurs in a literal piece. -/
theorem not_infix_of_mem_scan (hne : ∀ s ∈ entries, s.label ≠ []) (w : Text) :
    ∀ t, .literal t ∈ scan entries [] 0 w → t ≠ [] ∧ ∀ s ∈ entries, ¬ s.label <:+: t := by
  have hpiece : ∀ t u rest, Clear entries u rest → .literal t ∈ literalPiece u →
      t ≠ [] ∧ ∀ s ∈ entries, ¬ s.label <:+: t := by
    intro t u rest hclear ht
    obtain ⟨rfl, ht⟩ := mem_literalPiece.1 ht
    exact ⟨ht, fun s hs => hclear.not_infix hs (hne s hs)⟩
  refine scan_induction hne (P := fun _ pieces =>
    ∀ t, .literal t ∈ pieces → t ≠ [] ∧ ∀ s ∈ entries, ¬ s.label <:+: t)
    (fun u hclear t ht => hpiece t u [] hclear ht) (fun u s w pieces hclear _ ih t ht => ?_) w
  rcases List.mem_append.1 ht with ht | ht
  · exact hpiece t u _ hclear ht
  · exact ih t (by simpa using ht)

/-- Of two pieces side by side one is a special. -/
theorem isChain_scan (hne : ∀ s ∈ entries, s.label ≠ []) (w : Text) :
    (scan entries [] 0 w).IsChain fun a b => a.isSpecial ∨ b.isSpecial := by
  have hliteral : ∀ t, (literalPiece t).IsChain fun a b => a.isSpecial ∨ b.isSpecial := by
    intro t
    unfold literalPiece
    split_ifs
    · exact .nil
    · exact .singleton _
  refine scan_induction hne (P := fun _ pieces => pieces.IsChain fun a b => a.isSpecial ∨ b.isSpecial)
    (fun t _ => hliteral t) (fun t s w pieces _ _ ih => ?_) w
  refine (hliteral t).append (ih.cons fun _ _ => .inl rfl) ?_
  rintro a - b hb
  obtain rfl := Option.some.inj hb
  exact .inr rfl

end SymbolTable

end WordPattern
