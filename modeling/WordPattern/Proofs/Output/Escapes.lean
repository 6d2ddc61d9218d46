import WordPattern.Proofs.Generation.Plain

/-! Patterns where blanks and comments are skipped.

Outside of its escapes, a pattern of plain words has no blank, and it has `#` only inside brackets. -/

namespace WordPattern

open Regex

/-- The characters of a text that no backslash escapes, each with the number of brackets around it. What follows a
backslash is passed over with it. -/
def Text.exposed : (depth : Nat) → Text → List (Nat × Char)
  | _, [] => []
  | depth, '\\' :: _ :: rest => exposed depth rest
  | depth, c :: rest => (depth, c) :: exposed (if c = '[' then depth + 1 else if c = ']' then depth - 1 else depth) rest

/-- A character that may be exposed under a number of brackets. -/
def IsSafe (depth : Nat) (c : Char) : Prop := c ∉ CharClass.asciiBlanks ∧ (c = '#' → 0 < depth)

/-- A text takes the scanner from one depth to another, whatever follows, and exposes what may be exposed. -/
def Covered (depth depth' : Nat) (t : Text) : Prop :=
  ∃ xs, (∀ rest, Text.exposed depth (t ++ rest) = xs ++ Text.exposed depth' rest) ∧ ∀ x ∈ xs, IsSafe x.1 x.2

section Covered

variable {depth depth' depth'' : Nat} {s t : Text} {c : Char}

theorem covered_nil : Covered depth depth [] := ⟨[], fun _ => rfl, by simp⟩

theorem Covered.append (hs : Covered depth depth' s) (ht : Covered depth' depth'' t) :
    Covered depth depth'' (s ++ t) := by
  obtain ⟨xs, hxs, hsafe⟩ := hs
  obtain ⟨ys, hys, hsafe'⟩ := ht
  refine ⟨xs ++ ys, fun rest => ?_, fun x hx => (List.mem_append.1 hx).elim (hsafe x) (hsafe' x)⟩
  rw [List.append_assoc, hxs, hys, List.append_assoc]

theorem covered_flatMap {α : Type} {f : α → Text} (h : ∀ a, Covered depth depth (f a)) (as : List α) :
    Covered depth depth (as.flatMap f) := by
  induction as with
  | nil => exact covered_nil
  | cons a as ih =>
    rw [List.flatMap_cons]
    exact (h a).append ih

/-- Whatever an escape stands for, it exposes nothing. -/
theorem covered_escaped (c : Char) : Covered depth depth ['\\', c] := ⟨[], fun _ => rfl, by simp⟩

theorem exposed_cons (hc : c ≠ '\\') (rest : Text) : Text.exposed depth (c :: rest) =
    (depth, c) :: Text.exposed (if c = '[' then depth + 1 else if c = ']' then depth - 1 else depth) rest := by
  rw [Text.exposed]
  rintro c' rest' rfl
  contradiction

theorem covered_cons (hc : c ≠ '\\') (hsafe : IsSafe depth c)
    (h : Covered (if c = '[' then depth + 1 else if c = ']' then depth - 1 else depth) depth' t) :
    Covered depth depth' (c :: t) := by
  obtain ⟨xs, hxs, hall⟩ := h
  refine ⟨(depth, c) :: xs, fun rest => ?_, fun x hx => ?_⟩
  · rw [List.cons_append, exposed_cons hc, hxs, List.cons_append]
  · rcases List.mem_cons.1 hx with rfl | hx
    · exact hsafe
    · exact hall x hx

theorem covered_brackets (h : Covered (depth + 1) (depth + 1) t) : Covered depth depth ('[' :: t ++ [']']) := by
  apply covered_cons (by decide) ⟨by decide, fun h => absurd h (by decide)⟩
  apply h.append
  apply covered_cons (by decide) ⟨by decide, fun h => absurd h (by decide)⟩
  exact covered_nil

theorem covered_singleton (hc : c ∉ ['\\', '[', ']']) (hsafe : IsSafe depth c) : Covered depth depth [c] := by
  simp only [List.mem_cons, List.not_mem_nil, or_false, not_or] at hc
  apply covered_cons hc.1 hsafe
  rw [if_neg hc.2.1, if_neg hc.2.2]
  exact covered_nil

/-- Characters that may be exposed anywhere, and open or close nothing. -/
def IsHarmless (c : Char) : Prop := c ∉ '\\' :: '[' :: ']' :: '#' :: CharClass.asciiBlanks

theorem covered_harmless (h : ∀ c ∈ t, IsHarmless c) : Covered depth depth t := by
  rw [← List.flatMap_singleton' t]
  induction t with
  | nil => exact covered_nil
  | cons c t ih =>
    have hc := h c List.mem_cons_self
    simp only [IsHarmless, List.mem_cons, not_or] at hc
    rw [List.flatMap_cons]
    apply Covered.append
    · apply covered_singleton
      · simp [hc]
      · exact ⟨hc.2.2.2.2, fun h => absurd h hc.2.2.2.1⟩
    · exact ih fun d hd => h d (List.mem_cons_of_mem _ hd)

/-- A test that fails for all other characters. -/
theorem harmless_of_test (test : Char → Bool) (hc : test c = true)
    (htest : ∀ d ∈ '\\' :: '[' :: ']' :: '#' :: CharClass.asciiBlanks, test d = false) : IsHarmless c := by
  intro hmem
  rw [htest c hmem] at hc
  contradiction

/-! ### Characters -/

theorem covered_blankEscape (h : blankEscape? c = some t) : Covered depth depth t := by
  have hhex : ∀ d, IsHarmless d → Covered depth depth ['\\', 'x', '0', d] := by
    intro d hd
    change Covered depth depth (['\\', 'x'] ++ ['0', d])
    apply (covered_escaped 'x').append
    apply covered_harmless
    simpa [IsHarmless, CharClass.asciiBlanks] using hd
  unfold blankEscape? at h
  split at h
  all_goals try obtain rfl := Option.some.inj h
  · exact covered_escaped ' '
  · exact covered_escaped 't'
  · exact covered_escaped 'n'
  · exact covered_escaped 'r'
  · exact hhex 'B' (by simp [IsHarmless, CharClass.asciiBlanks])
  · exact hhex 'C' (by simp [IsHarmless, CharClass.asciiBlanks])
  · contradiction

theorem not_mem_blanks (h : blankEscape? c = none) : c ∉ CharClass.asciiBlanks := by
  intro hc
  simp only [CharClass.asciiBlanks, List.mem_cons, List.not_mem_nil, or_false] at hc
  rcases hc with rfl | rfl | rfl | rfl | rfl | rfl <;> contradiction

/-- Outside brackets every blank and every `#` is escaped. -/
theorem covered_quoteChar (c : Char) : Covered depth depth (quoteChar c) := by
  unfold quoteChar
  cases hb : blankEscape? c with
  | some t => exact covered_blankEscape hb
  | none =>
    rw [Option.getD_none]
    split_ifs with hspecial
    · exact covered_escaped c
    · simp only [isSyntaxChar, List.mem_cons, List.not_mem_nil, or_false, decide_eq_true_eq, not_or] at hspecial
      apply covered_singleton
      · simp [hspecial]
      · exact ⟨not_mem_blanks hb, fun hc => absurd hc (by tauto)⟩

/-- Inside brackets every blank is escaped. -/
theorem covered_quoteClassChar (c : Char) : Covered (depth + 1) (depth + 1) (quoteClassChar c) := by
  unfold quoteClassChar
  cases hb : blankEscape? c with
  | some t => exact covered_blankEscape hb
  | none =>
    rw [Option.getD_none]
    split_ifs with hspecial
    · exact covered_escaped c
    · simp only [isClassSyntaxChar, List.mem_cons, List.not_mem_nil, or_false, decide_eq_true_eq, not_or] at hspecial
      apply covered_singleton
      · simp [hspecial]
      · exact ⟨not_mem_blanks hb, fun _ => Nat.succ_pos depth⟩

/-! ### Classes -/

theorem covered_rangeText (range : Char × Char) : Covered (depth + 1) (depth + 1) (CharClass.rangeText range) := by
  obtain ⟨low, high⟩ := range
  have hlow : Covered (depth + 1) (depth + 1) (quoteClassChar low) := covered_quoteClassChar low
  have hhigh : Covered (depth + 1) (depth + 1) (quoteClassChar high) := covered_quoteClassChar high
  have hhyphen : Covered (depth + 1) (depth + 1) ['-'] :=
    covered_harmless (by simp [IsHarmless, CharClass.asciiBlanks])
  rw [CharClass.rangeText]
  split_ifs
  · exact hlow
  · exact hlow.append hhigh
  · exact hlow.append (hhyphen.append hhigh)

theorem covered_shorthandText (cls : CharClass) : Covered depth depth cls.shorthandText := by
  have hword : Covered depth depth CharClass.wordText := by
    apply covered_brackets (t := [':', 'w', 'o', 'r', 'd', ':'])
    exact covered_harmless (by simp [IsHarmless, CharClass.asciiBlanks])
  have hdigit : Covered depth depth CharClass.digitText := by
    apply covered_brackets (t := [':', 'd', 'i', 'g', 'i', 't', ':'])
    exact covered_harmless (by simp [IsHarmless, CharClass.asciiBlanks])
  have hspace : Covered depth depth CharClass.spaceText := by
    apply covered_brackets (t := [':', 's', 'p', 'a', 'c', 'e', ':'])
    exact covered_harmless (by simp [IsHarmless, CharClass.asciiBlanks])
  have hif : ∀ (yes : Bool) {t : Text}, Covered depth depth t → Covered depth depth (if yes then t else []) := by
    intro yes t ht
    split_ifs
    · exact ht
    · exact covered_nil
  exact ((hif cls.word hword).append (hif cls.digit hdigit)).append (hif cls.space hspace)

theorem covered_class (cls : CharClass) : Covered depth depth cls.pattern := by
  unfold CharClass.pattern
  split
  · exact covered_harmless (by simp [nothingText, IsHarmless, CharClass.asciiBlanks])
  · exact covered_quoteChar _
  · apply covered_brackets
    apply Covered.append
    · exact covered_flatMap covered_rangeText _
    · exact covered_shorthandText cls

/-! ### Patterns -/

def patternMarks : Text := ['(', '?', ':', '<', '>', ')', '!', '|', '+', '\x7b', '\x7d', 'i', 'm', '-', 'x']

theorem covered_marks (h : t ⊆ patternMarks) : Covered depth depth t := by
  apply covered_harmless
  intro c hc
  have hmem := h hc
  simp only [patternMarks, List.mem_cons, List.not_mem_nil, or_false] at hmem
  rcases hmem with rfl | rfl | rfl | rfl | rfl | rfl | rfl | rfl | rfl | rfl | rfl | rfl | rfl | rfl | rfl <;>
    simp [IsHarmless, CharClass.asciiBlanks]

theorem covered_count (n : Nat) : Covered depth depth (countText n) := by
  have hopen : Covered depth depth ['\x7b'] := covered_marks (by decide)
  have hdigits : Covered depth depth (Nat.toDigits 10 n) := by
    apply covered_harmless
    intro c hc
    apply harmless_of_test Char.isDigit
    · exact Nat.isDigit_of_mem_toDigits (by decide) (by decide) hc
    · exact List.all_iff_forall_prop.1 (by decide)
  exact (hopen.append hdigits).append (covered_marks (by decide))

/-- What is put together from covered texts is covered. -/
theorem covered_assembled {mode : Mode} {known : Text → Prop} (hknown : ∀ {t}, known t → Covered depth depth t)
    (h : Assembled mode known t) : Covered depth depth t := by
  induction h with
  | empty => exact covered_nil
  | char c => exact covered_quoteChar c
  | set cls => exact covered_class cls
  | verbatim h => exact hknown h
  | append _ _ ihs iht => exact ihs.append iht
  | group closed _ ih =>
    have hopen : Covered depth depth (mode.groupStart closed) := by
      cases mode <;> cases closed <;> exact covered_marks (by decide)
    exact (hopen.append ih).append (covered_marks (by decide))
  | bar => exact covered_marks (by decide)
  | nothing => exact covered_marks (by decide)
  | mark closed => cases mode <;> cases closed <;> exact covered_marks (by decide)
  | count n => exact covered_count n

theorem covered_assertion (h : t ∈ leftAssertions ++ rightAssertions) : Covered depth depth t := by
  simp only [leftAssertions, rightAssertions, List.cons_append, List.nil_append, List.mem_cons, List.not_mem_nil,
    or_false] at h
  rcases h with rfl | rfl | rfl | rfl | rfl | rfl
  · exact covered_escaped 'b'
  · exact covered_escaped 'A'
  · exact covered_harmless (by simp [IsHarmless, CharClass.asciiBlanks])
  · exact covered_escaped 'b'
  · exact covered_escaped 'z'
  · exact covered_harmless (by simp [IsHarmless, CharClass.asciiBlanks])

theorem harmless_groupName {name : Text} (h : isGroupName name = true) : ∀ c ∈ name, IsHarmless c := by
  intro c hc
  apply harmless_of_test fun d => Unicode.isAlphanumeric d || d = '_'
  · exact isGroupName_all h c hc
  · exact List.all_iff_forall_prop.1 (by decide +kernel)

/-- What stands around the text of a tree exposes nothing more. -/
theorem covered_wholePattern {settings : Settings} {root : Node}
    (hname : ∀ name, settings.name = some name → isGroupName name = true)
    (h : Covered 0 0 (root.pattern settings.mode)) : Covered 0 0 (settings.wholePattern root) := by
  have hclose : Covered 0 0 [')'] := covered_marks (by decide)
  apply wholePattern_induction (P := fun _ t => Covered 0 0 t) hname _ _ _ h
  · intro t ht
    exact covered_assembled id (.group true (.verbatim ht))
  · intro i m x t ht _
    have hflags : Covered 0 0 (['(', '?'] ++ flagsText i m x ++ [':']) := by
      cases i <;> cases m <;> cases x <;> exact covered_marks (by decide)
    simpa using (hflags.append ht).append hclose
  · intro t name ht hvalid
    have hopen : Covered 0 0 ['(', '?', '<'] := covered_marks (by decide)
    have hnamed := (hopen.append (covered_harmless (harmless_groupName hvalid))).append (covered_marks (t := ['>']) (by decide))
    simpa using (hnamed.append ht).append hclose

end Covered

/-- Without specials, a blank is never exposed in a pattern, and `#` only inside brackets. -/
theorem safe_of_mem_exposed {o : Options} {g : Generator} (hbound : o.bound.IsFixed) (hspecials : o.specials = [])
    (hextended : o.notExtended = false) (hblanks : o.normalizeBlanks = false) (hg : Generator.ofOptions o = .ok g)
    {words : List Text} {t : Text} (ht : g.pattern words = .ok (some t)) :
    ∀ x ∈ Text.exposed 0 t, x.2 ∉ CharClass.asciiBlanks ∧ (x.2 = '#' → 0 < x.1) := by
  obtain ⟨settings, hsettings, rfl⟩ := map_eq_ok hg
  obtain ⟨made, hmade, hpattern⟩ := map_eq_ok ht
  obtain ⟨generation, rfl, rfl⟩ := Option.map_eq_some_iff.1 hpattern
  have hmade := made_of_generate hmade
  obtain ⟨hleft, hright⟩ := Settings.fixed_of_isFixed hsettings hbound
  have hrules := Settings.rules_eq_nil hsettings (Options.allSpecials_eq_nil hspecials hextended hblanks)
  obtain ⟨hname, _, _, -, -, heq⟩ := Settings.ofOptions_eq_ok hsettings
  have htree : Covered 0 0 (generation.root.pattern settings.mode) := by
    have hknown : ∀ {p}, p ∈ leftAssertions ++ rightAssertions → Covered 0 0 p := covered_assertion
    apply covered_assembled hknown
    apply hmade.assembled
    · intro rule hrule
      rw [hrules] at hrule
      exact absurd hrule List.not_mem_nil
    · exact fun p hp => List.mem_append_left _ (hleft p hp)
    · exact fun p hp => List.mem_append_right _ (hright p hp)
  obtain ⟨xs, hxs, hsafe⟩ := covered_wholePattern (by rw [heq]; exact hname) htree
  rw [hmade.pattern]
  have hall := hxs []
  rw [List.append_nil, Text.exposed, List.append_nil] at hall
  rwa [hall]

/-- A class whose first range begins with a blank and ends with `#`. -/
theorem safe_of_mem_exposed_range : ∃ g, Generator.ofOptions { bound := .word .both, ignoreCase := true } = .ok g ∧
    g.pattern [['!'], ['#'], [' '], ['"']] = .ok (some ['(', '?', 'i', ':', '[', '\\', ' ', '-', '#', ']', ')']) ∧
    ∀ x ∈ Text.exposed 0 ['(', '?', 'i', ':', '[', '\\', ' ', '-', '#', ']', ')'],
      x.2 ∉ CharClass.asciiBlanks ∧ (x.2 = '#' → 0 < x.1) := by
  obtain ⟨g, hg⟩ : ∃ g, Generator.ofOptions { bound := .word .both, ignoreCase := true } = .ok g := ⟨_, rfl⟩
  have hpattern : ((Generator.ofOptions { bound := .word .both, ignoreCase := true }).bind fun g =>
      g.pattern [['!'], ['#'], [' '], ['"']]) =
        .ok (some ['(', '?', 'i', ':', '[', '\\', ' ', '-', '#', ']', ')']) := by
    decide +kernel
  rw [hg] at hpattern
  exact ⟨g, hg, hpattern, @safe_of_mem_exposed { bound := .word .both, ignoreCase := true } g trivial rfl rfl rfl hg _ _ hpattern⟩

/-- Inside brackets `#` is written as it is. -/
theorem exposed_number_sign :
    ((Generator.ofOptions {}).bind fun g => g.pattern [['#'], ['a']]) = .ok (some ['[', '#', 'a', ']']) ∧
      (1, '#') ∈ Text.exposed 0 ['[', '#', 'a', ']'] := by
  decide +kernel

end WordPattern
