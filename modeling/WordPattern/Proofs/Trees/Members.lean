import WordPattern.Proofs.Trees.Products
import WordPattern.CharClass
import WordPattern.Regex.Syntax
import Mathlib.Data.Bool.AllAny
import Mathlib.Tactic.SplitIfs
import Mathlib.Tactic.Tauto

/-! The members of the class of given characters. -/

namespace WordPattern.CharClass

theorem mem_takeOut (shorthand chars : List Char) (c : Char) :
    c ∈ chars ↔ c ∈ (takeOut shorthand chars).1 ∨ ((takeOut shorthand chars).2 = true ∧ c ∈ shorthand) := by
  unfold takeOut
  split_ifs with h
  · have hall : ∀ d ∈ shorthand, d ∈ chars := by simpa using h
    by_cases hc : c ∈ shorthand
    · simp [hc, hall c hc]
    · simp [hc]
  · simp

theorem takeOut_eq_true {shorthand chars : List Char} :
    (takeOut shorthand chars).2 = true ↔ ∀ d ∈ shorthand, d ∈ chars := by
  unfold takeOut
  split_ifs with h
  · simpa using h
  · simpa using h

theorem mem_asciiWordChars {ignoreCase : Bool} {c : Char} (h : c ∈ asciiWordChars ignoreCase) :
    c ∈ asciiWordChars false := by
  cases ignoreCase with
  | false => exact h
  | true =>
    simp only [asciiWordChars, if_true, List.append_nil, List.mem_append] at h ⊢
    exact h.imp_left fun h => h.imp_left .inl

/-- A class has the characters that it is made of, and where case is ignored all word characters of ASCII if it is made
of the lower case ones. -/
theorem mem_members_ofChars {chars : List Char} {ignoreCase : Bool} {c : Char} :
    c ∈ (ofChars chars ignoreCase).members ↔
      c ∈ chars ∨ (c ∈ asciiWordChars false ∧ ∀ d ∈ asciiWordChars ignoreCase, d ∈ chars) := by
  have hword : (takeOut (asciiWordChars ignoreCase) (ascending chars)).2 = true ↔
      ∀ d ∈ asciiWordChars ignoreCase, d ∈ chars := by simp only [takeOut_eq_true, mem_ascending]
  have hchars : c ∈ chars ↔ _ := mem_ascending.symm.trans (mem_takeOut (asciiWordChars ignoreCase) (ascending chars) c)
  rw [← hword, hchars]
  have hin : c ∈ asciiWordChars ignoreCase → c ∈ asciiWordChars false := mem_asciiWordChars
  unfold ofChars
  generalize takeOut (asciiWordChars ignoreCase) (ascending chars) = first
  obtain ⟨rest, word⟩ := first
  cases word with
  | true =>
    have hspace := mem_takeOut asciiBlanks rest c
    simp only [members, if_true, List.mem_append, hspace, List.mem_ite_nil_right, Bool.false_eq_true, false_and]
    clear hspace hchars hword
    generalize asciiWordChars ignoreCase = lower, asciiWordChars false = all, asciiBlanks = blanks at hin ⊢
    tauto
  | false =>
    have hdigit := mem_takeOut asciiDigits rest c
    have hspace := mem_takeOut asciiBlanks (takeOut asciiDigits rest).1 c
    simp only [members, Bool.false_eq_true, if_false, List.mem_append, hdigit, hspace, List.mem_ite_nil_right, false_and,
      and_false, or_false]
    clear hdigit hspace hchars hword hin
    generalize asciiDigits = digits, asciiBlanks = blanks
    tauto

/-- Where case counts, the members are the characters. -/
theorem mem_ofChars {chars : List Char} {c : Char} : c ∈ (ofChars chars false).members ↔ c ∈ chars := by
  rw [mem_members_ofChars]
  exact ⟨fun h => h.elim id fun h => h.2 c h.1, .inl⟩

theorem fold_toLower : ∀ c ∈ asciiWordChars false,
    c.toLower ∈ asciiWordChars true ∧ Regex.fold c.toLower = Regex.fold c :=
  List.all_iff_forall_prop.1 (by decide +kernel)

/-- Where case is ignored, each member folds as a character that the class is made of does: the upper case in a class of
word characters folds as the lower case. -/
theorem exists_fold_eq {chars : List Char} {c : Char} (h : c ∈ (ofChars chars true).members) :
    ∃ d ∈ chars, Regex.fold d = Regex.fold c := by
  rcases mem_members_ofChars.1 h with hc | ⟨hword, hall⟩
  · exact ⟨c, hc, rfl⟩
  · obtain ⟨hlower, hfold⟩ := fold_toLower c hword
    exact ⟨c.toLower, hall _ hlower, hfold⟩

theorem perm_takeOut {shorthand chars : List Char} (hs : shorthand.Nodup) (h : chars.Nodup) :
    ((takeOut shorthand chars).1 ++ if (takeOut shorthand chars).2 then shorthand else []).Perm chars := by
  refine (List.perm_ext_iff_of_nodup ?_ h).2 fun c => ?_
  · unfold takeOut
    by_cases hall : shorthand.all (chars.contains ·) = true
    · simp only [hall, if_true]
      refine (h.filter _).append hs fun c hc hc' => ?_
      simpa [hc'] using (List.mem_filter.1 hc).2
    · simpa only [hall, Bool.false_eq_true, if_false, List.append_nil] using h
  · rw [mem_takeOut shorthand chars c, List.mem_append, List.mem_ite_nil_right]

theorem nodup_asciiWordChars : (asciiWordChars false).Nodup := by decide

/-- Where case counts, the members are the characters, each of them once. -/
theorem perm_members_ofChars (chars : List Char) : (ofChars chars false).members.Perm (ascending chars) := by
  have hchars : (ascending chars).Nodup := (pairwise_ascending chars).imp fun hlt => ne_of_irrefl hlt
  have hword := perm_takeOut nodup_asciiWordChars hchars
  unfold ofChars
  generalize takeOut (asciiWordChars false) (ascending chars) = first at hword
  obtain ⟨rest, word⟩ := first
  have hrest : rest.Nodup := (List.nodup_append.1 (hword.nodup_iff.2 hchars)).1
  cases word with
  | true =>
    have hspace := perm_takeOut (show asciiBlanks.Nodup by decide) hrest
    simp only [members, if_true, Bool.false_eq_true, if_false, List.append_nil] at hword ⊢
    rw [List.append_assoc]
    refine ((List.perm_append_comm.append_left _).trans ?_).trans hword
    rw [← List.append_assoc]
    exact hspace.append_right _
  | false =>
    have hdigit := perm_takeOut (show asciiDigits.Nodup by decide) hrest
    have hspace := perm_takeOut (show asciiBlanks.Nodup by decide)
      (List.nodup_append.1 (hdigit.nodup_iff.2 hrest)).1
    simp only [members, Bool.false_eq_true, if_false, List.append_nil] at hword ⊢
    rw [List.append_assoc]
    refine ((List.perm_append_comm.append_left _).trans ?_).trans (hdigit.trans hword)
    rw [← List.append_assoc]
    exact hspace.append_right _

end WordPattern.CharClass
