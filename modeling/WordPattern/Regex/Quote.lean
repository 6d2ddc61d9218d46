import WordPattern.Text.Pieces

/-! Writing characters so that a regular expression takes them literally. Space and `#` are escaped as well, so the
result also stands for itself where blanks and comments are skipped. The hyphen has a meaning inside brackets only. -/

namespace WordPattern.Regex

/-- The escape of an ASCII blank. -/
def blankEscape? (c : Char) : Option Text :=
  match c with
  | ' ' => some ['\\', ' ']
  | '\t' => some ['\\', 't']
  | '\n' => some ['\\', 'n']
  | '\r' => some ['\\', 'r']
  | '\x0B' => some ['\\', 'x', '0', 'B']
  | '\x0C' => some ['\\', 'x', '0', 'C']
  | _ => none

/-- Characters with a meaning of their own outside brackets. -/
def isSyntaxChar (c : Char) : Bool :=
  c ∈ ['\\', '.', '*', '+', '?', '(', ')', '[', ']', '\x7b', '\x7d', '|', '^', '$', '#']

/-- Characters with a meaning of their own inside brackets. -/
def isClassSyntaxChar (c : Char) : Bool :=
  c ∈ ['[', ']', '\\', '-', '^', '&', '~']

/-- One character outside brackets. -/
def quoteChar (c : Char) : Text :=
  (blankEscape? c).getD (if isSyntaxChar c then ['\\', c] else [c])

/-- One character inside brackets. -/
def quoteClassChar (c : Char) : Text :=
  (blankEscape? c).getD (if isClassSyntaxChar c then ['\\', c] else [c])

/-- Characters that do not stand for themselves outside brackets. -/
def needsQuote (c : Char) : Bool := isSyntaxChar c || (blankEscape? c).isSome

/-- A text outside brackets. It is left as it is if all its characters stand for themselves. -/
def quote (text : Text) : Text := if text.any needsQuote then text.flatMap quoteChar else text

theorem quoteChar_of_plain {c : Char} (h : needsQuote c = false) : quoteChar c = [c] := by
  simp only [needsQuote, Bool.or_eq_false_iff, Option.isSome_eq_false_iff, Option.isNone_iff_eq_none] at h
  simp [quoteChar, h.1, h.2]

theorem flatMap_quoteChar_of_plain {text : Text} (h : ∀ c ∈ text, needsQuote c = false) :
    text.flatMap quoteChar = text := by
  induction text with
  | nil => rfl
  | cons c rest ih =>
    obtain ⟨hc, hrest⟩ := List.forall_mem_cons.1 h
    rw [List.flatMap_cons, quoteChar_of_plain hc, ih hrest, List.singleton_append]

/-- Each character is quoted by itself. -/
theorem quote_eq_flatMap (text : Text) : quote text = text.flatMap quoteChar := by
  unfold quote
  split
  · rfl
  · rename_i hplain
    refine (flatMap_quoteChar_of_plain fun c hc => ?_).symm
    simpa using fun hquote => hplain (List.any_eq_true.2 ⟨c, hc, hquote⟩)

end WordPattern.Regex
