import WordPattern.Unicode.Blank

/-! Texts and how they are cut: at the characters that satisfy a test, into lines, and into the fields between
blanks. -/

namespace WordPattern

/-- A text is the list of its characters. -/
abbrev Text := List Char

namespace Text

/-- The pieces of a text between the characters that satisfy `cut`; there is always at least one. -/
def pieces (cut : Char → Bool) : Text → List Text
  | [] => [[]]
  | c :: text => if cut c then [] :: pieces cut text else (pieces cut text).modifyHead (c :: ·)

/-- The non-empty pieces between blanks. -/
def fields (text : Text) : List Text := (text.pieces Unicode.isBlank).filter (!·.isEmpty)

/-- Drops the last character if it is a carriage return. -/
def dropReturn (line : Text) : Text := if line.getLast? = some '\r' then line.dropLast else line

/-- The lines of a text. A line ends at a line feed, or at a carriage return before one; text after the last line feed
is a line if there is any. -/
def lines (text : Text) : List Text :=
  let all := text.pieces (· = '\n')
  all.dropLast.map dropReturn ++ (all.getLast?.toList.filter (!·.isEmpty))

/-- Drops blanks at both ends. -/
def trim (text : Text) : Text :=
  ((text.dropWhile Unicode.isBlank).reverse.dropWhile Unicode.isBlank).reverse

/-- The texts of a list one after the other, with `separator` between them. -/
def join (separator : Text) : List Text → Text
  | [] => []
  | [t] => t
  | t :: rest => t ++ separator ++ join separator rest

/-- The number of bytes that a text takes in UTF-8. -/
def byteCount : Text → Nat
  | [] => 0
  | c :: text => c.utf8Size + byteCount text

theorem pieces_ne_nil (cut : Char → Bool) (text : Text) : text.pieces cut ≠ [] := by
  induction text with
  | nil => simp [pieces]
  | cons c text ih => simp only [pieces]; split <;> simp [ih]

end Text

end WordPattern
