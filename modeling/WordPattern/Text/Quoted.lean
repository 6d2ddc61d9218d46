import WordPattern.Text.Pieces
import WordPattern.Unicode.Visible

/-! Texts between double quotes, with every character shown: the quote, the backslash and four controls by a short
escape, and characters that cannot stand on their own by their code point. -/

namespace WordPattern.Text

/-- The escape of one character. -/
def showChar (c : Char) : Text :=
  match c with
  | '\x00' => ['\\', '0']
  | '\t' => ['\\', 't']
  | '\r' => ['\\', 'r']
  | '\n' => ['\\', 'n']
  | '"' => ['\\', '"']
  | '\\' => ['\\', '\\']
  | c =>
    if Unicode.isVisible c then [c]
    else ['\\', 'u', '\x7b'] ++ Nat.toDigits 16 c.toNat ++ ['\x7d']

/-- A text between double quotes. -/
def quoted (text : Text) : Text := '"' :: text.flatMap showChar ++ ['"']

/-- A list of quoted texts in brackets. -/
def quotedList (texts : List Text) : Text :=
  '[' :: join [',', ' '] (texts.map quoted) ++ [']']

end WordPattern.Text
