import WordPattern.Regex.Quote
import WordPattern.Text.Ascending

/-! Character classes: finite sets of characters in which the digits, the word characters and the blanks of ASCII can
stand as a whole, and their text. -/

namespace WordPattern

/-- Adjacent characters as inclusive ranges. A range grows while each character is the successor of the one before. -/
def ranges : List Char → List (Char × Char)
  | [] => []
  | c :: rest =>
    match ranges rest with
    | (low, high) :: more => if c.toNat + 1 = low.toNat then (c, high) :: more else (c, c) :: (low, high) :: more
    | [] => [(c, c)]

/-- A pattern that matches nothing. -/
def nothingText : Text := ['(', '?', '!', ')']

structure CharClass where
  /-- The members that no shorthand stands for. -/
  chars : List Char
  word : Bool
  digit : Bool
  space : Bool
  deriving DecidableEq, Repr

namespace CharClass

def asciiDigits : List Char := ['0', '1', '2', '3', '4', '5', '6', '7', '8', '9']

def asciiBlanks : List Char := ['\t', '\n', '\x0B', '\x0C', '\r', ' ']

def asciiLower : List Char :=
  ['a', 'b', 'c', 'd', 'e', 'f', 'g', 'h', 'i', 'j', 'k', 'l', 'm', 'n', 'o', 'p', 'q', 'r', 's', 't', 'u', 'v', 'w',
   'x', 'y', 'z']

def asciiUpper : List Char :=
  ['A', 'B', 'C', 'D', 'E', 'F', 'G', 'H', 'I', 'J', 'K', 'L', 'M', 'N', 'O', 'P', 'Q', 'R', 'S', 'T', 'U', 'V', 'W',
   'X', 'Y', 'Z']

/-- ASCII word characters; where case is ignored the lower case stands for both. -/
def asciiWordChars (ignoreCase : Bool) : List Char :=
  asciiDigits ++ (if ignoreCase then [] else asciiUpper) ++ asciiLower ++ ['_']

/-- Takes out the characters of a shorthand if all of them are there. -/
def takeOut (shorthand chars : List Char) : List Char × Bool :=
  if shorthand.all (chars.contains ·) then (chars.filter (!shorthand.contains ·), true) else (chars, false)

/-- The class of the given characters. Digits are looked for only if not all word characters are there. -/
def ofChars (chars : List Char) (ignoreCase : Bool) : CharClass :=
  let (chars, word) := takeOut (asciiWordChars ignoreCase) (ascending chars)
  let (chars, digit) := if word then (chars, false) else takeOut asciiDigits chars
  let (chars, space) := takeOut asciiBlanks chars
  { chars, word, digit, space }

/-- All characters that the class stands for. -/
def members (cls : CharClass) : List Char :=
  cls.chars ++ (if cls.word then asciiWordChars false else []) ++ (if cls.digit then asciiDigits else []) ++
    (if cls.space then asciiBlanks else [])

/-- The text of a range inside brackets. Two neighbours need no hyphen. -/
def rangeText (range : Char × Char) : Text :=
  let (low, high) := range
  if high = low then Regex.quoteClassChar low
  else if high.toNat = low.toNat + 1 then Regex.quoteClassChar low ++ Regex.quoteClassChar high
  else Regex.quoteClassChar low ++ '-' :: Regex.quoteClassChar high

def wordText : Text := ['[', ':', 'w', 'o', 'r', 'd', ':', ']']
def digitText : Text := ['[', ':', 'd', 'i', 'g', 'i', 't', ':', ']']
def spaceText : Text := ['[', ':', 's', 'p', 'a', 'c', 'e', ':', ']']

/-- The shorthands of the class inside brackets. -/
def shorthandText (cls : CharClass) : Text :=
  (if cls.word then wordText else []) ++ (if cls.digit then digitText else []) ++ (if cls.space then spaceText else [])

/-- The class as a regular expression. -/
def pattern (cls : CharClass) : Text :=
  match cls.chars, cls.shorthandText with
  | [], [] => nothingText
  | [c], [] => Regex.quoteChar c
  | chars, shorthand => '[' :: (ranges chars).flatMap rangeText ++ shorthand ++ [']']

end CharClass

end WordPattern
