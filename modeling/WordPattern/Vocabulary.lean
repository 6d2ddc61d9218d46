import WordPattern.SymbolTable

/-! The words of a pattern: filtered, written with placeholders, without repeats and in order. -/

namespace WordPattern

/-- Trims and drops words as configured. With normalized blanks the fields of a word are one space apart. -/
def Settings.filter (settings : Settings) (words : List Text) : List Text :=
  words.filterMap fun word =>
    let word := if settings.trim then word.trim else word
    if word.isEmpty then none
    else if settings.normalizeBlanks then some (Text.join [' '] word.fields)
    else some word

structure Vocabulary where
  words : List Text
  /-- Some word begins with the left boundary. -/
  leftUsed : Bool
  /-- Some word ends with the right boundary. -/
  rightUsed : Bool
  deriving DecidableEq, Repr

/-- A word with the boundaries that it has earned. -/
structure BoundedWord where
  left : Option Char
  body : Text
  right : Option Char
  deriving DecidableEq, Repr

def BoundedWord.text (w : BoundedWord) : Text := w.left.toList ++ w.body ++ w.right.toList

namespace Settings

/-- The characters that stand for a piece. -/
def pieceText (settings : Settings) : Piece → Text
  | .literal text => if settings.ignoreCase then Unicode.lowercase text else text
  | .special s => [s.placeholder]

def passesTest (settings : Settings) (c : Char) : Bool := settings.boundary.any (·.test.holds c)

/-- Whether a left boundary may stand before a piece. -/
def admitsLeft (settings : Settings) (piece : Piece) : Bool :=
  match piece with
  | .literal _ => (settings.pieceText piece).head?.all settings.passesTest
  | .special s => s.verbatim.left

/-- Whether a right boundary may stand after a piece. -/
def admitsRight (settings : Settings) (piece : Piece) : Bool :=
  match piece with
  | .literal _ => (settings.pieceText piece).getLast?.all settings.passesTest
  | .special s => s.verbatim.right

/-- The word that the pieces make up. -/
def boundedWord (settings : Settings) (table : SymbolTable) (pieces : List Piece) : BoundedWord where
  left := if pieces.head?.any settings.admitsLeft then table.left.map (·.placeholder) else none
  body := pieces.flatMap settings.pieceText
  right := if pieces.getLast?.any settings.admitsRight then table.right.map (·.placeholder) else none

end Settings

namespace Vocabulary

/-- The vocabulary of filtered words. -/
def ofWords (settings : Settings) (table : SymbolTable) (words : List Text) : Except Error Vocabulary := do
  let bounded ← words.mapM fun word => (table.cut word).map (settings.boundedWord table)
  return {
    words := ascending ((bounded.map (·.text)).filter (!·.isEmpty))
    leftUsed := bounded.any (·.left.isSome)
    rightUsed := bounded.any (·.right.isSome) }

end Vocabulary

end WordPattern
