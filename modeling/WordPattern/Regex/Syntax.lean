import WordPattern.Text.Pieces
import WordPattern.Unicode.Case
import WordPattern.Unicode.Letter
import WordPattern.Unicode.Recent

/-! Regular expressions: sets of characters, assertions, and the expression tree. Named sets and case are those of
Unicode 16. -/

namespace WordPattern.Regex

/-- Characters that came later are in no named set and have no case. -/
def knows (c : Char) : Bool := !Unicode.isRecent c

def isWordCharacter (c : Char) : Bool := Unicode.isWordCharacter c && knows c

/-- The representative of a character under simple case folding. -/
def fold (c : Char) : Char := if knows c then Unicode.fold c else c

/-- The characters that fold to the same one as `c`. -/
def foldClass (c : Char) : List Char := if knows c then (Unicode.foldClass c).filter knows else [c]

/-- Sets of characters that have a name. -/
inductive NamedSet where
  | digit | space | word | uppercase
  | ascii
  | asciiAlphanumeric | asciiAlpha | asciiUpper | asciiLower | asciiDigit | asciiHexDigit | asciiWord
  | asciiSpace | asciiBlank | asciiControl | asciiPunctuation | asciiGraphic | asciiPrintable
  deriving DecidableEq, Repr

def NamedSet.contains (s : NamedSet) (c : Char) : Bool :=
  match s with
  | .digit => Unicode.isDecimalDigit c && knows c
  | .space => Unicode.isBlank c
  | .word => isWordCharacter c
  | .uppercase => Unicode.isUppercaseLetter c && knows c
  | .ascii => c ≤ '\x7F'
  | .asciiAlphanumeric => c.isAlphanum
  | .asciiAlpha => c.isAlpha
  | .asciiUpper => c.isUpper
  | .asciiLower => c.isLower
  | .asciiDigit => c.isDigit
  | .asciiHexDigit => c.isDigit || ('a' ≤ c && c ≤ 'f') || ('A' ≤ c && c ≤ 'F')
  | .asciiWord => c.isAlphanum || c = '_'
  | .asciiSpace => c ∈ ['\t', '\n', '\x0B', '\x0C', '\r', ' ']
  | .asciiBlank => c = '\t' || c = ' '
  | .asciiControl => c < ' ' || c = '\x7F'
  | .asciiPunctuation => '!' ≤ c && c ≤ '~' && !c.isAlphanum
  | .asciiGraphic => '!' ≤ c && c ≤ '~'
  | .asciiPrintable => ' ' ≤ c && c ≤ '~'

/-- A part of a bracketed set. -/
inductive SetItem where
  | range (low high : Char)
  | named (set : NamedSet) (negated : Bool)
  deriving DecidableEq, Repr

/-- Whether a test holds of a character, or with `folded` of one of the same fold class. -/
def holdsOf (folded : Bool) (test : Char → Bool) (c : Char) : Bool :=
  if folded then (foldClass c).any test else test c

/-- The complement of a named set is taken after folding. -/
def SetItem.contains (folded : Bool) (item : SetItem) (c : Char) : Bool :=
  match item with
  | .range low high => holdsOf folded (fun c => low ≤ c && c ≤ high) c
  | .named set negated => holdsOf folded set.contains c != negated

structure CharSet where
  items : List SetItem
  negated : Bool
  folded : Bool
  deriving DecidableEq, Repr

def CharSet.contains (s : CharSet) (c : Char) : Bool := s.items.any (·.contains s.folded c) != s.negated

/-- Assertions that look at the neighbouring characters only. -/
inductive Anchor where
  | textStart | textEnd | lineStart | lineEnd
  | wordEdge | notWordEdge | wordStart | wordEnd | noWordBefore | noWordAfter
  deriving DecidableEq, Repr

/-- Whether an assertion asks for word characters. -/
def Anchor.readsWords : Anchor → Bool
  | .textStart | .textEnd | .lineStart | .lineEnd => false
  | _ => true

inductive Direction where
  | ahead | behind
  deriving DecidableEq, Repr

/-- How many characters the matches of an expression take: `least` or more, and if `fixed` exactly so many. -/
structure Size where
  least : Nat
  fixed : Bool
  deriving DecidableEq, Repr

/-- A sequence is a chain of `seq` that ends in `empty`, and a choice is a chain of `alt` that ends in `fail`; what
stands first in a link is an item or a branch of its own. -/
inductive Expr where
  | empty
  | fail
  | char (c : Char) (folded : Bool)
  | set (s : CharSet)
  | anyChar (newline : Bool)
  | anchor (a : Anchor)
  | seq (first rest : Expr)
  | alt (first rest : Expr)
  /-- At least `low` rounds of the body and at most `high`; more rounds are tried first if `greedy`. -/
  | rounds (low : Nat) (high : Option Nat) (greedy : Bool) (body : Expr)
  | capture (group : Nat) (body : Expr)
  /-- The first way to match the body is the only one tried. -/
  | atomic (body : Expr)
  | look (direction : Direction) (negated : Bool) (body : Expr)
  /-- The text that the group matched last. The size is the one that is known where the expression stands. -/
  | backref (group : Nat) (folded : Bool) (size : Size)
  deriving DecidableEq, Repr

namespace Expr

/-- One expression after the other. -/
def sequence : List Expr → Expr
  | [] => empty
  | [e] => e
  | items => items.foldr seq empty

/-- The first expression or else the following ones. -/
def choice : List Expr → Expr
  | [] => fail
  | [e] => e
  | branches => branches.foldr alt fail

/-- Nothing and looks cannot be repeated. -/
def isRepeatable : Expr → Bool
  | empty | look _ _ _ => false
  | _ => true

/-- Nothing but line feeds is left. -/
def beforeFinalNewlines : Expr := look .ahead false (sequence [rounds 0 none true (char '\n' false), anchor .textEnd])

end Expr

end WordPattern.Regex
