import WordPattern.Mode

/-! What a caller can ask for. -/

namespace WordPattern

/-- The ends of a word at which a boundary is asked for. -/
inductive Edges where
  | both | left | right
  deriving DecidableEq, Repr

def Edges.hasLeft (e : Edges) : Bool := e != .right

def Edges.hasRight (e : Edges) : Bool := e != .left

/-- What has to hold at the ends of a word. -/
inductive Bound where
  | none
  /-- The edge of a word, next to word characters. -/
  | word (edges : Edges)
  /-- The ends of the text. -/
  | text (edges : Edges)
  /-- The ends of a line. -/
  | line (edges : Edges)
  /-- Given patterns, next to characters that match `test`. -/
  | custom (test : Text) (left right : Option Text)
  deriving DecidableEq, Repr

/-- What a special stands for in the words. -/
inductive Key where
  | literal (text : Text)
  | regex (source : Text)
  deriving DecidableEq, Repr

/-- The key as messages show it: a regular expression between slashes. -/
def Key.display : Key → Text
  | .literal text => text
  | .regex source => '/' :: source ++ ['/']

/-- What is written for a special. -/
structure Special where
  /-- The pattern to write; without one the key has to be a regular expression. -/
  pattern : Option Text := none
  /-- Whether a repeat count can follow the pattern without a group. -/
  atomic : Option Bool := none
  /-- A left boundary may stand before it. -/
  left : Bool := false
  /-- A right boundary may stand after it. -/
  right : Bool := false
  deriving DecidableEq, Repr

/-- The special of a key in place of an earlier one of the same key, else at the end. -/
def putSpecial (key : Key) (special : Special) : List (Key × Special) → List (Key × Special)
  | [] => [(key, special)]
  | (k, s) :: rest => if k = key then (k, special) :: rest else (k, s) :: putSpecial key special rest

structure Options where
  /-- The whole pattern takes a repeat count. -/
  atomic : Bool := true
  mode : Mode := .backtracking
  bound : Bound := .none
  trim : Bool := false
  ignoreCase : Bool := false
  multiline : Bool := false
  /-- Blanks and `#` stand for themselves. -/
  notExtended : Bool := false
  /-- Any run of blanks stands for any other. -/
  normalizeBlanks : Bool := false
  specials : List (Key × Special) := []
  name : Option Text := none
  /-- Every special pattern has to compile. -/
  vet : Bool := false
  deriving DecidableEq, Repr

def Options.special (o : Options) (key : Key) (special : Special) : Options :=
  { o with specials := putSpecial key special o.specials }

end WordPattern
