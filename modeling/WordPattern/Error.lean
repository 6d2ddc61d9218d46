import WordPattern.Regex.Token
import WordPattern.Text.Quoted

/-! What can go wrong, and how it is told. -/

namespace WordPattern

def Regex.SyntaxError.message : SyntaxError → String
  | .unfinishedEscape => "backslash at the end"
  | .unknownEscape c => "unknown escape \\" ++ c.toString
  | .unclosedSet => "unclosed set"
  | .badRange low high => "range out of order: " ++ low.toString ++ "-" ++ high.toString
  | .setInRange => "set at an end of a range"
  | .setOperator => "operator on sets"
  | .unclosedGroup => "unclosed group"
  | .unopenedGroup => "unopened group"
  | .badGroup => "ill-formed group"
  | .badFlag c => "unknown flag " ++ c.toString
  | .nothingToRepeat => "nothing to repeat"
  | .badCount low high => "repeat count out of order: " ++ toString low ++ "," ++ toString high
  | .tooLarge => "too many repeats"
  | .unknownGroup name => "unknown group " ++ String.ofList name
  | .unboundedLookBehind => "look-behind of unknown length"
  | .tooDeep => "groups nested too deeply"

/-- Why something was refused. -/
inductive Reason where
  | syntaxError (e : Regex.SyntaxError)
  | emptyLiteral
  | noPlaceholderLeft
  /-- The special keys matched a text, but none of them is responsible. -/
  | unclaimed (text : Text)
  | given (text : Text)
  deriving DecidableEq, Repr

def Reason.message : Reason → String
  | .syntaxError e => e.message
  | .emptyLiteral => "empty literal"
  | .noPlaceholderLeft => "no codepoints left for placeholders"
  | .unclaimed text => "no special matched " ++ String.ofList text.quoted
  | .given text => String.ofList text

inductive Error where
  | invalidName (name : Text)
  | missingBound
  | badBoundaryTest (test : Text) (reason : Reason)
  | badBoundaryPattern (pattern : Text) (reason : Reason)
  | missingPattern (key : Text)
  | badKey (key : Text) (reason : Reason)
  | malformedSpecial (key pattern : Text)
  | compile (reason : Reason)
  deriving DecidableEq, Repr

def Error.message : Error → String
  | .invalidName name => String.ofList name ++ " does not work as the name of a named group"
  | .missingBound => "neither bound provided"
  | .badBoundaryTest test reason => "bad boundary test " ++ String.ofList test ++ ": " ++ reason.message
  | .badBoundaryPattern pattern _ => "bad boundary pattern: " ++ String.ofList pattern
  | .missingPattern key => "symbol " ++ String.ofList key ++ " requires a pattern"
  | .badKey key reason => "special key " ++ String.ofList key ++ " is not a valid regex: " ++ reason.message
  | .malformedSpecial key pattern =>
    "the symbol " ++ String.ofList key ++ " has an ill-formed pattern: " ++ String.ofList pattern
  | .compile reason => "compilation error: " ++ reason.message

end WordPattern
