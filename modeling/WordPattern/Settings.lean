import WordPattern.Error
import WordPattern.Options
import WordPattern.Regex.Quote
import WordPattern.Regex.Search

/-! Options that have been checked, with everything that depends on them alone worked out. -/

namespace WordPattern

/-- Tells the characters that a boundary can stand next to. -/
inductive CharTest where
  /-- ASCII word characters. -/
  | word
  /-- Every character but the line feed. -/
  | anyChar
  | custom (regex : Regex)
  deriving DecidableEq, Repr

def CharTest.holds (t : CharTest) (c : Char) : Bool :=
  match t with
  | .word => c.isAlphanum || c = '_'
  | .anyChar => c != '\n'
  | .custom regex => regex.isMatch [c]

structure Boundary where
  test : CharTest
  left : Option Text
  right : Option Text
  deriving DecidableEq, Repr

/-- A special that has been checked. -/
structure Rule where
  key : Key
  /-- The regular expression that finds the key in a word. -/
  finder : Text
  pattern : Text
  atomic : Bool
  left : Bool
  right : Bool
  deriving DecidableEq, Repr

structure Settings where
  atomic : Bool
  mode : Mode
  trim : Bool
  ignoreCase : Bool
  multiline : Bool
  notExtended : Bool
  normalizeBlanks : Bool
  name : Option Text
  boundary : Option Boundary
  rules : List Rule
  vet : Bool
  deriving DecidableEq, Repr

/-- A letter or underscore, and then letters, numbers and underscores. -/
def isGroupName : Text → Bool
  | [] => false
  | c :: rest => (Unicode.isAlphabetic c || c = '_') && rest.all fun d => Unicode.isAlphanumeric d || d = '_'

/-- Compiles a regular expression, with a cause of failure for the error. -/
def compileOr (error : Reason → Error) (source : Text) : Except Error Regex :=
  match Regex.compile source with
  | .ok regex => .ok regex
  | .error e => .error (error (.syntaxError e))

namespace Boundary

/-- A boundary with fixed patterns. -/
def fixed (test : CharTest) (left right : Text) (edges : Edges) : Boundary where
  test := test
  left := if edges.hasLeft then some left else none
  right := if edges.hasRight then some right else none

/-- A boundary with given patterns, of which there must be one. -/
def ofPatterns (test : Text) (left right : Option Text) : Except Error Boundary := do
  if left.isNone && right.isNone then throw .missingBound
  let regex ← compileOr (.badBoundaryTest test) test
  for pattern in left.toList ++ right.toList do
    discard (compileOr (.badBoundaryPattern pattern) pattern)
  return ⟨.custom regex, left, right⟩

def ofBound? : Bound → Except Error (Option Boundary)
  | .none => .ok none
  | .word edges => .ok (some (fixed .word ['\\', 'b'] ['\\', 'b'] edges))
  | .text edges => .ok (some (fixed .anyChar ['\\', 'A'] ['\\', 'z'] edges))
  | .line edges => .ok (some (fixed .anyChar ['^'] ['$'] edges))
  | .custom test left right => some <$> ofPatterns test left right

end Boundary

namespace Rule

/-- A regular expression that is written as it is becomes a group, so a repeat count can follow it. -/
def ofSpecial (key : Key) (special : Special) : Except Error Rule := do
  let rule (finder pattern : Text) (atomic : Bool) : Rule :=
    ⟨key, finder, pattern, special.atomic.getD atomic, special.left, special.right⟩
  match key with
  | .literal text =>
    match special.pattern with
    | none => throw (.missingPattern text)
    | some pattern =>
      if text.isEmpty then throw (.badKey text .emptyLiteral)
      return rule (Regex.quote text) pattern false
  | .regex source =>
    discard (compileOr (.badKey key.display) source)
    match special.pattern with
    | some pattern => return rule source pattern false
    | none => return rule source (['(', '?', ':'] ++ source ++ [')']) true

end Rule

/-- The text that any run of ASCII blanks matches. -/
def blankRunPattern : Text := ['['] ++ ['[', ':', 's', 'p', 'a', 'c', 'e', ':', ']'] ++ [']', '+', '+']

/-- The specials of the options and those that the options imply. -/
def Options.allSpecials (o : Options) : List (Key × Special) :=
  let specials :=
    if o.normalizeBlanks then putSpecial (.literal [' ']) { pattern := some blankRunPattern } o.specials
    else if o.notExtended then putSpecial (.literal [' ']) { pattern := some [' '] } o.specials
    else o.specials
  if o.notExtended then putSpecial (.literal ['#']) { pattern := some ['#'] } specials else specials

namespace Settings

/-- Every special pattern compiles on its own. -/
def checkSpecials (settings : Settings) : Except Error Unit :=
  settings.rules.forM fun rule =>
    match Regex.compile rule.pattern with
    | .ok _ => .ok ()
    | .error _ => .error (.malformedSpecial rule.key.display rule.pattern)

/-- Checks the options: the name first, then the boundary, then the specials in order. -/
def ofOptions (o : Options) : Except Error Settings := do
  if let some name := o.name then
    unless isGroupName name do throw (.invalidName name)
  let boundary ← Boundary.ofBound? o.bound
  let rules ← o.allSpecials.mapM fun (key, special) => Rule.ofSpecial key special
  let settings : Settings :=
    { atomic := o.atomic
      mode := o.mode
      trim := o.trim || o.normalizeBlanks
      ignoreCase := o.ignoreCase
      multiline := o.multiline || (match o.bound with | .line _ => true | _ => false)
      notExtended := o.notExtended
      normalizeBlanks := o.normalizeBlanks
      name := o.name
      boundary := boundary
      rules := rules
      vet := o.vet }
  if settings.vet then settings.checkSpecials
  return settings

/-- The flags for the whole pattern, if there are any. -/
def flags (settings : Settings) : Option Text :=
  let flags := (if settings.ignoreCase then ['i'] else []) ++ (if settings.multiline then ['m'] else []) ++
    (if settings.notExtended then ['-', 'x'] else [])
  if flags.isEmpty then none else some flags

end Settings

end WordPattern
