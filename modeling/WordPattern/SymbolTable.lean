import WordPattern.Settings
import WordPattern.Node.Basic
import WordPattern.Text.Ascending

/-! Placeholders: single characters that stand for specials and boundaries.

They are taken from above every character in use, so a word in which each special has been replaced by its placeholder
is still a word, and every character of it has one meaning. -/

namespace WordPattern

/-- A placeholder and what it stands for. -/
structure Symbol where
  placeholder : Char
  /-- The name of the symbol in reports. -/
  label : Text
  verbatim : Verbatim
  deriving DecidableEq, Repr

namespace Symbol

def ofRule (placeholder : Char) (rule : Rule) : Symbol where
  placeholder := placeholder
  label := rule.key.display
  verbatim := ⟨rule.pattern, rule.atomic, rule.left, rule.right, .pattern⟩

def leftBoundary (pattern : Text) (placeholder : Char) : Symbol where
  placeholder := placeholder
  label := "left boundary".toList
  verbatim := ⟨pattern, true, false, false, .leftBoundary⟩

/-- The assertion of the end of the text is told apart from other right boundaries. -/
def rightBoundary (pattern : Text) (placeholder : Char) : Symbol where
  placeholder := placeholder
  label := "right boundary".toList
  verbatim := ⟨pattern, true, false, false, if pattern = ['\\', 'z'] then .finish else .rightBoundary⟩

end Symbol

structure SymbolTable where
  /-- The symbols of the specials, in the order of their placeholders. -/
  entries : List Symbol
  left : Option Symbol
  right : Option Symbol
  /-- Finds the specials in a word. -/
  splitter : Option Regex
  deriving DecidableEq, Repr

/-- A piece of a word. -/
inductive Piece where
  | literal (text : Text)
  | special (symbol : Symbol)
  deriving DecidableEq, Repr

/-- The character after a code point; surrogates are not characters. -/
def nextChar? (n : Nat) : Option Char :=
  if n + 1 < 0xD800 then some (Char.ofNat (n + 1))
  else if n + 1 ≤ 0xE000 then some (Char.ofNat 0xE000)
  else if n + 1 ≤ 0x10FFFF then some (Char.ofNat (n + 1))
  else none

/-- The next characters after a code point. -/
def nextChars? (n : Nat) : (count : Nat) → Option (List Char)
  | 0 => some []
  | count + 1 => do
    let c ← nextChar? n
    return c :: (← nextChars? c.toNat count)

/-- The highest code point of a text, or zero. -/
def highest (text : Text) : Nat := text.foldr (fun c n => max c.toNat n) 0

/-- Literal keys come first, later ones in the order of texts before earlier ones, so that a key stands before those
that it begins with; then regular expressions, shorter ones first. -/
def Key.precedes : Key → Key → Bool
  | .literal s, .literal t => t < s
  | .literal _, .regex _ => true
  | .regex _, .literal _ => false
  | .regex s, .regex t => s.byteCount < t.byteCount || (s.byteCount = t.byteCount && s < t)

namespace SymbolTable

/-- The highest code point in the words, the lower case of their characters, and the literal keys. -/
def ceiling (settings : Settings) (words : List Text) : Nat :=
  highest (words.flatMap (fun word => word.flatMap fun c => c :: Unicode.lowerChar c) ++
    settings.rules.flatMap fun rule =>
      match rule.key with
      | .literal text => text
      | .regex _ => [])

/-- The name of the group for the key at an index. -/
def groupName (i : Nat) : Text := ['l', 'm', 's', 'p', 'e', 'c', 'i', 'a', 'l'] ++ Nat.toDigits 10 i

/-- The finders of the keys from an index on, each in a group of its own. -/
def finders (i : Nat) : List Rule → List Text
  | [] => []
  | rule :: rest => (['(', '?', '<'] ++ groupName i ++ '>' :: rule.finder ++ [')']) :: finders (i + 1) rest

/-- The regular expression that finds any of the keys. -/
def splitterOf (rules : List Rule) : Except Error (Option Regex) :=
  if rules.isEmpty then .ok none
  else some <$> compileOr .compile (Text.join ['|'] (finders 0 rules))

/-- The symbols for a list of words. -/
def ofWords (settings : Settings) (words : List Text) : Except Error SymbolTable := do
  let rules := sortBy (fun a b => a.key.precedes b.key) settings.rules
  let leftPattern := settings.boundary.bind (·.left)
  let rightPattern := settings.boundary.bind (·.right)
  let count := rules.length + leftPattern.toList.length + rightPattern.toList.length
  let some placeholders := nextChars? (ceiling settings words) count | throw (.compile .noPlaceholderLeft)
  let boundaries := placeholders.drop rules.length
  return {
    entries := List.zipWith Symbol.ofRule placeholders rules
    left := leftPattern.bind fun pattern => boundaries.head?.map (Symbol.leftBoundary pattern)
    right := rightPattern.bind fun pattern => boundaries.getLast?.map (Symbol.rightBoundary pattern)
    splitter := ← splitterOf rules }

/-- All symbols, in the order of their placeholders. -/
def symbols (table : SymbolTable) : List Symbol := table.entries ++ table.left.toList ++ table.right.toList

def lookup? (table : SymbolTable) (c : Char) : Option Symbol := table.symbols.find? (·.placeholder = c)

def isSymbol (table : SymbolTable) (c : Char) : Bool := (table.lookup? c).isSome

/-- The first symbol whose group took part in a match. -/
def claimant? (splitter : Regex) (m : Regex.Match) (i : Nat) : List Symbol → Option Symbol
  | [] => none
  | s :: rest => if (splitter.named? m (groupName i)).isSome then some s else claimant? splitter m (i + 1) rest

/-- A literal piece, unless it is empty. -/
def literalPiece (text : Text) : List Piece := if text.isEmpty then [] else [.literal text]

/-- The pieces from a place on, given the matches of the splitter from there on. Matches of nothing are passed over. -/
def piecesFrom (table : SymbolTable) (splitter : Regex) (last : Regex.Cursor) :
    List Regex.Match → Except Error (List Piece)
  | [] => .ok (literalPiece last.after)
  | m :: rest =>
    if m.isEmpty then piecesFrom table splitter last rest
    else
      match claimant? splitter m 0 table.entries with
      | none => .error (.compile (.unclaimed m.text))
      | some s => (piecesFrom table splitter m.stop rest).map fun more =>
        literalPiece (last.textTo m.start) ++ .special s :: more

/-- Cuts a word into literal pieces and specials. -/
def cut (table : SymbolTable) (word : Text) : Except Error (List Piece) :=
  match table.splitter with
  | none => .ok (literalPiece word)
  | some splitter => table.piecesFrom splitter (.start word) (splitter.findAll word)

end SymbolTable

end WordPattern
