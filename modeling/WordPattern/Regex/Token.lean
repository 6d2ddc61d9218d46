import WordPattern.Regex.Syntax

/-! The tokens of a regular expression.

`token` reads one token at the head of a text and says how many further characters it takes; `tokens` moves on by that
many. A brace that opens no repeat count is a literal. -/

namespace WordPattern.Regex

/-- Why a text is not a regular expression. -/
inductive SyntaxError where
  | unfinishedEscape
  | unknownEscape (c : Char)
  | unclosedSet
  | badRange (low high : Char)
  | setInRange
  | setOperator
  | unclosedGroup
  | unopenedGroup
  | badGroup
  | badFlag (c : Char)
  | nothingToRepeat
  | badCount (low high : Nat)
  | tooLarge
  | unknownGroup (name : Text)
  | unboundedLookBehind
  | tooDeep
  deriving DecidableEq, Repr

/-- Flags that a group switches on or off. -/
structure FlagChange where
  ignoreCase : Option Bool := none
  multiline : Option Bool := none
  dotAll : Option Bool := none
  deriving DecidableEq, Repr

/-- What an opening parenthesis begins. -/
inductive Opening where
  | capture
  | named (name : Text)
  | plain (change : FlagChange)
  | atomic
  | look (direction : Direction) (negated : Bool)
  deriving DecidableEq, Repr

inductive Token where
  | char (c : Char)
  | named (set : NamedSet) (negated : Bool)
  | set (negated : Bool) (items : List SetItem)
  | dot
  | caret
  | dollar
  | anchor (a : Anchor)
  | beforeFinalNewlines
  | opening (o : Opening)
  | flags (change : FlagChange)
  | close
  | bar
  | star
  | plus
  | question
  /-- A repeat count with the text it was written as. -/
  | count (source : Text) (low : Nat) (high : Option Nat)
  | backref (name : Text)
  deriving DecidableEq, Repr

/-! ### Repeat counts -/

/-- The value of decimal digits. -/
def decimal (digits : Text) : Nat := digits.foldl (fun n c => 10 * n + (c.toNat - '0'.toNat)) 0

/-- Bounds are below this number. -/
def boundLimit : Nat := 0x10000000000000000

/-- The bounds after an opening brace, and the number of characters taken with the closing brace. -/
def bounds? (r : Text) : Option (Nat × Option Nat × Nat) :=
  let low := r.takeWhile Char.isDigit
  if boundLimit ≤ decimal low then none else
    match r.dropWhile Char.isDigit with
    | '\x7d' :: _ => if low.isEmpty then none else some (decimal low, some (decimal low), low.length + 1)
    | ',' :: r =>
      let high := r.takeWhile Char.isDigit
      match r.dropWhile Char.isDigit with
      | '\x7d' :: _ =>
        if boundLimit ≤ decimal high then none
        else some (decimal low, if high.isEmpty then none else some (decimal high), low.length + high.length + 2)
      | _ => none
    | _ => none

/-- The token after an opening brace. -/
def brace (r : Text) : Token × Nat :=
  match bounds? r with
  | some (low, high, n) => (.count ('\x7b' :: r.take n) low high, n)
  | none => (.char '\x7b', 0)

/-! ### Escapes -/

/-- The value of a hexadecimal digit. -/
def hexValue? (c : Char) : Option Nat :=
  if '0' ≤ c ∧ c ≤ '9' then some (c.toNat - '0'.toNat)
  else if 'a' ≤ c ∧ c ≤ 'f' then some (c.toNat - 'a'.toNat + 10)
  else if 'A' ≤ c ∧ c ≤ 'F' then some (c.toNat - 'A'.toNat + 10)
  else none

def isHexDigit (c : Char) : Bool := (hexValue? c).isSome

/-- The value of hexadecimal digits. -/
def hexadecimal (digits : Text) : Nat := digits.foldl (fun n c => 16 * n + (hexValue? c).getD 0) 0

/-- The digits of a code point at the head of a text, and the number of characters taken: `width` digits, or one to
eight in braces. -/
def codeDigits? (width : Nat) (r : Text) : Option (Text × Nat) :=
  let digits := (r.takeWhile isHexDigit).take width
  if digits.length = width then some (digits, width)
  else
    match r with
    | '\x7b' :: r =>
      let digits := r.takeWhile isHexDigit
      match r.dropWhile isHexDigit with
      | '\x7d' :: _ => if digits.isEmpty || 8 < digits.length then none else some (digits, digits.length + 2)
      | _ => none
    | _ => none

/-- The character that a backslash, the letter `c` and a code point stand for, and the number of characters taken after
the backslash. -/
def escapedCode (c : Char) (width : Nat) (r : Text) : Except SyntaxError (Char × Nat) :=
  match codeDigits? width r with
  | some (digits, n) =>
    if (hexadecimal digits).isValidChar then .ok (Char.ofNat (hexadecimal digits), n + 1) else .error (.unknownEscape c)
  | none => .error (.unknownEscape c)

/-- The character that a backslash and the head of a text stand for, and the number of characters taken. -/
def escapedChar : Text → Except SyntaxError (Char × Nat)
  | [] => .error .unfinishedEscape
  | 'a' :: _ => .ok ('\x07', 1)
  | 'b' :: _ => .ok ('\x08', 1)
  | 'e' :: _ => .ok ('\x1B', 1)
  | 'f' :: _ => .ok ('\x0C', 1)
  | 'n' :: _ => .ok ('\n', 1)
  | 'r' :: _ => .ok ('\r', 1)
  | 't' :: _ => .ok ('\t', 1)
  | 'v' :: _ => .ok ('\x0B', 1)
  | 'x' :: r => escapedCode 'x' 2 r
  | 'u' :: r => escapedCode 'u' 4 r
  | 'U' :: r => escapedCode 'U' 8 r
  | c :: _ => if c.isAlphanum then .error (.unknownEscape c) else .ok (c, 1)

/-- The set that a backslash and the head of a text stand for, and the number of characters taken. -/
def escapedSet? : Text → Option (NamedSet × Bool × Nat)
  | 'd' :: _ => some (.digit, false, 1)
  | 'D' :: _ => some (.digit, true, 1)
  | 's' :: _ => some (.space, false, 1)
  | 'S' :: _ => some (.space, true, 1)
  | 'w' :: _ => some (.word, false, 1)
  | 'W' :: _ => some (.word, true, 1)
  | 'p' :: '\x7b' :: 'L' :: 'u' :: '\x7d' :: _ => some (.uppercase, false, 5)
  | 'P' :: '\x7b' :: 'L' :: 'u' :: '\x7d' :: _ => some (.uppercase, true, 5)
  | _ => none

/-- The token that a backslash and a character stand for, if they have that meaning outside of sets only. -/
def escapedOutside? (c : Char) : Option Token :=
  match c with
  | 'h' => some (.named .asciiHexDigit false)
  | 'H' => some (.named .asciiHexDigit true)
  | 'A' => some (.anchor .textStart)
  | 'z' => some (.anchor .textEnd)
  | 'Z' => some .beforeFinalNewlines
  | 'b' => some (.anchor .wordEdge)
  | 'B' => some (.anchor .notWordEdge)
  | '<' => some (.anchor .wordStart)
  | '>' => some (.anchor .wordEnd)
  | _ => none

/-- The sides of a word that can be named in braces. -/
def wordSides : List (Text × Anchor) :=
  [(['s', 't', 'a', 'r', 't'], .wordStart), (['e', 'n', 'd'], .wordEnd),
   (['s', 't', 'a', 'r', 't', '-', 'h', 'a', 'l', 'f'], .noWordBefore),
   (['e', 'n', 'd', '-', 'h', 'a', 'l', 'f'], .noWordAfter)]

/-- A name up to `>`, and the number of characters taken with the `>`. -/
def groupName : Text → Except SyntaxError (Text × Nat)
  | [] => .error .badGroup
  | c :: r =>
    if c = '>' then .ok ([], 1)
    else if Unicode.isAlphanumeric c || c = '_' then (groupName r).map fun (name, n) => (c :: name, n + 1)
    else .error .badGroup

/-- A name of at least one character. -/
def nonemptyName (r : Text) : Except SyntaxError (Text × Nat) :=
  match groupName r with
  | .ok ([], _) => .error .badGroup
  | result => result

/-- The side of a word at the head of a text that begins with a brace, and the number of characters taken. -/
def wordSide? (r : Text) : Option (Anchor × Nat) :=
  wordSides.findSome? fun (name, a) =>
    if (('\x7b' :: name) ++ ['\x7d']).isPrefixOf r then some (a, name.length + 2) else none

/-- The token after a backslash and `b` or `B`. A brace that follows has to open a repeat count, or after `b` to name a
side of the word. -/
def wordEdge (c : Char) (edge : Token) (r : Text) : Except SyntaxError (Token × Nat) :=
  match r with
  | '\x7b' :: inner =>
    if (bounds? inner).isSome then .ok (edge, 1)
    else
      match wordSide? r with
      | some (a, n) => if c = 'b' then .ok (.anchor a, n + 1) else .error (.unknownEscape c)
      | none => .error (.unknownEscape c)
  | _ => .ok (edge, 1)

/-- The token after a backslash. -/
def escape (r : Text) : Except SyntaxError (Token × Nat) :=
  match escapedSet? r with
  | some (set, negated, n) => .ok (.named set negated, n)
  | none =>
    match r with
    | 'k' :: '<' :: r => (nonemptyName r).map fun (name, n) => (.backref name, n + 2)
    | c :: r' =>
      match escapedOutside? c with
      | some t => if c = 'b' ∨ c = 'B' then wordEdge c t r' else .ok (t, 1)
      | none => (escapedChar r).map fun (c, n) => (.char c, n)
    | [] => .error .unfinishedEscape

/-! ### Bracketed sets -/

/-- A part of a bracketed set before ranges are put together. -/
inductive SetPart where
  /-- A character that `joins` makes an operator on sets where it stands twice. -/
  | char (c : Char) (joins : Bool)
  | hyphen
  | named (set : NamedSet) (negated : Bool)
  /-- A set with a name between `[:` and `:]`. -/
  | bracketed (set : NamedSet) (negated : Bool)
  deriving DecidableEq, Repr

/-- The sets that have a name between `[:` and `:]`. -/
def asciiSets : List (Text × NamedSet) :=
  [(['a', 'l', 'n', 'u', 'm'], .asciiAlphanumeric), (['a', 'l', 'p', 'h', 'a'], .asciiAlpha),
   (['a', 's', 'c', 'i', 'i'], .ascii), (['b', 'l', 'a', 'n', 'k'], .asciiBlank),
   (['c', 'n', 't', 'r', 'l'], .asciiControl), (['d', 'i', 'g', 'i', 't'], .asciiDigit),
   (['g', 'r', 'a', 'p', 'h'], .asciiGraphic), (['l', 'o', 'w', 'e', 'r'], .asciiLower),
   (['p', 'r', 'i', 'n', 't'], .asciiPrintable), (['p', 'u', 'n', 'c', 't'], .asciiPunctuation),
   (['s', 'p', 'a', 'c', 'e'], .asciiSpace), (['u', 'p', 'p', 'e', 'r'], .asciiUpper),
   (['w', 'o', 'r', 'd'], .asciiWord), (['x', 'd', 'i', 'g', 'i', 't'], .asciiHexDigit)]

/-- The set whose name stands before the next `:]`, and the number of characters taken. -/
def asciiName? (r : Text) : Option (NamedSet × Nat) :=
  asciiSets.findSome? fun (name, set) => if (name ++ [':', ']']).isPrefixOf r then some (set, name.length + 2) else none

/-- The set with a name between `[:` and `:]`, whether it is negated, and the number of characters taken after the first
bracket. -/
def asciiSet? (r : Text) : Option (NamedSet × Bool × Nat) :=
  match r with
  | ':' :: '^' :: r => (asciiName? r).map fun (set, n) => (set, true, n + 2)
  | ':' :: r => (asciiName? r).map fun (set, n) => (set, false, n + 1)
  | _ => none

/-- The part of a bracketed set at the head of `c :: r`, and how many characters of `r` belong to it. -/
def setPart (c : Char) (r : Text) : Except SyntaxError (SetPart × Nat) :=
  match c with
  | '\\' =>
    match escapedSet? r with
    | some (set, negated, n) => .ok (.named set negated, n)
    | none => (escapedChar r).map fun (c, n) => (.char c false, n)
  | '[' =>
    match asciiSet? r with
    | some (set, negated, n) => .ok (.bracketed set negated, n)
    | none => .error .unclosedSet
  | '-' => .ok (.hyphen, 0)
  | c => .ok (.char c (c = '&' || c = '~'), 0)

/-- The parts of a bracketed set up to its closing bracket, and the number of characters taken with the bracket. The
first `skip` characters belong to the part before. -/
def setParts : Nat → Text → Except SyntaxError (List SetPart × Nat)
  | _, [] => .error .unclosedSet
  | skip + 1, _ :: r => (setParts skip r).map fun (parts, n) => (parts, n + 1)
  | 0, c :: r =>
    if c = ']' then .ok ([], 1)
    else do
      let (part, n) ← setPart c r
      let (parts, m) ← setParts n r
      return (part :: parts, m + 1)

/-- Whether a range goes on: there is a hyphen, and it is followed by something other than a hyphen. -/
def goesOn : List SetPart → Bool
  | .hyphen :: .hyphen :: _ => false
  | .hyphen :: _ :: _ => true
  | _ => false

/-- Two characters with a hyphen between them are a range, and a set cannot stand at either end of one; any other hyphen
is itself. Operators on sets are refused. -/
def setItems : List SetPart → Except SyntaxError (List SetItem)
  | [] => .ok []
  | .char low _ :: .hyphen :: .char high _ :: parts =>
    if high < low then .error (.badRange low high) else (setItems parts).map (.range low high :: ·)
  | .char c joins :: parts =>
    if joins && parts.head? = some (.char c true) then .error .setOperator
    else if goesOn parts then .error .setInRange
    else (setItems parts).map (.range c c :: ·)
  | .hyphen :: parts =>
    if parts.head? = some .hyphen then .error .setOperator else (setItems parts).map (.range '-' '-' :: ·)
  | .named set negated :: parts =>
    if goesOn parts then .error .setInRange else (setItems parts).map (.named set negated :: ·)
  | .bracketed set negated :: parts => (setItems parts).map (.named set negated :: ·)

/-- The characters at the beginning of a bracketed set that are members there whatever follows: hyphens, or else a
closing bracket. -/
def setLead (r : Text) : Text := if r.head? = some ']' then [']'] else r.takeWhile (· = '-')

/-- A bracketed set after its complement mark. -/
def bracketBody (negated : Bool) (r : Text) : Except SyntaxError (Token × Nat) := do
  let lead := setLead r
  let (parts, n) ← setParts 0 (r.drop lead.length)
  let items ← setItems parts
  return (.set negated (lead.map (fun c => .range c c) ++ items), lead.length + n)

/-- The token after an opening bracket. -/
def bracket (r : Text) : Except SyntaxError (Token × Nat) :=
  match r with
  | '^' :: r => (bracketBody true r).map fun (t, n) => (t, n + 1)
  | r => bracketBody false r

/-! ### Groups -/

/-- Flags up to `)` or `:`: the change, whether a colon follows, and the number of characters taken. -/
def flagChange (on : Bool) (change : FlagChange) : Text → Except SyntaxError (FlagChange × Bool × Nat)
  | [] => .error .unclosedGroup
  | c :: r =>
    let next (on : Bool) (change : FlagChange) :=
      (flagChange on change r).map fun (change, colon, n) => (change, colon, n + 1)
    match c with
    | ')' => .ok (change, false, 1)
    | ':' => .ok (change, true, 1)
    | 'i' => next on { change with ignoreCase := some on }
    | 'm' => next on { change with multiline := some on }
    | 's' => next on { change with dotAll := some on }
    | 'x' => if on then .error (.badFlag c) else next on change
    | '-' =>
      if on && r.head? != some ')' && r.head? != some ':' then next false change else .error (.badFlag c)
    | c => .error (.badFlag c)

/-- The token after an opening parenthesis. -/
def parenthesis (r : Text) : Except SyntaxError (Token × Nat) :=
  let named (taken : Nat) (r : Text) := (nonemptyName r).map fun (name, n) => (Token.opening (.named name), n + taken)
  match r with
  | '?' :: ':' :: _ => .ok (.opening (.plain {}), 2)
  | '?' :: '>' :: _ => .ok (.opening .atomic, 2)
  | '?' :: '=' :: _ => .ok (.opening (.look .ahead false), 2)
  | '?' :: '!' :: _ => .ok (.opening (.look .ahead true), 2)
  | '?' :: '<' :: '=' :: _ => .ok (.opening (.look .behind false), 3)
  | '?' :: '<' :: '!' :: _ => .ok (.opening (.look .behind true), 3)
  | '?' :: '<' :: r => named 2 r
  | '?' :: 'P' :: '<' :: r => named 3 r
  | '?' :: ')' :: _ => .error .badGroup
  | '?' :: r => do
    let (change, colon, n) ← flagChange true {} r
    return (if colon then .opening (.plain change) else .flags change, n + 1)
  | _ => .ok (.opening .capture, 0)

/-! ### All tokens -/

/-- The token at the head of `c :: r`, and how many characters of `r` belong to it. -/
def token (c : Char) (r : Text) : Except SyntaxError (Token × Nat) :=
  match c with
  | '\\' => escape r
  | '[' => bracket r
  | '(' => parenthesis r
  | '\x7b' => .ok (brace r)
  | ')' => .ok (.close, 0)
  | '|' => .ok (.bar, 0)
  | '*' => .ok (.star, 0)
  | '+' => .ok (.plus, 0)
  | '?' => .ok (.question, 0)
  | '.' => .ok (.dot, 0)
  | '^' => .ok (.caret, 0)
  | '$' => .ok (.dollar, 0)
  | c => .ok (.char c, 0)

/-- The tokens of a text whose first `skip` characters belong to the token before. -/
def tokensAfter : Nat → Text → Except SyntaxError (List Token)
  | _, [] => .ok []
  | skip + 1, _ :: r => tokensAfter skip r
  | 0, c :: r => do
    let (t, n) ← token c r
    let rest ← tokensAfter n r
    return t :: rest

/-- The tokens of a text. -/
def tokens (source : Text) : Except SyntaxError (List Token) := tokensAfter 0 source

end WordPattern.Regex
