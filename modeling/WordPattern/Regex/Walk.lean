import WordPattern.Regex.Syntax

/-! Matching by backtracking.

A walk is given a path through the text and what is left to do afterwards; it tries its ways in order of preference
and answers with the first one that the rest accepts. Choices that have been made before at the same position are
remembered where loops could otherwise go round for ever or through the same text again and again. -/

namespace WordPattern.Regex

/-- A place in a text: the characters before it, nearest first, and those after it. -/
structure Cursor where
  before : Text
  after : Text
  deriving DecidableEq, Repr

namespace Cursor

def start (text : Text) : Cursor := ⟨[], text⟩

/-- The number of characters before the place. -/
def position (p : Cursor) : Nat := p.before.length

/-- The number of UTF-8 bytes before the place. -/
def byteOffset (p : Cursor) : Nat := p.before.byteCount

/-- The character next to the place in a direction, and the place beyond it. -/
def step? (p : Cursor) : Direction → Option (Char × Cursor)
  | .ahead =>
    match p.after with
    | [] => none
    | c :: rest => some (c, ⟨c :: p.before, rest⟩)
  | .behind =>
    match p.before with
    | [] => none
    | c :: rest => some (c, ⟨rest, c :: p.after⟩)

/-- The number of characters from the place on in a direction. -/
def room (p : Cursor) : Direction → Nat
  | .ahead => p.after.length
  | .behind => p.before.length

/-- The place so many characters before. -/
def back? (p : Cursor) : Nat → Option Cursor
  | 0 => some p
  | n + 1 => (p.step? .behind).bind fun (_, q) => q.back? n

/-- The text from one place to a later one. -/
def textTo (p q : Cursor) : Text := p.after.take (q.position - p.position)

end Cursor

/-- What a group matched. -/
structure Capture where
  start : Cursor
  stop : Cursor
  deriving DecidableEq, Repr

/-- Where a match has got to, and where groups have started and stopped, the last first. -/
structure Path where
  cursor : Cursor
  starts : List (Nat × Cursor)
  stops : List (Nat × Cursor)
  deriving DecidableEq, Repr

namespace Path

def start (cursor : Cursor) : Path := ⟨cursor, [], []⟩

def moveTo (p : Path) (cursor : Cursor) : Path := { p with cursor := cursor }

/-- Records that a group starts here. Until it stops, its last stop counts. -/
def startGroup (p : Path) (group : Nat) : Path := { p with starts := (group, p.cursor) :: p.starts }

/-- Records that a group stops here. -/
def stopGroup (p : Path) (group : Nat) : Path := { p with stops := (group, p.cursor) :: p.stops }

/-- The path as if some groups had not taken part. -/
def forget (p : Path) (groups : List Nat) : Path :=
  if groups.isEmpty then p
  else { p with starts := p.starts.filter (·.1 ∉ groups), stops := p.stops.filter (·.1 ∉ groups) }

def capture? (p : Path) (group : Nat) : Option Capture :=
  match p.starts.lookup group, p.stops.lookup group with
  | some start, some stop => some ⟨start, stop⟩
  | _, _ => none

end Path

def Anchor.holds (a : Anchor) (p : Cursor) : Bool :=
  let word (t : Text) := t.head?.any isWordCharacter
  match a with
  | .textStart => p.before.isEmpty
  | .textEnd => p.after.isEmpty
  | .lineStart => p.before.isEmpty || p.before.head? = some '\n'
  | .lineEnd => p.after.isEmpty || p.after.head? = some '\n'
  | .wordEdge => word p.before != word p.after
  | .notWordEdge => word p.before == word p.after
  | .wordStart => !word p.before && word p.after
  | .wordEnd => word p.before && !word p.after
  | .noWordBefore => !word p.before
  | .noWordAfter => !word p.after

/-- A choice between ways to go on: where it stands in the expression, in which round of a repeat, and at which position
of the text it is made. -/
structure Choice where
  place : List Nat
  round : Nat
  position : Nat
  deriving DecidableEq, Repr

/-- The choices that need not be made again, since they are still open or have led nowhere. -/
abbrev Tried := List Choice

/-- A way to go on from a path. A failure tells what has been tried. -/
abbrev Continuation := Path → Tried → Except Tried Path

/-- A way through a text, given how to go on afterwards. -/
abbrev Walk := Continuation → Continuation

namespace Walk

/-- Nothing is left to do. -/
def finish : Continuation := fun p _ => .ok p

/-- No way at all. -/
def fail : Walk := fun _ _ tried => .error tried

/-- Goes on if a test holds. -/
def check (test : Path → Bool) : Walk := fun k p tried => if test p then k p tried else .error tried

/-- One character that satisfies a test. -/
def one (direction : Direction) (test : Char → Bool) : Walk := fun k p tried =>
  match p.cursor.step? direction with
  | some (c, q) => if test c then k (p.moveTo q) tried else .error tried
  | none => .error tried

/-- The first walk, or else the second. -/
def orElse (m n : Walk) : Walk := fun k p tried =>
  match m k p tried with
  | .ok q => .ok q
  | .error tried => n k p tried

/-- A walk or nothing; the walk is tried first if `greedy`. -/
def maybe (greedy : Bool) (m : Walk) : Walk := if greedy then orElse m id else orElse id m

/-- `n` rounds, the first of which has the number `i`. -/
def times (m : Nat → Walk) : (i n : Nat) → Walk
  | _, 0 => id
  | i, n + 1 => fun k => m i (times m (i + 1) n k)

/-- At most `n` rounds, the first of which has the number `i`. `choose` is applied to each choice to go on or not. -/
def upTo (choose : Nat → Walk → Walk) (greedy : Bool) (m : Nat → Walk) : (i n : Nat) → Walk
  | _, 0 => id
  | i, n + 1 => choose i (maybe greedy fun k => m i (upTo choose greedy m (i + 1) n k))

/-- The first way to match, with no other tried. -/
def once (m : Walk) : Walk := fun k p tried =>
  match m finish p [] with
  | .ok q => k q tried
  | .error _ => .error tried

/-- Goes on from where it started if there is no way to match. -/
def absent (m : Walk) : Walk := fun k p tried =>
  match m finish p [] with
  | .ok _ => .error tried
  | .error _ => k p tried

/-- Comes back to where it started. -/
def inPlace (m : Walk) : Walk := fun k p => m (fun q => k (q.moveTo p.cursor)) p

/-- A choice that is made only once at the same position. -/
def unlessTried (place : List Nat) (round : Nat) (m : Walk) : Walk := fun k p tried =>
  let choice : Choice := ⟨place, round, p.cursor.position⟩
  if choice ∈ tried then .error tried else m k p (choice :: tried)

end Walk

/-- Equality of characters, up to simple case folding if `folded`. -/
def sameChar (folded : Bool) (c d : Char) : Bool :=
  if folded then fold c = fold d else c = d

end WordPattern.Regex
