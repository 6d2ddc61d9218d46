import WordPattern.Regex.Plan
import WordPattern.Regex.Parser

/-! Compiled expressions, and the matches of an expression in a text. -/

namespace WordPattern

/-- A compiled regular expression. -/
structure Regex where
  source : Text
  plan : Regex.Plan
  /-- The groups with a name, in the order of the text. -/
  names : List (Text × Nat)
  deriving DecidableEq, Repr

namespace Regex

/-- Groups may not be nested this deep. -/
def nestingLimit : Nat := 64

/-- Reads a regular expression and plans how to match it. -/
def read (source : Text) : Except SyntaxError Regex := do
  let parsed ← parse source
  return ⟨source, ← parsed.expr.planWhole, parsed.names⟩

/-- Reads a regular expression within the limit on nesting. -/
def compile (source : Text) : Except SyntaxError Regex := do
  if nestingLimit ≤ nesting 0 (← tokens source) then throw .tooDeep
  read source

/-- A match: where it starts, and the path that it has taken. -/
structure Match where
  start : Cursor
  path : Path
  deriving DecidableEq, Repr

namespace Match

def capture? (m : Match) (group : Nat) : Option Capture := m.path.capture? group

/-- Where a match stops: where group 0 does, if there is one. -/
def stop (m : Match) : Cursor :=
  match m.capture? 0 with
  | some c => c.stop
  | none => m.path.cursor

def isEmpty (m : Match) : Bool := m.start = m.stop

/-- The text of a match. -/
def text (m : Match) : Text := m.start.textTo m.stop

end Match

/-- The preferred match that starts at a place. -/
def matchAt? (plan : Plan) (p : Cursor) : Option Match :=
  match plan.walk Walk.finish (.start p) [] with
  | .ok q => some ⟨p, q⟩
  | .error _ => none

/-- The matches from a place on, from left to right. The next `inside` characters belong to the match before; once they
are passed, `touching` says that this match ended just here, and then a match of nothing is passed over. -/
def matchesFrom (plan : Plan) (before : Text) : Text → (inside : Nat) → (touching : Bool) → List Match
  | [], 0, touching => ((matchAt? plan ⟨before, []⟩).filter fun m => !(m.isEmpty && touching)).toList
  | [], _ + 1, _ => []
  | c :: after, inside + 1, touching => matchesFrom plan (c :: before) after inside touching
  | c :: after, 0, touching =>
    match matchAt? plan ⟨before, c :: after⟩ with
    | none => matchesFrom plan (c :: before) after 0 false
    | some m =>
      if m.isEmpty then
        let rest := matchesFrom plan (c :: before) after 0 false
        if touching then rest else m :: rest
      else m :: matchesFrom plan (c :: before) after (m.text.length - 1) true

/-- All matches in a text that do not overlap, from left to right. -/
def findAll (r : Regex) (text : Text) : List Match := matchesFrom r.plan [] text 0 false

/-- The leftmost match from a place on. -/
def findFrom? (plan : Plan) (before : Text) : Text → Option Match
  | [] => matchAt? plan ⟨before, []⟩
  | c :: after =>
    match matchAt? plan ⟨before, c :: after⟩ with
    | some m => some m
    | none => findFrom? plan (c :: before) after

/-- The leftmost match in a text. -/
def find? (r : Regex) (text : Text) : Option Match := findFrom? r.plan [] text

def isMatch (r : Regex) (text : Text) : Bool := (r.find? text).isSome

/-- What the group with a name matched; of several groups the last one counts. -/
def named? (r : Regex) (m : Match) (name : Text) : Option Capture :=
  (r.names.reverse.lookup name).bind m.capture?

end Regex

end WordPattern
