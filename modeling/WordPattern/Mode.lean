import WordPattern.Text.Pieces

/-! How a pattern treats choices that cannot be reconsidered with profit. -/

namespace WordPattern

/-- `backtracking` leaves every choice open; `possessive` closes the decided ones. -/
inductive Mode where
  | backtracking | possessive
  deriving DecidableEq, Repr

namespace Mode

/-- The start of a group; `closed` says that the choices inside are decided. -/
def groupStart (mode : Mode) (closed : Bool) : Text :=
  if mode = .possessive ∧ closed then ['(', '?', '>'] else ['(', '?', ':']

/-- The mark of an optional item. -/
def optionalMark (mode : Mode) (closed : Bool) : Text :=
  if mode = .possessive ∧ closed then ['?', '+'] else ['?']

/-- A text in a group. -/
def group (mode : Mode) (closed : Bool) (text : Text) : Text := mode.groupStart closed ++ text ++ [')']

/-- The number of characters that a group adds. -/
def groupSize : Nat := 4

theorem length_group (mode : Mode) (closed : Bool) (text : Text) :
    (mode.group closed text).length = groupSize + text.length := by
  simp only [group, groupStart, groupSize]; split <;> simp <;> omega

end Mode

end WordPattern
