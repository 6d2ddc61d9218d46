import WordPattern.Node.Basic
import WordPattern.Text.Quoted

/-! An indented outline of a tree, one node a line. -/

namespace WordPattern

def Position.name : Position → String
  | .root => "Root"
  | .first => "First"
  | .middle => "Middle"
  | .last => "Last"
  | .only => "Only"

namespace Node

/-- What a node is, without its children. -/
def label : Node → Text
  | leaf _ text => "Leaf ".toList ++ text.quoted
  | charClass _ cls => "CharClass ".toList ++ cls.pattern
  | verbatim _ v => "Special ".toList ++ v.pattern
  | sequence _ _ => "Sequence".toList
  | alternate _ _ => "Alternate".toList

/-- The line of a node at a depth. -/
def outlineLine (depth : Nat) (n : Node) : Text :=
  List.replicate (2 * depth) ' ' ++ n.label ++ (if n.mark.optional then ['?'] else []) ++
    [' ', '['] ++ n.mark.position.name.toList ++ [']', '\n']

mutual

def outlineAt (depth : Nat) : Node → Text
  | n@(sequence _ children) | n@(alternate _ children) => n.outlineLine depth ++ outlineEach (depth + 1) children
  | n => n.outlineLine depth

def outlineEach (depth : Nat) : List Node → Text
  | [] => []
  | n :: rest => n.outlineAt depth ++ outlineEach depth rest

end

def outline (n : Node) : Text := n.outlineAt 0

end Node

end WordPattern
