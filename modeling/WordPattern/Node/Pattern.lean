import WordPattern.Repeats
import WordPattern.Node.NextChars

/-! The text of a tree as a regular expression. -/

namespace WordPattern.Node

/-- Marks the text of a node as optional if the node is. -/
def finish (mode : Mode) (n : Node) (closed : Bool) (text : Text) : Text :=
  if n.mark.optional then
    (if n.isAtomic && !text.isEmpty then text else mode.group closed text) ++ mode.optionalMark closed
  else text

mutual

/-- The text of a node before what follows it. -/
def patternBefore (mode : Mode) (after : NextChars) (n : Node) : Text :=
  let closed := mode = .possessive && n.closable after
  match n with
  | leaf _ text => n.finish mode closed (abbreviate mode true (text.map Regex.quoteChar))
  | charClass m cls => cls.pattern ++ (if m.optional then mode.optionalMark closed else [])
  | verbatim _ v => n.finish mode closed v.pattern
  | sequence _ children =>
    let decided := mode = .possessive && n.decided after
    n.finish mode closed (abbreviate mode decided (itemPatterns mode after children))
  | alternate _ children =>
    if children.isEmpty then nothingText
    else
      let decided := mode = .possessive && n.decided after
      let text := Text.join ['|'] (branchPatterns mode after children)
      n.finish mode closed (if n.isRoot then text else mode.group decided text)

/-- The texts of the nodes of a sequence. -/
def itemPatterns (mode : Mode) (after : NextChars) : List Node → List Text
  | [] => []
  | n :: rest => n.patternBefore mode (follow rest after) :: itemPatterns mode after rest

/-- The texts of branches. -/
def branchPatterns (mode : Mode) (after : NextChars) : List Node → List Text
  | [] => []
  | n :: rest => n.patternBefore mode after :: branchPatterns mode after rest

end

/-- The text of a tree. -/
def pattern (mode : Mode) (n : Node) : Text := n.patternBefore mode .none

end WordPattern.Node
