import WordPattern.CharClass

/-! The tree of a pattern: literal texts, character classes, patterns taken as they are, and sequences and alternatives
of these. Every node may be optional, and knows where it stands once its tree has been placed. -/

namespace WordPattern

/-- Where a node stands under its parent. -/
inductive Position where
  | root | first | middle | last
  /-- The only child of a sequence, or a branch that is the whole pattern. -/
  | only
  deriving DecidableEq, Repr

/-- What a pattern taken as it is does at its place. -/
inductive Role where
  /-- It matches text. -/
  | pattern
  /-- It asserts something before a word. -/
  | leftBoundary
  /-- It asserts something after a word. -/
  | rightBoundary
  /-- It asserts the end of the text. -/
  | finish
  deriving DecidableEq, Repr

/-- A pattern taken as it is. -/
structure Verbatim where
  pattern : Text
  /-- A repeat count can follow the pattern without a group. -/
  atomic : Bool
  /-- A boundary may stand before it. -/
  left : Bool
  /-- A boundary may stand after it. -/
  right : Bool
  role : Role
  deriving DecidableEq, Repr

/-- It matches no text and says nothing about the next character. -/
def Verbatim.isSilent (v : Verbatim) : Bool := v.role = .leftBoundary || v.role = .finish

structure Mark where
  optional : Bool
  position : Position
  deriving DecidableEq, Repr

/-- The mark of a new node. -/
def Mark.plain : Mark := ⟨false, .middle⟩

inductive Node where
  | leaf (mark : Mark) (text : Text)
  | charClass (mark : Mark) (cls : CharClass)
  | verbatim (mark : Mark) (v : Verbatim)
  | sequence (mark : Mark) (children : List Node)
  /-- Without children it matches nothing. -/
  | alternate (mark : Mark) (children : List Node)
  deriving Repr

namespace Node

def ofText (text : Text) : Node := leaf .plain text

def ofClass (cls : CharClass) : Node := charClass .plain cls

def ofVerbatim (v : Verbatim) : Node := verbatim .plain v

/-- A sequence; a single child stands for itself. -/
def ofSequence (children : List Node) : Node :=
  match children with
  | [n] => n
  | _ => sequence .plain children

/-- Alternatives; a single branch stands for itself. -/
def ofBranches (children : List Node) : Node :=
  match children with
  | [n] => n
  | _ => alternate .plain children

/-- Matches nothing. -/
def nothing : Node := alternate .plain []

def mark : Node → Mark
  | leaf m _ | charClass m _ | verbatim m _ | sequence m _ | alternate m _ => m

def withMark (m : Mark) : Node → Node
  | leaf _ text => leaf m text
  | charClass _ cls => charClass m cls
  | verbatim _ v => verbatim m v
  | sequence _ children => sequence m children
  | alternate _ children => alternate m children

/-- The node, made optional if `yes`. -/
def optionalIf (yes : Bool) (n : Node) : Node :=
  if yes then n.withMark { n.mark with optional := true } else n

def isRoot (n : Node) : Bool := n.mark.position = .root

def children : Node → List Node
  | sequence _ children | alternate _ children => children
  | _ => []

/-- The children of a sequence that is not optional, else the node itself. -/
def inlined : Node → List Node
  | sequence ⟨false, _⟩ children => children
  | n => [n]

mutual

/-- Puts the children of sequences that are not optional into the sequences around them. -/
def flatten : Node → Node
  | sequence m children => sequence m (flattenInto children)
  | alternate m children => alternate m (flattenEach children)
  | n => n

def flattenInto : List Node → List Node
  | [] => []
  | n :: rest => n.flatten.inlined ++ flattenInto rest

def flattenEach : List Node → List Node
  | [] => []
  | n :: rest => n.flatten :: flattenEach rest

end

/-- The place of the branches of alternatives at a place. -/
def branchPosition (p : Position) : Position := if p = .root then .only else p

mutual

/-- Records the place of every node, given the place of the top one. -/
def place (p : Position) : Node → Node
  | leaf m text => leaf { m with position := p } text
  | charClass m cls => charClass { m with position := p } cls
  | verbatim m v => verbatim { m with position := p } v
  | sequence m children => sequence { m with position := p } (placeItems true children)
  | alternate m children => alternate { m with position := p } (placeEach (branchPosition p) children)

/-- The children of a sequence from the first one or a later one on. -/
def placeItems (first : Bool) : List Node → List Node
  | [] => []
  | n :: [] => [n.place (if first then .only else .last)]
  | n :: rest => n.place (if first then .first else .middle) :: placeItems false rest

def placeEach (p : Position) : List Node → List Node
  | [] => []
  | n :: rest => n.place p :: placeEach p rest

end

/-- Whether a repeat count can follow the text of the node without a group. -/
def isAtomic : Node → Bool
  | leaf _ text => text.length = 1
  | charClass _ _ => true
  | verbatim _ v => v.atomic
  | sequence _ _ => false
  | alternate m children => children.isEmpty || m.position != .root

end Node

end WordPattern
