import WordPattern.Node.Basic

/-! What a node can begin with and what can follow it.

A choice is decided if the next character alone leaves one way to go. Where all choices inside a node are decided,
matching it never has to come back, whatever stands after it. -/

namespace WordPattern

/-- The characters that may come next. -/
inductive NextChars where
  | chars (cs : List Char)
  /-- Any character. -/
  | any
  deriving DecidableEq, Repr

namespace NextChars

def none : NextChars := chars []

def union : NextChars → NextChars → NextChars
  | chars cs, chars ds => chars (cs ++ ds)
  | _, _ => any

def isDisjoint : NextChars → NextChars → Bool
  | chars cs, chars ds => cs.all (!ds.contains ·)
  | _, _ => false

end NextChars

namespace Node

mutual

/-- Whether the node can match the empty text. -/
def nullable : Node → Bool
  | leaf m text => m.optional || text.isEmpty
  | charClass m _ => m.optional
  | verbatim m v => m.optional || v.isSilent
  | sequence m children => m.optional || allNullable children
  | alternate m children => m.optional || anyNullable children

def allNullable : List Node → Bool
  | [] => true
  | n :: rest => n.nullable && allNullable rest

def anyNullable : List Node → Bool
  | [] => false
  | n :: rest => n.nullable || anyNullable rest

end

mutual

/-- The characters that a match of the node can begin with. -/
def first : Node → NextChars
  | leaf _ text => .chars (text.take 1)
  | charClass _ cls => .chars cls.members
  | verbatim _ v => if v.isSilent then .none else .any
  | sequence _ children => follow children .none
  | alternate _ children => firstOfAny children

/-- The characters that can come next before the nodes of a sequence and what follows them. -/
def follow : List Node → NextChars → NextChars
  | [], after => after
  | n :: rest, after => if n.nullable then n.first.union (follow rest after) else n.first

def firstOfAny : List Node → NextChars
  | [] => .none
  | n :: rest => n.first.union (firstOfAny rest)

end

/-- The next character decides whether the node is there at all. -/
def presenceDecided (after : NextChars) (n : Node) : Bool := !n.mark.optional || n.first.isDisjoint after

mutual

/-- The next character decides every choice inside the node, given what follows it. -/
def decided (after : NextChars) : Node → Bool
  | leaf _ _ | charClass _ _ => true
  | verbatim _ v => v.role != .pattern
  | sequence _ children => itemsDecided after children
  | alternate _ children => branchesDecided after .none children

def itemsDecided (after : NextChars) : List Node → Bool
  | [] => true
  | n :: rest =>
    n.presenceDecided (follow rest after) && n.decided (follow rest after) && itemsDecided after rest

/-- No branch matches the empty text, and branches begin with different characters; `seen` holds those of the branches
before. -/
def branchesDecided (after seen : NextChars) : List Node → Bool
  | [] => true
  | n :: rest =>
    !n.nullable && seen.isDisjoint n.first && n.presenceDecided after && n.decided after &&
      branchesDecided after (seen.union n.first) rest

end

/-- The node can be matched without coming back into it. -/
def closable (after : NextChars) (n : Node) : Bool := n.presenceDecided after && n.decided after

end Node

end WordPattern
