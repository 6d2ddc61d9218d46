import WordPattern.Regex.Syntax

/-! What can be told about an expression without matching it: how many characters its matches take, which groups it
has and refers to, and whether it is regular. -/

namespace WordPattern.Regex

namespace Size

def nothing : Size := ⟨0, true⟩

def one : Size := ⟨1, true⟩

/-- The size of a group that is still open. -/
def unknown : Size := ⟨0, false⟩

/-- The size of one match after the other. -/
def plus (s t : Size) : Size := ⟨s.least + t.least, s.fixed && t.fixed⟩

/-- The size of either match. -/
def either (s t : Size) : Size := ⟨min s.least t.least, s.fixed && t.fixed && s.least = t.least⟩

end Size

namespace Expr

def size : Expr → Size
  | empty | fail | anchor _ | look _ _ _ => .nothing
  | char _ _ | set _ | anyChar _ => .one
  | seq first rest => first.size.plus rest.size
  | alt first fail => first.size
  | alt first rest => first.size.either rest.size
  | rounds low high _ body => ⟨low * body.size.least, body.size.fixed && high = some low⟩
  | capture _ body | atomic body => body.size
  | backref _ _ size => size

/-- The groups of an expression. -/
def groups : Expr → List Nat
  | seq first rest | alt first rest => first.groups ++ rest.groups
  | capture group body => group :: body.groups
  | rounds _ _ _ body | atomic body | look _ _ body => body.groups
  | _ => []

/-- The groups that an expression refers to. -/
def references : Expr → List Nat
  | seq first rest | alt first rest => first.references ++ rest.references
  | backref group _ _ => [group]
  | rounds _ _ _ body | capture _ body | atomic body | look _ _ body => body.references
  | _ => []

/-- A regular expression in the strict sense, with captures that nothing refers to. Word edges count as looks. -/
def isRegular (referenced : List Nat) : Expr → Bool
  | anchor a => !a.readsWords
  | seq first rest | alt first rest => first.isRegular referenced && rest.isRegular referenced
  | rounds _ _ _ body => body.isRegular referenced
  | capture group body => group ∉ referenced && body.isRegular referenced
  | atomic _ | look _ _ _ | backref _ _ _ => false
  | _ => true

/-- Whether there can be several ways to match the same text. -/
def hasChoice : Expr → Bool
  | seq first rest => first.hasChoice || rest.hasChoice
  | alt _ _ => true
  | rounds low high _ body => high != some low || body.hasChoice
  | capture _ body | atomic body => body.hasChoice
  | _ => false

/-- Whether there is a repeat without an upper bound. -/
def isUnbounded : Expr → Bool
  | seq first rest | alt first rest => first.isUnbounded || rest.isUnbounded
  | rounds _ high _ body => high.isNone || body.isUnbounded
  | capture _ body | atomic body => body.isUnbounded
  | _ => false

/-- The number of characters, sets and anchors once every round is written out. -/
def expandedSize : Expr → Nat
  | empty | fail => 0
  | seq first rest | alt first rest => first.expandedSize + rest.expandedSize
  | rounds low high _ body => max low (high.getD 1) * body.expandedSize
  | capture _ body | atomic body | look _ _ body => body.expandedSize
  | _ => 1

end Expr

end WordPattern.Regex
