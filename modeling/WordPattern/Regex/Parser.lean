import WordPattern.Regex.Size
import WordPattern.Regex.Token

/-! From tokens to expressions.

The parser keeps the group it is in and the groups around it, and takes one token at a time, so parsing a text that
ends between two tokens and then the rest is parsing the whole. -/

namespace WordPattern.Regex

/-- The flags in force. -/
structure Flags where
  ignoreCase : Bool := false
  multiline : Bool := false
  dotAll : Bool := false
  deriving DecidableEq, Repr

def Flags.apply (flags : Flags) (change : FlagChange) : Flags where
  ignoreCase := change.ignoreCase.getD flags.ignoreCase
  multiline := change.multiline.getD flags.multiline
  dotAll := change.dotAll.getD flags.dotAll

/-- What becomes of the contents of a group when it closes. -/
inductive GroupKind where
  | plain
  | capture (group : Nat)
  | atomic
  | look (direction : Direction) (negated : Bool)
  deriving DecidableEq, Repr

def GroupKind.wrap (kind : GroupKind) (body : Expr) : Expr :=
  match kind with
  | .plain => body
  | .capture group => .capture group body
  | .atomic => .atomic body
  | .look direction negated => .look direction negated body

/-- What the next token can do to the last item of a branch. -/
inductive Tail where
  /-- There is no item that a repeat could apply to; a count is text. -/
  | closed
  /-- What stands last cannot be repeated. -/
  | rigid
  /-- The item can be repeated. -/
  | item
  /-- The item has just been repeated and can be made lazy or possessive. -/
  | repeated
  /-- The item has been made lazy and can be made possessive. -/
  | lazy
  deriving DecidableEq, Repr

/-- A group that is still open. Branches and items are kept last first. -/
structure Frame where
  kind : GroupKind
  /-- The flags to return to when the group closes. -/
  outerFlags : Flags
  branches : List Expr
  items : List Expr
  tail : Tail
  deriving DecidableEq, Repr

structure ParseState where
  flags : Flags
  top : Frame
  around : List Frame
  /-- The number of capturing groups opened so far. -/
  groups : Nat
  /-- The groups with a name, last first. -/
  names : List (Text × Nat)
  /-- The sizes of the groups that are closed. -/
  sizes : List (Nat × Size)
  deriving DecidableEq, Repr

def Frame.start (kind : GroupKind) (outerFlags : Flags) : Frame := ⟨kind, outerFlags, [], [], .closed⟩

def ParseState.start : ParseState := ⟨{}, .start .plain {}, [], 0, [], []⟩

/-- The expression for the items of the current branch. -/
def Frame.branch (f : Frame) : Expr := .sequence f.items.reverse

/-- The expression for all branches. -/
def Frame.body (f : Frame) : Expr := .choice (f.branch :: f.branches).reverse

namespace ParseState

def modifyTop (s : ParseState) (f : Frame → Frame) : ParseState := { s with top := f s.top }

/-- Appends an item to the current branch. Nothing is no item. -/
def push (s : ParseState) (e : Expr) : ParseState :=
  s.modifyTop fun f =>
    { f with items := if e = .empty then f.items else e :: f.items, tail := if e.isRepeatable then .item else .rigid }

/-- Changes the last item of the current branch. -/
def changeLast (s : ParseState) (tail : Tail) (g : Expr → Expr) : ParseState :=
  s.modifyTop fun f => { f with items := f.items.modifyHead g, tail := tail }

/-- Repeats the last item. -/
def repeatLast (s : ParseState) (low : Nat) (high : Option Nat) : ParseState :=
  s.changeLast .repeated (.rounds low high true)

def makeLazy (s : ParseState) : ParseState :=
  s.changeLast .lazy fun
    | .rounds low high _ body => .rounds low high false body
    | e => e

def makePossessive (s : ParseState) : ParseState := s.changeLast .closed .atomic

/-- Begins a group. -/
def openGroup (s : ParseState) (kind : GroupKind) (change : FlagChange) : ParseState :=
  { s with flags := s.flags.apply change, top := .start kind s.flags, around := s.top :: s.around }

/-- Begins the next capturing group. -/
def openCapture (s : ParseState) : ParseState :=
  { s.openGroup (.capture (s.groups + 1)) {} with groups := s.groups + 1 }

/-- Ends the innermost group. Flags that have changed inside last on after it unless it is a plain one. -/
def closeGroup (s : ParseState) : Except SyntaxError ParseState :=
  match s.around with
  | [] => .error .unopenedGroup
  | outer :: around =>
    let body := s.top.body
    let flags := match s.top.kind with
      | .plain => s.top.outerFlags
      | _ => s.flags
    let sizes := match s.top.kind with
      | .capture group => (group, body.size) :: s.sizes
      | _ => s.sizes
    .ok ({ s with flags := flags, top := outer, around := around, sizes := sizes }.push (s.top.kind.wrap body))

/-- Ends the current branch. -/
def endBranch (s : ParseState) : ParseState :=
  s.modifyTop fun f => { f with branches := f.branch :: f.branches, items := [], tail := .closed }

def anchorItem (s : ParseState) (multiline otherwise : Anchor) : ParseState :=
  s.push (.anchor (if s.flags.multiline then multiline else otherwise))

/-- Takes one token. -/
def step (s : ParseState) (t : Token) : Except SyntaxError ParseState :=
  match t with
  | .char c => .ok (s.push (.char c s.flags.ignoreCase))
  | .named set negated => .ok (s.push (.set ⟨[.named set false], negated, s.flags.ignoreCase⟩))
  | .set negated items => .ok (s.push (.set ⟨items, negated, s.flags.ignoreCase⟩))
  | .dot => .ok (s.push (.anyChar s.flags.dotAll))
  | .caret => .ok (s.anchorItem .lineStart .textStart)
  | .dollar => .ok (s.anchorItem .lineEnd .textEnd)
  | .anchor a => .ok (s.push (.anchor a))
  | .beforeFinalNewlines => .ok (s.push .beforeFinalNewlines)
  | .opening .capture => .ok s.openCapture
  | .opening (.named name) => .ok { s.openCapture with names := (name, s.groups + 1) :: s.names }
  | .opening (.plain change) => .ok (s.openGroup .plain change)
  | .opening .atomic => .ok (s.openGroup .atomic {})
  | .opening (.look direction negated) => .ok (s.openGroup (.look direction negated) {})
  | .flags change => .ok { s.modifyTop ({ · with tail := .rigid }) with flags := s.flags.apply change }
  | .close => s.closeGroup
  | .bar => .ok s.endBranch
  | .backref name =>
    match s.names.lookup name with
    | some group => .ok (s.push (.backref group s.flags.ignoreCase ((s.sizes.lookup group).getD .unknown)))
    | none => .error (.unknownGroup name)
  | .star => if s.top.tail = .item then .ok (s.repeatLast 0 none) else .error .nothingToRepeat
  | .plus =>
    match s.top.tail with
    | .item => .ok (s.repeatLast 1 none)
    | .repeated | .lazy => .ok s.makePossessive
    | .rigid | .closed => .error .nothingToRepeat
  | .question =>
    match s.top.tail with
    | .item => .ok (s.repeatLast 0 (some 1))
    | .repeated => .ok s.makeLazy
    | .lazy | .rigid | .closed => .error .nothingToRepeat
  | .count source low high =>
    match s.top.tail with
    | .item => .ok (s.repeatLast low high)
    | .rigid => .error .nothingToRepeat
    | .repeated | .lazy | .closed => .ok (source.foldl (fun s c => s.push (.char c s.flags.ignoreCase)) s)

/-- Takes tokens one after the other. -/
def steps : ParseState → List Token → Except SyntaxError ParseState
  | s, [] => .ok s
  | s, t :: rest => do steps (← s.step t) rest

theorem steps_append (s : ParseState) (ts us : List Token) :
    s.steps (ts ++ us) = (s.steps ts).bind (·.steps us) := by
  induction ts generalizing s with
  | nil => rfl
  | cons t rest ih =>
    simp only [List.cons_append, steps]
    cases s.step t with
    | error e => rfl
    | ok s' => exact ih s'

end ParseState

/-- An expression and the groups in it that have a name, in the order of the text. -/
structure Parsed where
  expr : Expr
  names : List (Text × Nat)
  deriving DecidableEq, Repr

/-- Reads a regular expression. -/
def parse (source : Text) : Except SyntaxError Parsed := do
  let s ← ParseState.start.steps (← tokens source)
  match s.around with
  | [] => return ⟨s.top.body, s.names.reverse⟩
  | _ :: _ => throw .unclosedGroup

/-- The depth to which groups are nested, given the number that are open. A change of flags counts as a group. -/
def nesting (depth : Nat) : List Token → Nat
  | [] => depth
  | .opening _ :: rest => max depth (nesting (depth + 1) rest)
  | .flags _ :: rest => max (depth + 1) (nesting depth rest)
  | .close :: rest => max depth (nesting (depth - 1) rest)
  | _ :: rest => nesting depth rest

end WordPattern.Regex
