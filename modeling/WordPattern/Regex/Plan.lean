import WordPattern.Regex.Sweep
import WordPattern.Regex.Token

/-! How an expression is matched.

Regular parts are swept as a whole and matched in one way only, wherever this cannot hide a match: where nothing that
could fail follows, or where all matches take as many characters. The rest is tried step by step. The two ways differ
in what they record, since a sweep first forgets what its groups have matched before, and in the counts that they
allow. -/

namespace WordPattern.Regex

inductive Plan where
  /-- Sweeps an expression, in one way only. -/
  | sweep (e : Expr)
  | seq (first second : Plan)
  | alt (first second : Plan)
  | rounds (low : Nat) (high : Option Nat) (greedy : Bool) (body : Plan)
  | capture (group : Nat) (body : Plan)
  | atomic (body : Plan)
  /-- Looks for the body, which may begin by going back. -/
  | look (negated : Bool) (body : Plan)
  /-- Goes back so many characters. -/
  | back (count : Nat)
  /-- Goes back to where the preferred match of an expression, read backwards, starts; its groups are then found from
  there on. -/
  | backAlong (e : Expr)
  | backref (group : Nat) (folded : Bool)
  deriving DecidableEq, Repr

/-! ### Making a plan -/

/-- Counts of rounds in a sweep are below this number. -/
def countLimit : Nat := 0x100000000

/-- What is swept has no more characters, sets and anchors, once every round is written out. -/
def expansionLimit : Nat := 327680

namespace Expr

/-- Refuses counts that are out of order or too large for a sweep. -/
def checkCounts : Expr → Except SyntaxError Unit
  | seq first rest | alt first rest => do
    first.checkCounts
    rest.checkCounts
  | rounds low high _ body => do
    let top := high.getD low
    if top < low then throw (.badCount low top)
    if countLimit ≤ top then throw .tooLarge
    body.checkCounts
  | capture _ body | atomic body | look _ _ body => body.checkCounts
  | _ => .ok ()

/-- Refuses what is too large for a sweep. -/
def checkSweep (e : Expr) : Except SyntaxError Unit := do
  e.checkCounts
  if expansionLimit < e.expandedSize then throw .tooLarge

/-- The plan to sweep an expression. -/
def swept (e : Expr) : Except SyntaxError Plan := do
  e.checkSweep
  return .sweep e

/-- Whether an expression is swept as a whole. Step by step this is done only for sequences whose matches all take as
many characters; `leading` is as for `plan`. -/
def isSwept (referenced : List Nat) (stepwise leading : Bool) (e : Expr) : Bool :=
  e.isRegular referenced &&
    match e with
    | seq _ _ => !stepwise || e.size.fixed
    | alt _ _ => !stepwise && leading
    | _ => !stepwise

/-- The plan to look behind for an expression, given the plan to match it. -/
def planBehind (referenced : List Nat) (negated : Bool) (e : Expr) (body : Except SyntaxError Plan) :
    Except SyntaxError Plan :=
  if e.size.fixed then return .look negated (.seq (.back e.size.least) (← body))
  else if e.isRegular referenced then do
    e.checkSweep
    return .look negated (.backAlong e)
  else throw .unboundedLookBehind

mutual

/-- The plan for an expression, given the groups that are referred to. `stepwise` tells that something that can fail
follows, and `leading` that nothing in the same sequence or choice stands before it but items that are swept one by
one. -/
def plan (referenced : List Nat) (stepwise leading : Bool) (e : Expr) : Except SyntaxError Plan :=
  if e.isSwept referenced stepwise leading then e.swept
  else
    match e with
    | seq first rest =>
      if leading && first.isRegular referenced && first.size.fixed then
        return .seq (← first.swept) (← rest.plan referenced stepwise true)
      else return .seq (← first.plan referenced true true) (← rest.plan referenced stepwise false)
    | alt first rest =>
      return .alt (← first.plan referenced stepwise true) (← rest.plan referenced stepwise false)
    | rounds low high greedy body =>
      let once := low = 0 ∧ high = some 1
      return .rounds low high greedy (← body.plan referenced (stepwise || !once) true)
    | capture group body => return .capture group (← body.plan referenced stepwise true)
    | atomic body => return .atomic (← body.plan referenced false true)
    | look .ahead negated body => return .look negated (← body.plan referenced false true)
    | look .behind negated body =>
      if body.size.fixed then body.planBehind referenced negated (body.plan referenced false true)
      else
        match body with
        | alt first rest => planBranches referenced negated (alt first rest)
        | body => body.planBehind referenced negated (.error .unboundedLookBehind)
    | backref group folded _ => return .backref group folded
    | e => e.swept

/-- The plan to look behind for any branch of a choice, or for none of them. -/
def planBranches (referenced : List Nat) (negated : Bool) : Expr → Except SyntaxError Plan
  | alt first rest => do
    let one ← first.planBehind referenced negated (first.plan referenced false true)
    let others ← rest.planBranches referenced negated
    return if negated then .seq one others else .alt one others
  | _ => return .sweep (if negated then empty else fail)

end

/-- The items of a sequence before a look-ahead that ends it, and the body of that look. -/
def finalLook? : Expr → Option (Expr × Expr)
  | seq (look .ahead false body) empty => some (empty, body)
  | seq first rest => rest.finalLook?.map fun (front, body) => (seq first front, body)
  | _ => none

/-- The plan for a whole expression. A look-ahead at the end is matched as what follows group 0. -/
def planWhole (e : Expr) : Except SyntaxError Plan :=
  match e.finalLook? with
  | some (front, body) => (sequence [capture 0 front, body]).plan e.references false true
  | none => e.plan e.references false true

end Expr

/-! ### Following a plan -/

namespace Walk

/-- The characters of a text. -/
def text (same : Char → Char → Bool) : Text → Walk
  | [] => id
  | c :: rest => fun k => one .ahead (same c) (text same rest k)

/-- Goes round again or leaves. A round that takes no character is the last, and the fuel bounds their number. -/
def spin (greedy : Bool) (m : Walk) : (fuel : Nat) → Walk
  | 0 => fail
  | fuel + 1 => fun k p =>
    maybe greedy (fun k => m fun q => if q.cursor = p.cursor then k q else spin greedy m fuel k q) k p

/-- Moves back along an expression and then finds its groups, which must not go beyond the place moved back from. -/
def backAlong (e : Expr) : Walk := fun k p tried =>
  match e.sweep .behind [] false finish p [] with
  | .error _ => .error tried
  | .ok q =>
    let inside (r : Path) : Bool := r.cursor.position ≤ p.cursor.position
    once (fun k => e.sweep .ahead [] false (check inside k)) k ((p.forget e.groups).moveTo q.cursor) tried

/-- What a group matched, once more and in as many bytes. -/
def again (group : Nat) (folded : Bool) : Walk := fun k p tried =>
  match p.capture? group with
  | none => .error tried
  | some c =>
    let seen := c.start.textTo c.stop
    let inBytes (q : Path) : Bool := q.cursor.byteOffset = p.cursor.byteOffset + seen.byteCount
    text (sameChar folded) seen (check inBytes k) p tried

end Walk

/-- The walk along a plan. -/
def Plan.walk : Plan → Walk
  | .sweep e => fun k p => Walk.once (e.sweep .ahead [] false) k (p.forget e.groups)
  | .seq first second => fun k => first.walk (second.walk k)
  | .alt first second => .orElse first.walk second.walk
  | .rounds low high greedy body =>
    match high with
    | some high => fun k =>
      Walk.times (fun _ => body.walk) 0 (min low high)
        (Walk.upTo (fun _ => id) greedy (fun _ => body.walk) 0 (high - low) k)
    | none => fun k =>
      Walk.times (fun _ => body.walk) 0 low fun p => Walk.spin greedy body.walk (p.cursor.room .ahead + 2) k p
  | .capture group body => fun k p => body.walk (fun q => k (q.stopGroup group)) (p.startGroup group)
  | .atomic body => body.walk.once
  | .look false body => body.walk.inPlace
  | .look true body => body.walk.absent
  | .back count => fun k p tried =>
    match p.cursor.back? count with
    | some q => k (p.moveTo q) tried
    | none => .error tried
  | .backAlong e => .backAlong e
  | .backref group folded => .again group folded

end WordPattern.Regex
