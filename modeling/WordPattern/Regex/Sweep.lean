import WordPattern.Regex.Size
import WordPattern.Regex.Walk

/-! Regular expressions in the strict sense, swept as one automaton.

Every round of a repeat has states of its own. A choice that is met a second time at the same position leads nowhere
new; so a loop that takes no character ends there, and no text is gone through more than once for each state. The
choices are remembered only inside loops, since elsewhere there are few. -/

namespace WordPattern.Regex

namespace Walk

/-- Goes round again or leaves. The fuel bounds the number of rounds, and `choose` is applied to each choice. -/
def loop (choose : Walk → Walk) (greedy : Bool) (m : Walk) : (fuel : Nat) → Walk
  | 0 => fail
  | fuel + 1 => choose (maybe greedy fun k => m (loop choose greedy m fuel k))

end Walk

/-- Whether the rounds of a repeat could go through the same text in many ways. -/
def Expr.isLoop (high : Option Nat) (body : Expr) : Bool :=
  match high with
  | none => body.hasChoice || body.size.least = 0
  | some n => 2 ≤ n && (body.isUnbounded || (body.size.least = 0 && body.hasChoice))

/-- The walk of a regular expression from a place on in a direction; there is none for other expressions. `place` tells
where the expression stands, and `looping` whether it stands inside a loop. -/
def Expr.sweep (direction : Direction) (place : List Nat) (looping : Bool) : Expr → Walk
  | .empty => id
  | .char c folded => .one direction (sameChar folded c)
  | .set s => .one direction s.contains
  | .anyChar newline => .one direction fun c => newline || c != '\n'
  | .anchor a => .check fun p => a.holds p.cursor
  | .seq first rest =>
    let m := first.sweep direction (0 :: place) looping
    let n := rest.sweep direction (1 :: place) looping
    match direction with
    | .ahead => fun k => m (n k)
    | .behind => fun k => n (m k)
  | .alt first rest =>
    let both := Walk.orElse (first.sweep direction (0 :: place) looping) (rest.sweep direction (1 :: place) looping)
    if looping then both.unlessTried place 0 else both
  | .rounds low high greedy body =>
    let looping := looping || isLoop high body
    let round (i : Nat) := body.sweep direction (i :: place) looping
    let choose (i : Nat) (m : Walk) := if looping then m.unlessTried place i else m
    match high with
    | some high => fun k => Walk.times round 0 low (Walk.upTo choose greedy round low (high - low) k)
    | none =>
      let again (i : Nat) : Walk := fun k p =>
        Walk.loop (choose i) greedy (round i) (p.cursor.room direction + 2) k p
      if low = 0 then
        if body.size.least = 0 then choose 1 (.maybe greedy fun k => round 0 (again 0 k)) else again 0
      else fun k => Walk.times round 0 low (again (low - 1) k)
  | .capture group body => fun k p =>
    body.sweep direction (0 :: place) looping (fun q => k (q.stopGroup group)) (p.startGroup group)
  | .fail | .atomic _ | .look _ _ _ | .backref _ _ _ => .fail

end WordPattern.Regex
