/-! Sets of code points and maps between them, as ascending tables. A look-up stops at the first entry that starts
beyond the code point, so the characters met most often are found near the front. -/

namespace WordPattern.Unicode

theorem toNat_ofNat {n : Nat} (h : n.isValidChar) : (Char.ofNat n).toNat = n := by
  rw [Char.ofNat, dif_pos h]
  rfl

/-- Ascending, disjoint, inclusive ranges of code points. -/
abbrev Ranges := List (Nat × Nat)

def Ranges.contains : Ranges → Nat → Bool
  | [], _ => false
  | (low, high) :: rest, n => if n < low then false else n ≤ high || Ranges.contains rest n

/-- Every `step`-th code point from `first` to `last`. -/
structure Stride where
  first : Nat
  last : Nat
  step : Nat

def Stride.contains (s : Stride) (n : Nat) : Bool :=
  s.first ≤ n && n ≤ s.last && (n - s.first) % s.step = 0

/-- Ascending, disjoint strides, each sent to the code points as far apart that start at its target. -/
abbrev CodeMap := List (Stride × Nat)

def CodeMap.get? : CodeMap → Nat → Option Nat
  | [], _ => none
  | (s, target) :: rest, n =>
    if n < s.first then none
    else if s.contains n then some (target + (n - s.first))
    else CodeMap.get? rest n

/-- The code points that are sent to `n`. -/
def CodeMap.preimages (m : CodeMap) (n : Nat) : List Nat :=
  m.filterMap fun (s, target) =>
    if target ≤ n && s.contains (s.first + (n - target)) then some (s.first + (n - target)) else none

end WordPattern.Unicode
