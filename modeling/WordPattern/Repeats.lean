import WordPattern.Mode

/-! Shorter writing for repeated fragments.

A sequence of fragments is searched for blocks that follow each other; a run of equal blocks is written once with a
count where that takes fewer characters. Short blocks come first, then small offsets, and of the runs at one offset the
last that pays. This is repeated until no run pays. -/

namespace WordPattern

/-- The number of lower-case letters before `:]`, if there are any. -/
def setNameLength? (text : Text) : Option Nat :=
  let n := (text.takeWhile Char.isLower).length
  match text.drop n with
  | ':' :: ']' :: _ => if n = 0 then none else some n
  | _ => none

/-- The text between brackets has no bracket of its own but in escapes and named sets. The first `skip` characters
belong to an escape or a named set. -/
def isFlatClass : (skip : Nat) → Text → Bool
  | _, [] => true
  | skip + 1, _ :: rest => isFlatClass skip rest
  | 0, '\\' :: rest => !rest.isEmpty && isFlatClass 1 rest
  | 0, '[' :: rest =>
    match rest with
    | ':' :: name =>
      match setNameLength? name with
      | some n => isFlatClass (n + 3) rest
      | none => false
    | _ => false
  | 0, ']' :: _ => false
  | 0, _ :: rest => isFlatClass 0 rest

/-- Whether a repeat count can follow a text without a group: a single character, an escaped word character, or one
bracketed class. -/
def isAtomicText : Text → Bool
  | [] => false
  | [_] => true
  | ['\\', c] => c.isAlphanum || c = '_'
  | '[' :: rest => rest.getLast? = some ']' && !rest.dropLast.isEmpty && isFlatClass 0 rest.dropLast
  | _ => false

/-- A block written once with a repeat count. -/
def quantified (mode : Mode) (closed : Bool) (block : List Text) (count : Nat) : Text :=
  let body := block.flatten
  (if isAtomicText body then body else mode.group closed body) ++ '\x7b' :: Nat.toDigits 10 count ++ ['\x7d']

/-- The number of decimal digits. -/
def digitCount (n : Nat) : Nat := if n < 10 then 1 else digitCount (n / 10) + 1

/-- The number of characters of a block with a repeat count. -/
def quantifiedLength (block : List Text) (count : Nat) : Nat :=
  let body := block.flatten
  (if isAtomicText body then 0 else Mode.groupSize) + 2 + digitCount count + body.length

/-- The first `count` blocks of `size` fragments. -/
def blocks (size : Nat) : (count : Nat) → List Text → List (List Text)
  | 0, _ => []
  | count + 1, fragments => fragments.take size :: blocks size count (fragments.drop size)

/-- Maximal runs of equal neighbours, each as its block and the number of times that it stands there. -/
def runs : List (List Text) → List (List Text × Nat)
  | [] => []
  | block :: rest =>
    match runs rest with
    | (next, n) :: more => if block = next then (block, n + 1) :: more else (block, 1) :: (next, n) :: more
    | [] => [(block, 1)]

/-- The fragments that runs stand for. -/
def unrolled : List (List Text × Nat) → List Text
  | [] => []
  | (block, n) :: more => (List.replicate n block).flatten ++ unrolled more

/-- Writes the last run that pays with a repeat count. -/
def abbreviateRuns (mode : Mode) (closed : Bool) : List (List Text × Nat) → Option (List Text)
  | [] => none
  | (block, n) :: more =>
    match abbreviateRuns mode closed more with
    | some rest => some ((List.replicate n block).flatten ++ rest)
    | none =>
      if quantifiedLength block n < n * block.flatten.length then
        some (quantified mode closed block n :: unrolled more)
      else none

/-- Abbreviates among the blocks of `size` fragments that begin after `offset` fragments. -/
def abbreviateAt (mode : Mode) (closed : Bool) (fragments : List Text) (size offset : Nat) : Option (List Text) :=
  let rest := fragments.drop offset
  let count := rest.length / size
  (abbreviateRuns mode closed (runs (blocks size count rest))).map fun abbreviated =>
    fragments.take offset ++ abbreviated ++ rest.drop (count * size)

/-- One round: the smallest block size, then the smallest offset, at which a run pays. -/
def abbreviateOnce (mode : Mode) (closed : Bool) (fragments : List Text) : Option (List Text) :=
  (List.range (fragments.length / 2)).findSome? fun n =>
    (List.range (n + 1)).findSome? fun offset => abbreviateAt mode closed fragments (n + 1) offset

theorem length_toDigits (n : Nat) : (Nat.toDigits 10 n).length = digitCount n := by
  fun_induction digitCount n with
  | case1 n h => rw [Nat.toDigits_of_lt_base h, List.length_singleton]
  | case2 n h ih =>
    rw [Nat.toDigits_of_base_le (by decide) (Nat.le_of_not_lt h), List.length_append, ih, List.length_singleton]

theorem length_quantified (mode : Mode) (closed : Bool) (block : List Text) (count : Nat) :
    (quantified mode closed block count).length = quantifiedLength block count := by
  simp only [quantified, quantifiedLength, List.length_append, List.length_cons, List.length_nil, length_toDigits]
  split
  · omega
  · rw [Mode.length_group]
    omega

/-- A count pays only for more than one block. -/
theorem two_le_of_quantifiedLength_lt {block : List Text} {n : Nat}
    (h : quantifiedLength block n < n * block.flatten.length) : 2 ≤ n := by
  have hlong : block.flatten.length < quantifiedLength block n := by
    simp only [quantifiedLength]
    omega
  rcases n with _ | _ | n <;> omega

/-- The blocks that runs stand for. -/
def expanded (rs : List (List Text × Nat)) : List (List Text) := rs.flatMap fun r => List.replicate r.2 r.1

theorem expanded_append (rs ss : List (List Text × Nat)) : expanded (rs ++ ss) = expanded rs ++ expanded ss :=
  List.flatMap_append

theorem unrolled_eq (rs : List (List Text × Nat)) : unrolled rs = (expanded rs).flatten := by
  induction rs with
  | nil => rfl
  | cons r rs ih =>
    rw [unrolled, ih, ← List.flatten_append]
    rfl

theorem unrolled_append (rs ss : List (List Text × Nat)) : unrolled (rs ++ ss) = unrolled rs ++ unrolled ss := by
  simp only [unrolled_eq, expanded_append, List.flatten_append]

/-- A block goes on with the run that follows it, or it begins one of its own. -/
theorem runs_cons (block : List Text) (rest : List (List Text)) :
    (∃ n more, runs rest = (block, n) :: more ∧ runs (block :: rest) = (block, n + 1) :: more) ∨
      (runs (block :: rest) = (block, 1) :: runs rest ∧ ∀ r ∈ (runs rest).head?, block ≠ r.1) := by
  cases h : runs rest with
  | nil => exact .inr ⟨by rw [runs, h], by simp⟩
  | cons r more =>
    obtain ⟨next, n⟩ := r
    by_cases hb : block = next
    · subst hb
      exact .inl ⟨n, more, rfl, by rw [runs, h]; exact if_pos rfl⟩
    · exact .inr ⟨by rw [runs, h]; exact if_neg hb, by simpa using hb⟩

theorem expanded_runs (bs : List (List Text)) : expanded (runs bs) = bs := by
  induction bs with
  | nil => rfl
  | cons block rest ih =>
    rcases runs_cons block rest with ⟨n, more, hrest, hcons⟩ | ⟨hcons, -⟩
    · rw [hcons, ← ih, hrest]
      rfl
    · rw [hcons]
      exact congrArg (block :: ·) ih

theorem unrolled_runs (bs : List (List Text)) : unrolled (runs bs) = bs.flatten := by
  rw [unrolled_eq, expanded_runs]

/-- One run that pays is written with a count, and the others stay as they are. -/
theorem exists_of_abbreviateRuns {mode : Mode} {closed : Bool} {rs : List (List Text × Nat)} {out : List Text}
    (h : abbreviateRuns mode closed rs = some out) :
    ∃ before block n after, rs = before ++ (block, n) :: after ∧ quantifiedLength block n < n * block.flatten.length ∧
      out = unrolled before ++ quantified mode closed block n :: unrolled after := by
  induction rs generalizing out with
  | nil => contradiction
  | cons r more ih =>
    obtain ⟨block, n⟩ := r
    rw [abbreviateRuns] at h
    split at h
    · rename_i rest hrest
      obtain rfl := Option.some.inj h
      obtain ⟨before, block', n', after, rfl, hpays, rfl⟩ := ih hrest
      exact ⟨(block, n) :: before, block', n', after, rfl, hpays, by rw [unrolled, List.append_assoc]⟩
    · split at h
      · rename_i hpays
        exact ⟨[], block, n, more, rfl, hpays, (Option.some.inj h).symm⟩
      · contradiction

theorem length_abbreviateRuns_lt {mode : Mode} {closed : Bool} {rs : List (List Text × Nat)} {out : List Text}
    (h : abbreviateRuns mode closed rs = some out) : out.length < (unrolled rs).length := by
  obtain ⟨before, block, n, after, rfl, hpays, rfl⟩ := exists_of_abbreviateRuns h
  have hn : 2 ≤ n := two_le_of_quantifiedLength_lt hpays
  have hb : 1 ≤ block.length := by
    cases block with
    | nil => simp at hpays
    | cons => simp
  have := Nat.mul_le_mul hn hb
  simp [unrolled_append, unrolled]
  omega

theorem flatten_blocks_append (size count : Nat) (fragments : List Text) :
    (blocks size count fragments).flatten ++ fragments.drop (count * size) = fragments := by
  induction count generalizing fragments with
  | zero => simp [blocks]
  | succ count ih =>
    have := ih (fragments.drop size)
    rw [List.drop_drop] at this
    rw [blocks, List.flatten_cons, List.append_assoc, Nat.succ_mul, Nat.add_comm, this, List.take_append_drop]

theorem length_abbreviateAt_lt {mode : Mode} {closed : Bool} {fragments out : List Text} {size offset : Nat}
    (h : abbreviateAt mode closed fragments size offset = some out) : out.length < fragments.length := by
  obtain ⟨abbreviated, hc, rfl⟩ := Option.map_eq_some_iff.1 h
  have hlt := length_abbreviateRuns_lt hc
  rw [unrolled_runs] at hlt
  have hsplit := congrArg List.length
    (flatten_blocks_append size ((fragments.drop offset).length / size) (fragments.drop offset))
  have hwhole := congrArg List.length (List.take_append_drop offset fragments)
  simp only [List.length_append] at hsplit hwhole ⊢
  omega

theorem length_abbreviateOnce_lt {mode : Mode} {closed : Bool} {fragments out : List Text}
    (h : abbreviateOnce mode closed fragments = some out) : out.length < fragments.length := by
  obtain ⟨_, _, h⟩ := List.exists_of_findSome?_eq_some h
  obtain ⟨_, _, h⟩ := List.exists_of_findSome?_eq_some h
  exact length_abbreviateAt_lt h

/-- The fragments after all rounds. -/
def abbreviated (mode : Mode) (closed : Bool) (fragments : List Text) : List Text :=
  match _h : abbreviateOnce mode closed fragments with
  | some shorter => abbreviated mode closed shorter
  | none => fragments
termination_by fragments.length
decreasing_by exact length_abbreviateOnce_lt _h

/-- The text of a sequence of fragments. -/
def abbreviate (mode : Mode) (closed : Bool) (fragments : List Text) : Text :=
  (abbreviated mode closed fragments).flatten

end WordPattern
