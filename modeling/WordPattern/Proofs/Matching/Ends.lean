import Mathlib.Data.List.Basic
import Mathlib.Tactic.SplitIfs
import WordPattern.Regex.Sweep

/-! Where the matches of an expression end.

`Expr.ends` lists the places at which a match from a given place on can end, in the order in which they are tried. It
says nothing about how matches are found, and it forgets what the groups have matched; expressions that refer to groups
are out of its scope. -/

namespace WordPattern.Regex

namespace Cursor

def text (p : Cursor) : Text := p.before.reverse ++ p.after

/-- The place beyond the next character, if the character satisfies a test. -/
def past (p : Cursor) (d : Direction) (test : Char → Bool) : List Cursor :=
  match p.step? d with
  | some (c, q) => if test c then [q] else []
  | none => []

def go? (d : Direction) : Nat → Cursor → Option Cursor
  | 0, p => some p
  | n + 1, p => (p.step? d).bind fun (_, q) => q.go? d n

/-- The places between two parts of a text and before, the nearest first. -/
def backsFrom : (before after : Text) → List Cursor
  | [], after => [⟨[], after⟩]
  | c :: before, after => ⟨c :: before, after⟩ :: backsFrom before (c :: after)

def backs (p : Cursor) : List Cursor := backsFrom p.before p.after

theorem step?_room {p q : Cursor} {d : Direction} {c : Char} (h : p.step? d = some (c, q)) :
    q.room d + 1 = p.room d := by
  obtain ⟨before, after⟩ := p
  cases d with
  | ahead => cases after <;> grind [step?, room]
  | behind => cases before <;> grind [step?, room]

theorem step?_text {p q : Cursor} {d : Direction} {c : Char} (h : p.step? d = some (c, q)) : q.text = p.text := by
  obtain ⟨before, after⟩ := p
  cases d with
  | ahead => cases after <;> grind [step?, text]
  | behind => cases before <;> grind [step?, text]

theorem mem_past {p q : Cursor} {d : Direction} {test : Char → Bool} :
    q ∈ p.past d test ↔ ∃ c, p.step? d = some (c, q) ∧ test c := by
  unfold past
  split
  next c q' h => split_ifs with ht <;> simp [h] <;> grind
  next h => simp [h]

/-- A place is known from its text and the characters left. -/
theorem eq_of_room {p q : Cursor} {d : Direction} (ht : p.text = q.text) (hr : p.room d = q.room d) : p = q := by
  have hl := congrArg List.length ht
  obtain ⟨before, after⟩ := p
  obtain ⟨before', after'⟩ := q
  simp only [text, List.length_append, List.length_reverse] at hl ht
  have hb : before.reverse.length = before'.reverse.length := by
    cases d <;> simp only [room, List.length_reverse] at hr ⊢ <;> omega
  obtain ⟨h1, h2⟩ := List.append_inj ht hb
  rw [List.reverse_inj] at h1
  rw [h1, h2]

theorem go?_succ (d : Direction) (n : Nat) (p : Cursor) :
    p.go? d (n + 1) = (p.step? d).bind fun (_, q) => q.go? d n := rfl

theorem go?_add (d : Direction) (m n : Nat) (p : Cursor) : p.go? d (m + n) = (p.go? d m).bind (·.go? d n) := by
  induction m generalizing p with
  | zero => simp [go?]
  | succ m ih =>
    rw [Nat.succ_add, go?_succ, go?_succ, Option.bind_assoc]
    congr 1
    funext cq
    exact ih cq.2

theorem go?_room {d : Direction} {n : Nat} {p q : Cursor} (h : p.go? d n = some q) : q.room d + n = p.room d := by
  induction n generalizing p with
  | zero => simp only [go?, Option.some.injEq] at h; simp [h]
  | succ n ih =>
    obtain ⟨⟨c, r⟩, hs, hr⟩ := Option.bind_eq_some_iff.1 h
    have h1 := step?_room hs
    have h2 := ih hr
    omega

theorem go?_text {d : Direction} {n : Nat} {p q : Cursor} (h : p.go? d n = some q) : q.text = p.text := by
  induction n generalizing p with
  | zero => simp only [go?, Option.some.injEq] at h; simp [h]
  | succ n ih =>
    obtain ⟨⟨c, r⟩, hs, hr⟩ := Option.bind_eq_some_iff.1 h
    exact (ih hr).trans (step?_text hs)

theorem back?_eq_go? (n : Nat) (p : Cursor) : p.back? n = p.go? .behind n := by
  induction n generalizing p with
  | zero => rfl
  | succ n ih =>
    rw [back?, go?_succ]
    congr 1
    funext cq
    exact ih cq.2

theorem mem_backs {p q : Cursor} : q ∈ p.backs ↔ ∃ n, p.go? .behind n = some q := by
  obtain ⟨before, after⟩ := p
  unfold backs
  induction before generalizing after with
  | nil =>
    simp only [backsFrom, List.mem_singleton]
    constructor
    · rintro rfl; exact ⟨0, rfl⟩
    · rintro ⟨n, h⟩
      cases n with
      | zero => simpa [go?] using h.symm
      | succ n => simp [go?_succ, step?] at h
  | cons c before ih =>
    simp only [backsFrom, List.mem_cons]
    constructor
    · rintro (rfl | h)
      · exact ⟨0, rfl⟩
      · obtain ⟨n, hn⟩ := (ih (c :: after)).1 h
        exact ⟨n + 1, by simpa [go?_succ, step?] using hn⟩
    · rintro ⟨n, h⟩
      cases n with
      | zero => left; simpa [go?] using h.symm
      | succ n => right; exact (ih (c :: after)).2 ⟨n, by simpa [go?_succ, step?] using h⟩

/-- Going one way and back leads to where it began. -/
theorem step?_turn {p q : Cursor} {c : Char} : p.step? .behind = some (c, q) ↔ q.step? .ahead = some (c, p) := by
  obtain ⟨before, after⟩ := p
  obtain ⟨before', after'⟩ := q
  cases before <;> cases after' <;> grind [step?]

theorem go?_turn {n : Nat} {p q : Cursor} : p.go? .behind n = some q ↔ q.go? .ahead n = some p := by
  induction n generalizing p q with
  | zero => simp only [go?, Option.some.injEq]; exact eq_comm
  | succ n ih =>
    rw [go?_succ, go?_add, Option.bind_eq_some_iff, Option.bind_eq_some_iff]
    constructor
    · rintro ⟨⟨c, r⟩, hs, hr⟩
      exact ⟨r, ih.1 hr, by simp [go?, step?_turn.1 hs]⟩
    · rintro ⟨r, hr, hs⟩
      obtain ⟨⟨c, x⟩, hstep, hx⟩ := Option.bind_eq_some_iff.1 hs
      obtain rfl : x = p := by simpa [go?] using hx
      exact ⟨(c, r), step?_turn.2 hstep, ih.2 hr⟩

end Cursor

/-! ### Rounds -/

namespace Rounds

def prefer (greedy : Bool) (more none : List Cursor) : List Cursor := if greedy then more ++ none else none ++ more

variable (r : Cursor → List Cursor)

def times : Nat → Cursor → List Cursor
  | 0, p => [p]
  | n + 1, p => (r p).flatMap (times n)

/-- Where at most so many rounds can end. -/
def upTo (greedy : Bool) : Nat → Cursor → List Cursor
  | 0, p => [p]
  | n + 1, p => prefer greedy ((r p).flatMap (upTo greedy n)) [p]

/-- Where any number of rounds can end. A round that takes no character is the last, and the fuel bounds their
number. -/
def spin (greedy : Bool) : (fuel : Nat) → Cursor → List Cursor
  | 0, _ => []
  | fuel + 1, p => prefer greedy ((r p).flatMap fun q => if q = p then [q] else spin greedy fuel q) [p]

theorem mem_prefer {greedy : Bool} {xs ys : List Cursor} {q : Cursor} : q ∈ prefer greedy xs ys ↔ q ∈ xs ∨ q ∈ ys := by
  cases greedy <;> simp [prefer, or_comm]

variable {r}

theorem times_add (m n : Nat) (p : Cursor) : times r (m + n) p = (times r m p).flatMap (times r n) := by
  induction m generalizing p with
  | zero => simp [times]
  | succ m ih =>
    rw [Nat.succ_add, times, times, List.flatMap_assoc]
    congr 1
    funext q
    exact ih q

theorem mem_upTo {greedy : Bool} {n : Nat} {p q : Cursor} : q ∈ upTo r greedy n p ↔ ∃ k ≤ n, q ∈ times r k p := by
  induction n generalizing p with
  | zero => simp [upTo, times]
  | succ n ih =>
    rw [upTo, mem_prefer, List.mem_flatMap]
    constructor
    · rintro (⟨s, hs, hq⟩ | hq)
      · obtain ⟨k, hk, hq⟩ := ih.1 hq
        exact ⟨k + 1, by omega, List.mem_flatMap.2 ⟨s, hs, hq⟩⟩
      · exact ⟨0, Nat.zero_le _, hq⟩
    · rintro ⟨k, hk, hq⟩
      cases k with
      | zero => exact .inr hq
      | succ k =>
        obtain ⟨s, hs, hq⟩ := List.mem_flatMap.1 hq
        exact .inl ⟨s, hs, ih.2 ⟨k, by omega, hq⟩⟩

theorem exists_times_of_mem_spin {greedy : Bool} {fuel : Nat} {p q : Cursor} (h : q ∈ spin r greedy fuel p) :
    ∃ k, q ∈ times r k p := by
  induction fuel generalizing p with
  | zero => simp [spin] at h
  | succ fuel ih =>
    rw [spin, mem_prefer, List.mem_flatMap] at h
    obtain ⟨s, hs, hq⟩ | hq := h
    · split_ifs at hq with he
      · rw [List.mem_singleton.1 hq]
        exact ⟨1, by simpa [times] using hs⟩
      · obtain ⟨k, hq⟩ := ih hq
        exact ⟨k + 1, List.mem_flatMap.2 ⟨s, hs, hq⟩⟩
    · exact ⟨0, hq⟩

/-- Where every round takes characters, a round more than there is room for finds nothing. -/
def Consumes (d : Direction) (r : Cursor → List Cursor) : Prop := ∀ p, ∀ q ∈ r p, q.room d < p.room d

/-- Enough fuel is as good as any. -/
theorem spin_fuel {d : Direction} (hr : Consumes d r) {greedy : Bool} {m n : Nat} {p : Cursor} (hm : p.room d < m)
    (hn : p.room d < n) : spin r greedy m p = spin r greedy n p := by
  induction m generalizing n p with
  | zero => omega
  | succ m ih =>
    cases n with
    | zero => omega
    | succ n =>
      rw [spin, spin]
      congr 1
      apply List.flatMap_congr
      intro q hq
      have h := hr p q hq
      rw [ih (n := n) (by omega) (by omega)]

theorem mem_spin {d : Direction} (hr : Consumes d r) {greedy : Bool} {fuel : Nat} {p q : Cursor}
    (hf : p.room d < fuel) : q ∈ spin r greedy fuel p ↔ ∃ k, q ∈ times r k p := by
  refine ⟨exists_times_of_mem_spin, ?_⟩
  rintro ⟨k, hk⟩
  induction k generalizing p fuel with
  | zero =>
    cases fuel with
    | zero => omega
    | succ fuel => rw [spin, mem_prefer]; exact .inr hk
  | succ k ih =>
    cases fuel with
    | zero => omega
    | succ fuel =>
      obtain ⟨s, hs, hq⟩ := List.mem_flatMap.1 hk
      have h := hr p s hs
      rw [spin, mem_prefer, List.mem_flatMap]
      refine .inl ⟨s, hs, ?_⟩
      rw [if_neg (by rintro rfl; omega)]
      exact ih (by omega) hq

/-- Rounds can be gone through backwards. -/
theorem mem_times_turn {s : Cursor → List Cursor} (h : ∀ p q, q ∈ r p ↔ p ∈ s q) {k : Nat} {p q : Cursor} :
    q ∈ times r k p ↔ p ∈ times s k q := by
  induction k generalizing p q with
  | zero => simp only [times, List.mem_singleton]; exact eq_comm
  | succ k ih =>
    rw [times, times_add, List.mem_flatMap, List.mem_flatMap]
    refine exists_congr fun x => ?_
    simp only [times, List.flatMap_singleton', h p x, ih (p := x)]
    exact and_comm

end Rounds

namespace Expr

/-- Where a match from a place on in a direction can end, in the order in which the ways are tried. -/
def ends (d : Direction) : Expr → Cursor → List Cursor
  | empty, p => [p]
  | fail, _ => []
  | char c folded, p => p.past d (sameChar folded c)
  | set s, p => p.past d s.contains
  | anyChar newline, p => p.past d fun c => newline || c != '\n'
  | anchor a, p => if a.holds p then [p] else []
  | seq first rest, p =>
    match d with
    | .ahead => (first.ends d p).flatMap (rest.ends d)
    | .behind => (rest.ends d p).flatMap (first.ends d)
  | alt first rest, p => first.ends d p ++ rest.ends d p
  | rounds low high greedy body, p =>
    match high with
    | some high => (Rounds.times (body.ends d) (min low high) p).flatMap (Rounds.upTo (body.ends d) greedy (high - low))
    | none => (Rounds.times (body.ends d) low p).flatMap fun q => Rounds.spin (body.ends d) greedy (q.room d + 2) q
  | capture _ body, p => body.ends d p
  | atomic body, p => (body.ends d p).take 1
  | look .ahead negated body, p => if (body.ends .ahead p).isEmpty = negated then [p] else []
  | look .behind negated body, p => if (p.backs.any fun s => p ∈ body.ends .ahead s) != negated then [p] else []
  | backref _ _ _, _ => []

def Ordered : Expr → Prop
  | seq first rest | alt first rest => first.Ordered ∧ rest.Ordered
  | rounds low high _ body => low ≤ high.getD low ∧ body.Ordered
  | capture _ body | atomic body | look _ _ body => body.Ordered
  | _ => True

/-- A sweep covers everything in the expression. -/
def Sweepable : Expr → Prop
  | seq first rest | alt first rest => first.Sweepable ∧ rest.Sweepable
  | rounds _ _ _ body | capture _ body => body.Sweepable
  | atomic _ | look _ _ _ | backref _ _ _ => False
  | _ => True

theorem sweepable_of_isRegular {referenced : List Nat} {e : Expr} (h : e.isRegular referenced) : e.Sweepable := by
  induction e with
  | seq first rest ih ih' | alt first rest ih ih' =>
    simp only [isRegular, Bool.and_eq_true] at h
    exact ⟨ih h.1, ih' h.2⟩
  | rounds low high greedy body ih => exact ih h
  | capture group body ih =>
    simp only [isRegular, Bool.and_eq_true] at h
    exact ih h.2
  | atomic | look | backref => simp [isRegular] at h
  | empty | fail | char | set | anyChar | anchor => trivial

/-- What is repeated without an upper bound takes characters. -/
def Productive : Expr → Prop
  | seq first rest | alt first rest => first.Productive ∧ rest.Productive
  | rounds _ high _ body => (high = none → 0 < body.size.least) ∧ body.Productive
  | capture _ body | atomic body | look _ _ body => body.Productive
  | _ => True

end Expr

/-- A size of the way from one place to another. The lower bound counts on repeats whose counts are in order. -/
def Size.Fits (s : Size) (ordered : Prop) (d : Direction) (p q : Cursor) : Prop :=
  ∃ n, p.go? d n = some q ∧ (ordered → s.least ≤ n) ∧ (s.fixed = true → n = s.least)

namespace Size.Fits

variable {s t : Size} {A B : Prop} {d : Direction} {p q r : Cursor}

theorem nothing (p : Cursor) : Size.nothing.Fits A d p p := ⟨0, rfl, fun _ => Nat.le_refl 0, fun _ => rfl⟩

theorem one {c : Char} (h : p.step? d = some (c, q)) : Size.one.Fits A d p q :=
  ⟨1, by simp [Cursor.go?, h], fun _ => Nat.le_refl 1, fun _ => rfl⟩

theorem plus (h : s.Fits A d p q) (h' : t.Fits B d q r) : (s.plus t).Fits (A ∧ B) d p r := by
  obtain ⟨m, hm, hl, hf⟩ := h
  obtain ⟨n, hn, hl', hf'⟩ := h'
  refine ⟨m + n, by rw [Cursor.go?_add, hm]; exact hn, ?_, ?_⟩
  · rintro ⟨ha, hb⟩
    exact Nat.add_le_add (hl ha) (hl' hb)
  · intro h
    obtain ⟨h1, h2⟩ := Bool.and_eq_true_iff.1 h
    rw [hf h1, hf' h2]
    rfl

theorem plus_comm (s t : Size) : s.plus t = t.plus s := by
  simp only [Size.plus, Nat.add_comm, Bool.and_comm]

theorem either_left (h : s.Fits A d p q) (t : Size) : (s.either t).Fits (A ∧ B) d p q := by
  obtain ⟨n, hn, hl, hf⟩ := h
  refine ⟨n, hn, fun ha => Nat.le_trans (Nat.min_le_left ..) (hl ha.1), fun h => ?_⟩
  simp only [Size.either, Bool.and_eq_true, decide_eq_true_eq] at h ⊢
  rw [hf h.1.1, h.2, Nat.min_self]

theorem either_right (h : t.Fits B d p q) (s : Size) : (s.either t).Fits (A ∧ B) d p q := by
  obtain ⟨n, hn, hl, hf⟩ := h
  refine ⟨n, hn, fun hb => Nat.le_trans (Nat.min_le_right ..) (hl hb.2), fun h => ?_⟩
  simp only [Size.either, Bool.and_eq_true, decide_eq_true_eq] at h ⊢
  rw [hf h.1.2, h.2, Nat.min_self]

theorem times {f : Cursor → List Cursor} (hr : ∀ p, ∀ q ∈ f p, s.Fits A d p q) {k : Nat}
    (h : q ∈ Rounds.times f k p) : Size.Fits ⟨k * s.least, s.fixed⟩ A d p q := by
  induction k generalizing p with
  | zero =>
    rw [Rounds.times, List.mem_singleton] at h
    subst h
    exact ⟨0, rfl, by simp, by simp⟩
  | succ k ih =>
    obtain ⟨x, hx, hq⟩ := List.mem_flatMap.1 h
    obtain ⟨n, hn, hl, hf⟩ := (hr p x hx).plus (ih hq)
    simp only [Size.plus, Bool.and_self, Nat.add_comm s.least, ← Nat.succ_mul] at hl hf
    exact ⟨n, hn, fun ha => hl ⟨ha, ha⟩, hf⟩

end Size.Fits

namespace Expr

def Allows (low : Nat) (high : Option Nat) (k : Nat) : Prop :=
  match high with
  | some high => min low high ≤ k ∧ k ≤ min low high + (high - low)
  | none => low ≤ k

theorem exists_times_of_mem_rounds {d : Direction} {low : Nat} {high : Option Nat} {greedy : Bool} {body : Expr}
    {p q : Cursor} (h : q ∈ (rounds low high greedy body).ends d p) :
    ∃ k, Allows low high k ∧ q ∈ Rounds.times (body.ends d) k p := by
  cases high with
  | none =>
    obtain ⟨x, hx, hq⟩ := List.mem_flatMap.1 h
    obtain ⟨k, hk⟩ := Rounds.exists_times_of_mem_spin hq
    refine ⟨low + k, Nat.le_add_right .., ?_⟩
    rw [Rounds.times_add]
    exact List.mem_flatMap.2 ⟨x, hx, hk⟩
  | some high =>
    obtain ⟨x, hx, hq⟩ := List.mem_flatMap.1 h
    obtain ⟨k, hle, hk⟩ := Rounds.mem_upTo.1 hq
    refine ⟨min low high + k, ⟨by omega, by omega⟩, ?_⟩
    rw [Rounds.times_add]
    exact List.mem_flatMap.2 ⟨x, hx, hk⟩

theorem size_alt {first rest : Expr} (h : rest ≠ fail) : (alt first rest).size = first.size.either rest.size := by
  cases rest <;> first | rfl | contradiction

/-- The size of an expression is that of its matches. -/
theorem fits_of_mem_ends (e : Expr) {d : Direction} {p q : Cursor} (h : q ∈ e.ends d p) :
    e.size.Fits e.Ordered d p q := by
  induction e generalizing d p q with
  | empty | fail | anchor => simp [ends] at h <;> grind [Size.Fits.nothing, size]
  | char | set | anyChar =>
    obtain ⟨c, hc, -⟩ := Cursor.mem_past.1 h
    exact .one hc
  | seq first rest ih ih' =>
    cases d with
    | ahead =>
      obtain ⟨x, hx, hq⟩ := List.mem_flatMap.1 h
      exact (ih hx).plus (ih' hq)
    | behind =>
      obtain ⟨x, hx, hq⟩ := List.mem_flatMap.1 h
      obtain ⟨n, hn, hl, hf⟩ := (ih' hx).plus (ih hq)
      rw [size, Size.Fits.plus_comm]
      exact ⟨n, hn, fun ho => hl ho.symm, hf⟩
  | alt first rest ih ih' =>
    rw [ends, List.mem_append] at h
    by_cases hr : rest = fail
    · subst hr
      obtain ⟨n, hn, hl, hf⟩ := ih (h.resolve_right (by simp [ends]))
      exact ⟨n, hn, fun ho => hl ho.1, hf⟩
    · rw [size_alt hr]
      rcases h with h | h
      · exact (ih h).either_left _
      · exact (ih' h).either_right _
  | rounds low high greedy body ih =>
    obtain ⟨k, hk, hq⟩ := exists_times_of_mem_rounds h
    obtain ⟨n, hn, hl, hf⟩ := Size.Fits.times (fun p q hq => ih hq) hq
    refine ⟨n, hn, ?_, ?_⟩
    · rintro ⟨ho, hb⟩
      have hlow : low ≤ k := by
        cases high <;> simp only [Allows, Option.getD_none, Option.getD_some] at hk ho <;> omega
      exact Nat.le_trans (Nat.mul_le_mul_right _ hlow) (hl hb)
    · intro h
      simp only [size, Bool.and_eq_true, decide_eq_true_eq] at h ⊢
      obtain ⟨hs, rfl⟩ := h
      have hfix : k = low := by
        simp only [Allows] at hk
        omega
      rw [hf hs, hfix]
  | capture group body ih => exact ih h
  | atomic body ih => exact ih (List.mem_of_mem_take h)
  | look d' negated body ih => cases d' <;> simp [ends] at h <;> grind [Size.Fits.nothing, size]
  | backref => simp [ends] at h

/-- Matches of a fixed size end at the same place. -/
theorem eq_of_fixed {e : Expr} (h : e.size.fixed = true) {d : Direction} {p q r : Cursor} (hq : q ∈ e.ends d p)
    (hr : r ∈ e.ends d p) : q = r := by
  obtain ⟨m, hm, -, hf⟩ := e.fits_of_mem_ends hq
  obtain ⟨n, hn, -, hf'⟩ := e.fits_of_mem_ends hr
  rw [hf h] at hm
  rw [hf' h, hm] at hn
  exact Option.some.inj hn

/-- What takes at least one character does so wherever it is matched. -/
theorem consumes_of_size {e : Expr} (ho : e.Ordered) (hs : 0 < e.size.least) (d : Direction) :
    Rounds.Consumes d (e.ends d) := by
  intro p q hq
  obtain ⟨n, hn, hl, -⟩ := e.fits_of_mem_ends hq
  have h1 := Cursor.go?_room hn
  have h2 := hl ho
  omega

theorem mem_ends_rounds {d : Direction} {low : Nat} {high : Option Nat} {greedy : Bool} {body : Expr} {p q : Cursor}
    (hb : high = none → Rounds.Consumes d (body.ends d)) :
    q ∈ (rounds low high greedy body).ends d p ↔ ∃ k, Allows low high k ∧ q ∈ Rounds.times (body.ends d) k p := by
  refine ⟨exists_times_of_mem_rounds, ?_⟩
  rintro ⟨k, hk, hq⟩
  cases high with
  | none =>
    obtain ⟨j, rfl⟩ := Nat.exists_eq_add_of_le hk
    rw [Rounds.times_add] at hq
    obtain ⟨x, hx, hq⟩ := List.mem_flatMap.1 hq
    exact List.mem_flatMap.2 ⟨x, hx, (Rounds.mem_spin (hb rfl) (by omega)).2 ⟨j, hq⟩⟩
  | some high =>
    obtain ⟨hle, hge⟩ := hk
    obtain ⟨j, rfl⟩ := Nat.exists_eq_add_of_le hle
    rw [Rounds.times_add] at hq
    obtain ⟨x, hx, hq⟩ := List.mem_flatMap.1 hq
    exact List.mem_flatMap.2 ⟨x, hx, Rounds.mem_upTo.2 ⟨j, by omega, hq⟩⟩

/-- What can be swept matches the same stretches of text in both directions. -/
theorem mem_ends_turn {e : Expr} (hr : e.Sweepable) (ho : e.Ordered)
    (hp : e.Productive) {p q : Cursor} : q ∈ e.ends .behind p ↔ p ∈ e.ends .ahead q := by
  induction e generalizing p q with
  | empty => simp only [ends, List.mem_singleton]; exact eq_comm
  | fail => simp [ends]
  | char | set | anyChar => simp only [ends, Cursor.mem_past, Cursor.step?_turn]
  | anchor a => simp only [ends]; grind
  | seq first rest ih ih' =>
    simp only [ends, List.mem_flatMap]
    refine exists_congr fun x => ?_
    rw [ih hr.1 ho.1 hp.1, ih' hr.2 ho.2 hp.2]
    exact and_comm
  | alt first rest ih ih' =>
    simp only [ends, List.mem_append]
    rw [ih hr.1 ho.1 hp.1, ih' hr.2 ho.2 hp.2]
  | rounds low high greedy body ih =>
    rw [mem_ends_rounds fun h => consumes_of_size ho.2 (hp.1 h) _,
      mem_ends_rounds fun h => consumes_of_size ho.2 (hp.1 h) _]
    refine exists_congr fun k => and_congr_right fun _ => ?_
    exact Rounds.mem_times_turn fun p q => ih hr ho.2 hp.2
  | capture group body ih =>
    exact ih hr ho hp
  | atomic | look | backref => exact hr.elim

end Expr

end WordPattern.Regex
