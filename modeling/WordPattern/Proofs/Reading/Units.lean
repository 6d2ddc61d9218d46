import WordPattern.Proofs.Reading.Moves

/-! Sources that are a single unit: one character, one escape, one set, or one group around everything.

A repeat count after such a source applies to all of it. -/

namespace WordPattern.Regex

/-- Given the number of groups that are open, the number after some tokens, unless a group is closed that has not been
opened. -/
def openAfter : Nat → List Token → Option Nat
  | n, [] => some n
  | n, .opening _ :: ts => openAfter (n + 1) ts
  | 0, .close :: _ => none
  | n + 1, .close :: ts => openAfter n ts
  | n, _ :: ts => openAfter n ts

theorem openAfter_cons (n : Nat) (t : Token) (ts : List Token) :
    openAfter n (t :: ts) = (openAfter n [t]).bind fun m => openAfter m ts := by
  cases t <;> cases n <;> rfl

/-- Every group that is opened is closed, and no other. -/
def Balanced (ts : List Token) : Prop := openAfter 0 ts = some 0

def Token.isItem : Token → Bool
  | .char _ | .named _ _ | .set _ _ | .dot | .caret | .dollar | .anchor _ | .beforeFinalNewlines | .backref _ => true
  | _ => false

/-- One item or one group. -/
inductive SingleUnit : List Token → Prop
  | item {t : Token} (h : t.isItem = true) : SingleUnit [t]
  | group (o : Opening) {inner : List Token} (h : Balanced inner) : SingleUnit (.opening o :: inner ++ [.close])

/-- The source is read as one item or one group. -/
def IsSingleUnit (source : Text) : Prop := ∃ ts, tokens source = .ok ts ∧ SingleUnit ts

namespace ParseState

variable {s s' : ParseState} {t : Token} {ts : List Token}

theorem Move.exists_push (h : Move s t s') (ht : t.isItem = true) : ∃ e, s' = s.push e := by
  cases h with
  | item | backref => exact ⟨_, rfl⟩
  | again hbounds => cases t <;> contradiction
  | _ => contradiction

/-- What a token does to the groups around it: only parentheses open one or close one. -/
theorem Move.around_cases (h : Move s t s') :
    (∃ o, t = .opening o ∧ s'.around = s.top :: s.around) ∨ (t = .close ∧ ∃ outer, s.around = outer :: s'.around) ∨
      (∀ n, openAfter n [t] = some n) ∧ s'.around = s.around := by
  cases h with
  | opening h => exact .inl ⟨_, rfl, around_opening h⟩
  | close h =>
    cases haround : s.around with
    | nil => simp [closeGroup, haround] at h
    | cons outer around =>
      obtain ⟨sizes, hclose⟩ := closeGroup_eq haround
      obtain rfl := Except.ok.inj (hclose.symm.trans h)
      exact .inr (.inl ⟨rfl, outer, rfl⟩)
  | item h | again h =>
    refine .inr (.inr ⟨fun n => ?_, rfl⟩)
    cases t <;> first | contradiction | cases n <;> rfl
  | flags | bar | backref | lazy | possessive => exact .inr (.inr ⟨fun n => by cases n <;> rfl, rfl⟩)
  | chars =>
    refine .inr (.inr ⟨fun n => by cases n <;> rfl, ?_⟩)
    exact chars_induction (P := fun s' => s'.around = s.around) (fun _ _ _ h => h) _ rfl

/-- The groups that are open around some tokens stay open. -/
theorem around_steps {n m : Nat} {new base : List Frame} (hnew : new.length = n) (haround : s.around = new ++ base)
    (hopen : openAfter n ts = some m) (h : s.steps ts = .ok s') :
    ∃ new' : List Frame, new'.length = m ∧ s'.around = new' ++ base := by
  induction ts generalizing s n new with
  | nil =>
    obtain rfl := Except.ok.inj h
    obtain rfl := Option.some.inj hopen
    exact ⟨new, hnew, haround⟩
  | cons t ts ih =>
    obtain ⟨s₁, hstep, hrest⟩ := bind_eq_ok (show (s.step t).bind (·.steps ts) = .ok s' from h)
    rcases (move_of_step hstep).around_cases with ⟨o, rfl, hpushed⟩ | ⟨rfl, outer, hpopped⟩ | ⟨hkeeps, hkept⟩
    · have hnew' : (s.top :: new).length = n + 1 := congrArg Nat.succ hnew
      exact ih hnew' (by rw [hpushed, haround, List.cons_append]) hopen hrest
    · cases new with
      | nil =>
        subst hnew
        contradiction
      | cons frame new =>
        subst hnew
        rw [haround, List.cons_append] at hpopped
        exact ih rfl (List.cons.inj hpopped).2.symm hopen hrest
    · rw [openAfter_cons, hkeeps] at hopen
      exact ih hnew (hkept.trans haround) hopen hrest

/-- What is read has closed no group that it has not opened. -/
theorem openAfter_of_steps (h : s.steps ts = .ok s') : openAfter s.around.length ts = some s'.around.length := by
  induction ts generalizing s with
  | nil =>
    obtain rfl := Except.ok.inj h
    rfl
  | cons t ts ih =>
    obtain ⟨s₁, hstep, hrest⟩ := bind_eq_ok (show (s.step t).bind (·.steps ts) = .ok s' from h)
    have hlater := ih hrest
    rcases (move_of_step hstep).around_cases with ⟨o, rfl, hpushed⟩ | ⟨rfl, outer, hpopped⟩ | ⟨hkeeps, hkept⟩
    · rw [hpushed] at hlater
      exact hlater
    · rw [hpopped]
      exact hlater
    · rw [openAfter_cons, hkeeps, ← hkept]
      exact hlater

end ParseState

open ParseState

variable {s s' : ParseState} {ts : List Token}

/-- A unit is read as one item. -/
theorem SingleUnit.exists_push (h : SingleUnit ts) (hs : s.steps ts = .ok s') :
    ∃ (s₁ : ParseState) (e : Expr), s' = s₁.push e ∧ s₁.top = s.top ∧ s₁.around = s.around := by
  cases h with
  | item ht =>
    rename_i t
    obtain ⟨s₂, hstep, hs⟩ := bind_eq_ok (show (s.step t).bind (·.steps []) = .ok s' from hs)
    obtain rfl := Except.ok.inj hs
    obtain ⟨e, rfl⟩ := (move_of_step hstep).exists_push ht
    exact ⟨s, e, rfl, rfl, rfl⟩
  | group o hinner =>
    rename_i inner
    obtain ⟨s₁, hopen, hs⟩ := bind_eq_ok (show (s.step (.opening o)).bind (·.steps (inner ++ [.close])) = .ok s' from hs)
    rw [steps_append] at hs
    obtain ⟨s₂, hs₂, hs⟩ := bind_eq_ok (show (s₁.steps inner).bind _ = .ok s' from hs)
    obtain ⟨s₃, hclose, hs⟩ := bind_eq_ok (show (s₂.step .close).bind (·.steps []) = .ok s' from hs)
    obtain rfl := Except.ok.inj hs
    -- the group that is closed is the one that has been opened
    obtain ⟨new, hnew, haround⟩ := around_steps List.length_nil (around_opening hopen) hinner hs₂
    obtain rfl := List.length_eq_zero_iff.1 hnew
    obtain ⟨sizes, hclosed⟩ := closeGroup_eq haround
    exact ⟨_, _, (Except.ok.inj (hclosed.symm.trans hclose)).symm, rfl, rfl⟩

/-- Alone in its group, an item is all that there is. -/
theorem body_push {s : ParseState} (hbranches : s.top.branches = []) (hitems : s.top.items = []) (e : Expr) :
    (s.push e).top.body = e := by
  simp only [push, modifyTop, Frame.body, Frame.branch, hbranches, hitems]
  split_ifs with he
  · rw [he]
    rfl
  · rfl

/-- What a unit is read as alone. -/
theorem SingleUnit.parse_eq (h : SingleUnit ts) {source : Text} {parsed : Parsed} (hts : tokens source = .ok ts)
    (hparsed : parse source = .ok parsed) : ∃ s : ParseState, ParseState.start.steps ts = .ok (s.push parsed.expr) ∧
      s.top = ParseState.start.top ∧ s.around = [] ∧ (s.push parsed.expr).names.reverse = parsed.names := by
  obtain ⟨s', hs', -, rfl⟩ := steps_of_parse hts hparsed
  obtain ⟨s, e, rfl, htop, haround⟩ := h.exists_push hs'
  have hbody : (s.push e).top.body = e := body_push (by rw [htop]; rfl) (by rw [htop]; rfl) e
  refine ⟨s, ?_, htop, haround, ?_⟩
  · rw [hbody, hs']
  · rw [hbody]

/-! ### Repeats -/

/-- Tokens that repeat what stands before them, and what becomes of it. -/
inductive Quantifies : List Token → (Expr → Expr) → Prop
  | greedy {t : Token} {low : Nat} {high : Option Nat} (h : t.bounds? = some (low, high)) :
      Quantifies [t] (.rounds low high true)
  | lazy {t : Token} {low : Nat} {high : Option Nat} (h : t.bounds? = some (low, high)) :
      Quantifies [t, .question] (.rounds low high false)
  | possessive {t : Token} {low : Nat} {high : Option Nat} (h : t.bounds? = some (low, high)) :
      Quantifies [t, .plus] fun e => .atomic (.rounds low high true e)

/-- A mark after a repeat changes the repeat. -/
theorem changeLast_repeatLast (s : ParseState) (low : Nat) (high : Option Nat) (tail : Tail) (g : Expr → Expr) :
    (s.repeatLast low high).changeLast tail g = s.changeLast tail fun e => g (.rounds low high true e) := by
  cases hitems : s.top.items <;> simp [repeatLast, changeLast, modifyTop, hitems]

theorem Quantifies.steps {f : Expr → Expr} (h : Quantifies ts f) (hs : s.top.tail = .item) :
    ∃ tail, s.steps ts = .ok (s.changeLast tail f) := by
  cases h with
  | greedy ht => exact ⟨.repeated, by rw [ParseState.steps, (Move.again ht hs).step]; rfl⟩
  | lazy ht =>
    refine ⟨.lazy, ?_⟩
    rw [ParseState.steps, (Move.again ht hs).step]
    exact congrArg Except.ok (changeLast_repeatLast s _ _ _ _)
  | possessive ht =>
    refine ⟨.closed, ?_⟩
    rw [ParseState.steps, (Move.again ht hs).step]
    exact congrArg Except.ok (changeLast_repeatLast s _ _ _ _)

theorem Quantifies.isRepeatable {f : Expr → Expr} (h : Quantifies ts f) (e : Expr) : (f e).isRepeatable = true := by
  cases h <;> rfl

/-- A repeat after a unit applies to all of it. -/
theorem SingleUnit.parse_quantified (h : SingleUnit ts) {source text : Text} {parsed : Parsed}
    (hts : tokens source = .ok ts) (hparsed : parse source = .ok parsed) (hrepeat : parsed.expr.isRepeatable = true)
    {us : List Token} {f : Expr → Expr} (hf : Quantifies us f) (htext : tokens text = .ok (ts ++ us)) :
    parse text = .ok ⟨f parsed.expr, parsed.names⟩ := by
  obtain ⟨s, hs, htop, haround, hnames⟩ := h.parse_eq hts hparsed
  have htail : (s.push parsed.expr).top.tail = .item := by rw [tail_push, hrepeat, if_pos rfl]
  obtain ⟨tail, hquantified⟩ := hf.steps htail
  have hsteps : ParseState.start.steps (ts ++ us) = .ok ((s.push parsed.expr).changeLast tail f) := by
    rw [steps_append, hs]
    exact hquantified
  have hbody : ((s.push parsed.expr).changeLast tail f).top.body = f parsed.expr := by
    simp only [changeLast, push, modifyTop, if_neg (ne_empty_of_isRepeatable hrepeat), Frame.body, Frame.branch, htop]
    rfl
  have hnone : ((s.push parsed.expr).changeLast tail f).around = [] := haround
  have hkept : ((s.push parsed.expr).changeLast tail f).names.reverse = parsed.names := hnames
  simp only [parse, htext, bind, Except.bind, hsteps, hnone, hbody, hkept]
  rfl

end WordPattern.Regex
