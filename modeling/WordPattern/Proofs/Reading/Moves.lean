import WordPattern.Proofs.Reading.Fragments
import WordPattern.Proofs.Success

/-! What a token does to what has been read.

Whatever the token is, it makes one of a few moves. What each move keeps is kept by every token, and so by all that is
read. -/

namespace WordPattern.Regex

/-- A repeat count, or a mark that can be one. -/
def Token.isRepeat : Token → Bool
  | .star | .plus | .question | .count _ _ _ => true
  | _ => false

def Token.bounds? : Token → Option (Nat × Option Nat)
  | .star => some (0, none)
  | .plus => some (1, none)
  | .question => some (0, some 1)
  | .count _ low high => some (low, high)
  | _ => none

theorem Token.isRepeat_of_bounds? {t : Token} {low : Nat} {high : Option Nat} (h : t.bounds? = some (low, high)) :
    t.isRepeat = true := by
  cases t <;> first | rfl | contradiction

namespace ParseState

variable {s s' : ParseState} {t : Token}

/-- The move of a token. A count that can repeat nothing is text. -/
inductive Move (s : ParseState) : Token → ParseState → Prop
  | item {t : Token} {e : Expr} (h : tokenItem? s.flags t = some e) : Move s t (s.push e)
  | backref {name : Text} {group : Nat} (h : s.names.lookup name = some group) :
      Move s (.backref name) (s.push (.backref group s.flags.ignoreCase ((s.sizes.lookup group).getD .unknown)))
  | opening {o : Opening} {s' : ParseState} (h : s.step (.opening o) = .ok s') : Move s (.opening o) s'
  | flags (change : FlagChange) :
      Move s (.flags change) { s.modifyTop ({ · with tail := .rigid }) with flags := s.flags.apply change }
  | close {s' : ParseState} (h : s.closeGroup = .ok s') : Move s .close s'
  | bar : Move s .bar s.endBranch
  | again {t : Token} {low : Nat} {high : Option Nat} (ht : t.bounds? = some (low, high)) (h : s.top.tail = .item) :
      Move s t (s.repeatLast low high)
  | lazy (h : s.top.tail = .repeated) : Move s .question s.makeLazy
  | possessive (h : s.top.tail = .repeated ∨ s.top.tail = .lazy) : Move s .plus s.makePossessive
  | chars {source : Text} {low : Nat} {high : Option Nat} (hrigid : s.top.tail ≠ .rigid) (hitem : s.top.tail ≠ .item) :
      Move s (.count source low high) (source.foldl (fun s c => s.push (.char c s.flags.ignoreCase)) s)

theorem Move.step (h : Move s t s') : s.step t = .ok s' := by
  cases h with
  | item h => exact step_of_tokenItem? h
  | backref h => simp only [ParseState.step, h]
  | opening h | close h => exact h
  | flags | bar => rfl
  | again ht h =>
    cases t with
    | star | plus | question | count =>
      obtain ⟨rfl, rfl⟩ := Prod.mk.inj (Option.some.inj ht)
      simp [ParseState.step, h]
    | _ => contradiction
  | lazy h => simp only [ParseState.step, h]
  | possessive h => rcases h with h | h <;> simp only [ParseState.step, h]
  | chars hrigid hitem => cases htail : s.top.tail <;> first | contradiction | simp only [ParseState.step, htail]

/-- A token that is read makes a move. -/
theorem move_of_step (h : s.step t = .ok s') : Move s t s' := by
  cases t with
  | char | named | set | dot | caret | dollar | anchor | beforeFinalNewlines =>
    obtain rfl := Except.ok.inj h
    exact .item rfl
  | opening o => exact .opening h
  | flags change =>
    obtain rfl := Except.ok.inj h
    exact .flags change
  | close => exact .close h
  | bar =>
    obtain rfl := Except.ok.inj h
    exact .bar
  | backref name =>
    simp only [step] at h
    split at h
    · rename_i group hgroup
      obtain rfl := Except.ok.inj h
      exact .backref hgroup
    · contradiction
  | star =>
    simp only [step] at h
    split_ifs at h with htail
    obtain rfl := Except.ok.inj h
    exact .again rfl htail
  | plus =>
    simp only [step] at h
    cases htail : s.top.tail <;> simp only [htail, reduceCtorEq] at h <;> obtain rfl := Except.ok.inj h
    · exact .again rfl htail
    · exact .possessive (.inl htail)
    · exact .possessive (.inr htail)
  | question =>
    simp only [step] at h
    cases htail : s.top.tail <;> simp only [htail, reduceCtorEq] at h <;> obtain rfl := Except.ok.inj h
    · exact .again rfl htail
    · exact .lazy htail
  | count source low high =>
    simp only [step] at h
    cases htail : s.top.tail <;> simp only [htail, reduceCtorEq] at h <;> obtain rfl := Except.ok.inj h
    · exact .chars (by simp [htail]) (by simp [htail])
    · exact .again rfl htail
    · exact .chars (by simp [htail]) (by simp [htail])
    · exact .chars (by simp [htail]) (by simp [htail])

theorem around_opening {o : Opening} (h : s.step (.opening o) = .ok s') : s'.around = s.top :: s.around := by
  cases o <;> obtain rfl := Except.ok.inj h <;> rfl

/-- What every character keeps is kept by a text. -/
theorem chars_induction {P : ParseState → Prop} (hpush : ∀ s c folded, P s → P (s.push (.char c folded))) (source : Text)
    (h : P s) : P (source.foldl (fun s c => s.push (.char c s.flags.ignoreCase)) s) := by
  induction source generalizing s with
  | nil => exact h
  | cons c source ih => exact ih (hpush s c _ h)

/-- What every move keeps is kept by all that is read. -/
theorem steps_induction {P : ParseState → Prop} {ts : List Token}
    (hmove : ∀ {s t s'}, t ∈ ts → Move s t s' → P s → P s') (h : P s) (hs : s.steps ts = .ok s') : P s' := by
  induction ts generalizing s with
  | nil =>
    obtain rfl := Except.ok.inj hs
    exact h
  | cons t ts ih =>
    obtain ⟨s₁, hstep, hs⟩ := bind_eq_ok (show (s.step t).bind (·.steps ts) = .ok s' from hs)
    exact ih (fun ht => hmove (List.mem_cons_of_mem t ht)) (hmove List.mem_cons_self (move_of_step hstep) h) hs

end ParseState

/-- What can be read has been cut into tokens. -/
theorem exists_tokens_of_parse {source : Text} {parsed : Parsed} (h : parse source = .ok parsed) :
    ∃ ts, tokens source = .ok ts := by
  obtain ⟨ts, hts, -⟩ := bind_eq_ok (show (tokens source).bind _ = .ok parsed from h)
  exact ⟨ts, hts⟩

/-- What can be read ends outside of all groups. -/
theorem steps_of_parse {source : Text} {ts : List Token} {parsed : Parsed} (hts : tokens source = .ok ts)
    (h : parse source = .ok parsed) : ∃ s : ParseState, ParseState.start.steps ts = .ok s ∧ s.around = [] ∧
      parsed = ⟨s.top.body, s.names.reverse⟩ := by
  unfold parse at h
  rw [hts] at h
  obtain ⟨s, hs, h⟩ := bind_eq_ok (show (ParseState.start.steps ts).bind _ = .ok parsed from h)
  split at h
  · rename_i haround
    exact ⟨s, hs, haround, (Except.ok.inj h).symm⟩
  · contradiction

end WordPattern.Regex
