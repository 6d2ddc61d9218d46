import Mathlib.Tactic.SplitIfs
import WordPattern.CharClass
import WordPattern.Mode
import WordPattern.Regex.Token

/-! Fragments of source and the tokens that they are read as.

A fragment reads the same whatever follows, unless it is an opening brace that no repeat count closes: such a brace may
be taken for the start of a count, or change how the edge of a word before it is read. -/

namespace WordPattern.Regex

/-- If a text begins with a brace, the brace opens a repeat count. -/
def Admissible (rest : Text) : Prop := ∀ r, rest = '\x7b' :: r → (bounds? r).isSome

/-- A fragment is read as some tokens, whatever follows. -/
def Lexes (f : Text) (ts : List Token) : Prop :=
  ∀ rest, Admissible rest → tokensAfter 0 (f ++ rest) = (tokensAfter 0 rest).map (ts ++ ·)

/-- A fragment can stand after any other. -/
def Opens (f : Text) : Prop := ∀ rest, Admissible rest → Admissible (f ++ rest)

theorem admissible_nil : Admissible [] := fun _ h => by simp at h

theorem admissible_cons {c : Char} (h : c ≠ '\x7b') (rest : Text) : Admissible (c :: rest) :=
  fun _ hr => absurd (List.cons.inj hr).1 h

theorem opens_nil : Opens [] := fun _ h => h

theorem opens_cons {c : Char} (h : c ≠ '\x7b') (f : Text) : Opens (c :: f) := fun _ _ => admissible_cons h _

theorem opens_of_head {f : Text} (h : f.head? ≠ some '\x7b') : Opens f := by
  cases f with
  | nil => exact opens_nil
  | cons c f => exact opens_cons (fun hc => h (congrArg some hc)) f

theorem Opens.append {f g : Text} (hf : Opens f) (hg : Opens g) : Opens (f ++ g) := by
  intro rest h
  rw [List.append_assoc]
  exact hf _ (hg _ h)

theorem tokensAfter_eq_drop (n : Nat) (r : Text) : tokensAfter n r = tokensAfter 0 (r.drop n) := by
  induction n generalizing r with
  | zero => rfl
  | succ n ih =>
    cases r with
    | nil => rfl
    | cons c r => exact ih r

theorem lexes_nil : Lexes [] [] := by
  intro rest _
  rw [List.nil_append]
  cases tokensAfter 0 rest <;> rfl

theorem Lexes.append {f g : Text} {ts us : List Token} (hf : Lexes f ts) (hg : Lexes g us) (ho : Opens g) :
    Lexes (f ++ g) (ts ++ us) := by
  intro rest h
  rw [List.append_assoc, hf _ (ho _ h), hg _ h]
  cases tokensAfter 0 rest with
  | error e => rfl
  | ok more => simp [Except.map]

theorem Lexes.tokens_eq {f : Text} {ts : List Token} (h : Lexes f ts) : tokens f = .ok ts := by
  have := h [] admissible_nil
  rw [List.append_nil] at this
  rw [tokens, this]
  simp [tokensAfter, Except.map]

theorem Lexes.unique {f : Text} {ts us : List Token} (h : Lexes f ts) (h' : Lexes f us) : ts = us :=
  Except.ok.inj (h.tokens_eq.symm.trans h'.tokens_eq)

/-- Characters make tokens. -/
theorem Lexes.ne_nil {f : Text} {ts : List Token} (h : Lexes f ts) (hf : f ≠ []) : ts ≠ [] := by
  rintro rfl
  have hts := h.tokens_eq
  cases f with
  | nil => contradiction
  | cons c r =>
    rw [tokens, tokensAfter] at hts
    cases ht : token c r with
    | error e => simp [ht, bind, Except.bind] at hts
    | ok tn =>
      cases hr : tokensAfter tn.2 r <;> simp [ht, hr, bind, Except.bind, pure, Except.pure] at hts

/-- One token, with all characters that belong to it. -/
theorem lexes_token {c : Char} {r : Text} {t : Token}
    (h : ∀ rest, Admissible rest → token c (r ++ rest) = .ok (t, r.length)) : Lexes (c :: r) [t] := by
  intro rest hrest
  rw [List.cons_append, tokensAfter, h rest hrest]
  simp only [bind, Except.bind, tokensAfter_eq_drop r.length, List.drop_left]
  cases tokensAfter 0 rest <;> rfl

/-! ### Marks -/

theorem lexes_close : Lexes [')'] [.close] := lexes_token fun _ _ => rfl

theorem lexes_bar : Lexes ['|'] [.bar] := lexes_token fun _ _ => rfl

theorem lexes_question : Lexes ['?'] [.question] := lexes_token fun _ _ => rfl

theorem lexes_plus : Lexes ['+'] [.plus] := lexes_token fun _ _ => rfl

theorem lexes_caret : Lexes ['^'] [.caret] := lexes_token fun _ _ => rfl

theorem lexes_dollar : Lexes ['$'] [.dollar] := lexes_token fun _ _ => rfl

theorem lexes_plainGroup : Lexes ['(', '?', ':'] [.opening (.plain {})] := lexes_token fun _ _ => rfl

theorem lexes_atomicGroup : Lexes ['(', '?', '>'] [.opening .atomic] := lexes_token fun _ _ => rfl

/-- A name after its angle bracket. -/
theorem parenthesis_named {r name : Text} {n : Nat} (h : nonemptyName r = .ok (name, n)) :
    parenthesis ('?' :: '<' :: r) = .ok (.opening (.named name), n + 2) := by
  have hhead : ∀ r', r ≠ '=' :: r' ∧ r ≠ '!' :: r' := by
    intro r'
    constructor
    all_goals
      rintro rfl
      contradiction
  unfold parenthesis
  split
  case h_10 hname _ _ heq => exact absurd (List.cons.inj heq).2.symm (hname _)
  all_goals simp_all [Except.map]

theorem lexes_nothing : Lexes nothingText [.opening (.look .ahead true), .close] :=
  Lexes.append (f := ['(', '?', '!']) (lexes_token fun _ _ => rfl) lexes_close (opens_cons (by decide) _)

theorem lexes_textStart : Lexes ['\\', 'A'] [.anchor .textStart] := lexes_token fun _ _ => rfl

theorem lexes_textEnd : Lexes ['\\', 'z'] [.anchor .textEnd] := lexes_token fun _ _ => rfl

theorem lexes_wordEdge : Lexes ['\\', 'b'] [.anchor .wordEdge] := by
  refine lexes_token fun rest h => ?_
  change wordEdge 'b' (.anchor .wordEdge) rest = .ok (.anchor .wordEdge, 1)
  unfold wordEdge
  split
  · rename_i inner
    rw [if_pos (h inner rfl)]
  · rfl

/-! ### Single characters -/

/-- Escapes that stand for a character. -/
theorem lexes_escaped {c : Char} (hc : c ∈ [' ', '\\', '.', '*', '+', '?', '(', ')', '[', ']', '\x7b', '\x7d', '|', '^',
    '$', '#']) : Lexes ['\\', c] [.char c] := by
  refine lexes_token fun rest _ => ?_
  simp only [List.mem_cons, List.not_mem_nil, or_false] at hc
  rcases hc with rfl | rfl | rfl | rfl | rfl | rfl | rfl | rfl | rfl | rfl | rfl | rfl | rfl | rfl | rfl | rfl <;> rfl

theorem token_plain {c : Char} (h : isSyntaxChar c = false) (r : Text) : token c r = .ok (.char c, 0) := by
  simp only [isSyntaxChar, List.mem_cons, List.not_mem_nil, or_false, decide_eq_false_iff_not, not_or] at h
  unfold token
  split <;> first | rfl | simp_all

theorem lexes_quoteChar (c : Char) : Lexes (quoteChar c) [.char c] := by
  unfold quoteChar blankEscape?
  split
  · exact lexes_escaped (by decide)
  · exact lexes_token fun _ _ => rfl
  · exact lexes_token fun _ _ => rfl
  · exact lexes_token fun _ _ => rfl
  · exact lexes_token fun _ _ => rfl
  · exact lexes_token fun _ _ => rfl
  · rw [Option.getD_none]
    split_ifs with h
    · refine lexes_escaped ?_
      simp only [isSyntaxChar, decide_eq_true_eq] at h
      exact List.mem_cons_of_mem _ h
    · exact lexes_token fun rest _ => token_plain (by simpa using h) _

theorem opens_quoteChar (c : Char) : Opens (quoteChar c) := by
  unfold quoteChar blankEscape?
  split
  all_goals try exact opens_cons (by decide) _
  rw [Option.getD_none]
  split_ifs with h
  · exact opens_cons (by decide) _
  · refine opens_cons ?_ _
    rintro rfl
    exact h (by decide)

/-! ### Counts -/

def countText (k : Nat) : Text := '\x7b' :: Nat.toDigits 10 k ++ ['\x7d']

theorem decimal_toDigits (k : Nat) : decimal (Nat.toDigits 10 k) = k :=
  Nat.ofDigitChars_ten_toDigits

theorem bounds?_count {k : Nat} (h : k < boundLimit) (rest : Text) :
    bounds? (Nat.toDigits 10 k ++ '\x7d' :: rest) = some (k, some k, (Nat.toDigits 10 k).length + 1) := by
  have hdigits : ∀ c ∈ Nat.toDigits 10 k, c.isDigit = true :=
    fun c hc => Nat.isDigit_of_mem_toDigits (by decide) (by decide) hc
  have htake : (Nat.toDigits 10 k ++ '\x7d' :: rest).takeWhile Char.isDigit = Nat.toDigits 10 k := by
    rw [List.takeWhile_append_of_pos hdigits, List.takeWhile_cons_of_neg (by decide), List.append_nil]
  have hdrop : (Nat.toDigits 10 k ++ '\x7d' :: rest).dropWhile Char.isDigit = '\x7d' :: rest := by
    rw [List.dropWhile_append_of_pos hdigits, List.dropWhile_cons_of_neg (by decide)]
  unfold bounds?
  simp only [htake, hdrop, decimal_toDigits]
  rw [if_neg (Nat.not_le.2 h)]
  simp [Nat.toDigits_ne_nil]

theorem lexes_count {k : Nat} (h : k < boundLimit) : Lexes (countText k) [.count (countText k) k (some k)] := by
  refine lexes_token fun rest _ => ?_
  change Except.ok (brace (Nat.toDigits 10 k ++ ['\x7d'] ++ rest)) = _
  rw [List.append_assoc, List.singleton_append, brace, bounds?_count h]
  have htake : (Nat.toDigits 10 k ++ '\x7d' :: rest).take ((Nat.toDigits 10 k).length + 1) =
      Nat.toDigits 10 k ++ ['\x7d'] := by
    rw [List.take_length_add_append]
    rfl
  simp [htake, countText]

theorem opens_count {k : Nat} (h : k < boundLimit) : Opens (countText k) := by
  intro rest _ r hr
  obtain ⟨-, rfl⟩ := List.cons.inj hr
  change (bounds? (Nat.toDigits 10 k ++ ['\x7d'] ++ rest)).isSome
  rw [List.append_assoc, List.singleton_append, bounds?_count h]
  rfl

end WordPattern.Regex
