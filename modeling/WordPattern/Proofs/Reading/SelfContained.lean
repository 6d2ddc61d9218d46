import WordPattern.Proofs.Reading.Alone

/-! Patterns that are read between other patterns as they are read alone. -/

namespace WordPattern.Regex

open ParseState

/-! ### Which characters begin a repeat -/

section Heads

variable {r : Text} {t : Token} {n : Nat}

theorem isRepeat_wordEdge {c : Char} {edge : Token} (hedge : edge.isRepeat = false)
    (h : wordEdge c edge r = .ok (t, n)) : t.isRepeat = false := by
  unfold wordEdge at h
  split at h
  · split at h
    · obtain ⟨rfl, -⟩ := Prod.mk.inj (Except.ok.inj h)
      exact hedge
    · split at h
      · split at h
        · obtain ⟨rfl, -⟩ := Prod.mk.inj (Except.ok.inj h)
          rfl
        · contradiction
      · contradiction
  · obtain ⟨rfl, -⟩ := Prod.mk.inj (Except.ok.inj h)
    exact hedge

theorem isRepeat_escape (h : escape r = .ok (t, n)) : t.isRepeat = false := by
  unfold escape at h
  split at h
  · obtain ⟨rfl, -⟩ := Prod.mk.inj (Except.ok.inj h)
    rfl
  · split at h
    · obtain ⟨_, -, heq⟩ := map_eq_ok h
      obtain ⟨rfl, -⟩ := Prod.mk.inj heq
      rfl
    · split at h
      · rename_i c _ _ _ hplace
        have hedge : ∀ {c : Char} {u : Token}, escapedOutside? c = some u → u.isRepeat = false := by
          intro c u hu
          unfold escapedOutside? at hu
          split at hu <;> first | (obtain rfl := Option.some.inj hu; rfl) | contradiction
        split_ifs at h
        · exact isRepeat_wordEdge (hedge hplace) h
        · obtain ⟨rfl, -⟩ := Prod.mk.inj (Except.ok.inj h)
          exact hedge hplace
      · obtain ⟨_, -, heq⟩ := map_eq_ok h
        obtain ⟨rfl, -⟩ := Prod.mk.inj heq
        rfl
    · contradiction

theorem isRepeat_bracket (h : bracket r = .ok (t, n)) : t.isRepeat = false := by
  have hbody : ∀ negated r u m, bracketBody negated r = .ok (u, m) → u.isRepeat = false := by
    intro negated r u m h
    obtain ⟨_, -, h⟩ := bind_eq_ok h
    obtain ⟨_, -, h⟩ := bind_eq_ok h
    obtain ⟨rfl, -⟩ := Prod.mk.inj (Except.ok.inj h)
    rfl
  unfold bracket at h
  split at h
  · obtain ⟨_, hm, heq⟩ := map_eq_ok h
    obtain ⟨rfl, -⟩ := Prod.mk.inj heq
    exact hbody _ _ _ _ hm
  · exact hbody _ _ _ _ h

theorem isRepeat_parenthesis (h : parenthesis r = .ok (t, n)) : t.isRepeat = false := by
  unfold parenthesis at h
  simp only at h
  split at h
  case h_7 | h_8 =>
    obtain ⟨_, -, heq⟩ := map_eq_ok h
    obtain ⟨rfl, -⟩ := Prod.mk.inj heq
    rfl
  case h_9 => contradiction
  case h_10 =>
    obtain ⟨⟨change, colon, m⟩, -, h⟩ := bind_eq_ok h
    obtain ⟨rfl, -⟩ := Prod.mk.inj (Except.ok.inj h)
    cases colon <;> rfl
  all_goals
    obtain ⟨rfl, -⟩ := Prod.mk.inj (Except.ok.inj h)
    rfl

theorem head_of_isRepeat {c : Char} (h : token c r = .ok (t, n)) (ht : t.isRepeat = true) :
    c ∈ ['*', '+', '?', '\x7b'] := by
  unfold token at h
  split at h
  case h_1 => rw [isRepeat_escape h] at ht; contradiction
  case h_2 => rw [isRepeat_bracket h] at ht; contradiction
  case h_3 => rw [isRepeat_parenthesis h] at ht; contradiction
  case h_4 | h_7 | h_8 | h_9 => decide
  all_goals
    obtain ⟨rfl, -⟩ := Prod.mk.inj (Except.ok.inj h)
    contradiction

/-- Only a brace begins a repeat count. -/
theorem head_of_count {source text : Text} {low : Nat} {high : Option Nat} {ts : List Token}
    (h : tokens source = .ok (.count text low high :: ts)) : source.head? = some '\x7b' := by
  cases source with
  | nil => exact absurd (Except.ok.inj h) (by simp)
  | cons c r =>
    obtain ⟨⟨u, n⟩, hu, h⟩ := bind_eq_ok h
    obtain ⟨rest, -, h⟩ := bind_eq_ok h
    obtain ⟨rfl, -⟩ := List.cons.inj (Except.ok.inj h)
    have hc := head_of_isRepeat hu rfl
    simp only [List.mem_cons, List.not_mem_nil, or_false] at hc
    rcases hc with rfl | rfl | rfl | rfl
    · cases hu
    · cases hu
    · cases hu
    · rfl

/-- Of the repeats only a count can come first, as text. -/
theorem head_of_steps {ts : List Token} {s s' : ParseState} (htail : s.top.tail = .closed) (h : s.steps (t :: ts) = .ok s')
    (ht : t.isRepeat = true) : ∃ source low high, t = .count source low high := by
  obtain ⟨s₁, hstep, -⟩ := bind_eq_ok (show (s.step t).bind (·.steps ts) = .ok s' from h)
  cases t with
  | count source low high => exact ⟨source, low, high, rfl⟩
  | star | plus | question => simp [step, htail] at hstep
  | _ => contradiction

/-- A pattern that does not begin with a brace does not begin with a repeat if it can be read at all. -/
theorem isRepeat_head_eq_false {source : Text} {ts : List Token} {s s' : ParseState} (hhead : source.head? ≠ some '\x7b')
    (hts : tokens source = .ok ts) (htail : s.top.tail = .closed) (h : s.steps ts = .ok s') :
    ∀ t, ts.head? = some t → t.isRepeat = false := by
  intro t ht
  obtain ⟨us, rfl⟩ := List.head?_eq_some_iff.1 ht
  by_contra hrepeat
  have hrepeat : t.isRepeat = true := by simpa using hrepeat
  obtain ⟨_, _, _, rfl⟩ := head_of_steps htail h hrepeat
  exact hhead (head_of_count hts)

end Heads

/-! ### Self-contained patterns -/

/-- The pattern is a regular expression that is read alone as it is read between others: its branches and changes of flags
stay in groups, it refers to no group, and it does not begin with a repeat count or end in the middle of one. -/
structure SelfContained (source : Text) : Prop where
  head : source.head? ≠ some '\x7b'
  contained : ∃ ts, Lexes source ts ∧ contained [] ts = true
  parses : ∃ parsed, parse source = .ok parsed

namespace SelfContained

variable {source : Text} {strict : Prop}

theorem opens (h : SelfContained source) : Opens source := opens_of_head h.head

/-- Alone, such a pattern is read as the items of one branch. -/
theorem read (h : SelfContained source) : ∃ ts s, Lexes source ts ∧ StandsAlone ts ∧ (alone {}).steps ts = .ok s ∧
    ∀ parsed, parse source = .ok parsed → parsed.expr = .sequence s.top.items.reverse := by
  obtain ⟨ts, hlex, hcontained⟩ := h.contained
  obtain ⟨parsed, hparsed⟩ := h.parses
  unfold parse at hparsed ⊢
  rw [hlex.tokens_eq] at hparsed ⊢
  obtain ⟨s, hs, hparsed⟩ := bind_eq_ok (show ((alone {}).steps ts).bind _ = .ok parsed from hparsed)
  have halone : StandsAlone ts := ⟨hcontained, isRepeat_head_eq_false h.head hlex.tokens_eq rfl hs⟩
  refine ⟨ts, s, hlex, halone, hs, fun parsed' hparsed' => ?_⟩
  rcases halone.steps (alone {}) with ⟨x, -, hx, -⟩ | ⟨s', -, hs', -, -, es, hgrown, -⟩
  · rw [hs] at hx
    contradiction
  · obtain rfl := Except.ok.inj (hs.symm.trans hs')
    have haround : s.around = [] := hgrown.around
    have hbranches : s.top.branches = [] := hgrown.branches
    obtain ⟨s', hs', hparsed'⟩ := bind_eq_ok (show ((alone {}).steps ts).bind _ = .ok parsed' from hparsed')
    obtain rfl := Except.ok.inj (hs.symm.trans hs')
    rw [haround] at hparsed'
    obtain rfl := Except.ok.inj hparsed'
    simp only [Frame.body, hbranches, List.reverse_singleton, Expr.choice, Frame.branch]

end SelfContained

theorem plain_of_sequence {es : List Expr} (h : (Expr.sequence es).Plain) : ∀ e ∈ es, e.Plain := by
  have hfold : ∀ es : List Expr, (es.foldr Expr.seq .empty).Plain → ∀ e ∈ es, e.Plain := by
    intro es h
    induction es with
    | nil => simp
    | cons e es ih =>
      intro x hx
      rcases List.mem_cons.1 hx with rfl | hx
      · exact h.1
      · exact ih h.2 x hx
  unfold Expr.sequence at h
  split at h
  · simp
  · intro x hx
    rwa [List.mem_singleton.1 hx]
  · exact hfold _ h

/-- Such a pattern is read as the same items wherever it stands if what it stands for is plain. -/
theorem SelfContained.firmAlone {source : Text} (h : SelfContained source)
    (hplain : ∀ parsed, parse source = .ok parsed → parsed.expr.Plain) :
    ∃ ts, Lexes source ts ∧ FirmAlone False ts := by
  obtain ⟨ts, s, hlex, halone, hs, hexpr⟩ := h.read
  obtain ⟨parsed, hparsed⟩ := h.parses
  refine ⟨ts, hlex, { halone with firm := fun s' hs' e he => ?_, accepted := False.elim }⟩
  obtain rfl := Except.ok.inj (hs.symm.trans hs')
  have hsequence := hplain parsed hparsed
  rw [hexpr parsed hparsed] at hsequence
  exact ⟨⟨plain_of_sequence hsequence e (List.mem_reverse.2 he), False.elim⟩, False.elim⟩

end WordPattern.Regex
