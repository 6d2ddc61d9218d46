import WordPattern.Proofs.Languages.Reading
import WordPattern.Proofs.Reading.SelfContained

/-! The languages of patterns that are taken as they are.

A self-contained pattern has the language wherever it stands that it has alone. -/

namespace WordPattern.Regex

open ParseState

/-- The texts that a pattern stands for when it is read alone. -/
def sourceLanguage (source : Text) : Language Char :=
  match parse source with
  | .ok parsed => parsed.expr.language
  | .error _ => 0

/-- The pattern is self-contained, and what it is read as has a language. -/
structure IsRegular (source : Text) : Prop extends SelfContained source where
  hasLanguage : ∀ parsed, parse source = .ok parsed → parsed.expr.HasLanguage

/-- Alone, the pattern is read as one item, and a repeat would apply to this item. -/
def IsAtom (source : Text) : Prop :=
  ∃ ts s e, tokens source = .ok ts ∧ ParseState.start.steps ts = .ok s ∧ s.top.items = [e] ∧ s.top.tail = .item

/-- Expressions that are the same but for the numbers of groups and the places where lines begin and end. -/
theorem language_of_bare_eq {m : Bool} {es fs : List Expr}
    (h : es.map (Expr.bare { multiline := m }) = fs.map (Expr.bare { multiline := m })) (hlang : ∀ f ∈ fs, f.HasLanguage) :
    (∀ e ∈ es, e.HasLanguage) ∧ es.map Expr.language = fs.map Expr.language := by
  induction es generalizing fs with
  | nil =>
    rw [List.map_nil, eq_comm, List.map_eq_nil_iff] at h
    subst h
    exact ⟨by simp, rfl⟩
  | cons e es ih =>
    cases fs with
    | nil => simp at h
    | cons f fs =>
      simp only [List.map_cons, List.cons.injEq] at h
      obtain ⟨hf, hfs⟩ := List.forall_mem_cons.1 hlang
      obtain ⟨hes, hrest⟩ := ih h.2 hfs
      have he : e.HasLanguage := Expr.hasLanguage_bare.1 (h.1 ▸ Expr.hasLanguage_bare.2 hf)
      refine ⟨List.forall_mem_cons.2 ⟨he, hes⟩, ?_⟩
      rw [List.map_cons, List.map_cons, hrest, ← Expr.language_bare (m := m) he, h.1, Expr.language_bare hf]

variable {strict : Prop} {ts : List Token} {s : ParseState} {m : Bool}

/-- A fragment has the language wherever it stands that it has alone. -/
theorem StandsAlone.denotes (h : StandsAlone ts) (hs : (alone {}).steps ts = .ok s)
    (hlang : ∀ e ∈ s.top.items, e.HasLanguage) :
    DenotesMany strict { multiline := m } ts (s.top.items.reverse.map Expr.language).prod False := by
  intro s₁ hflags
  have hloose : bareFlags { multiline := true } {} = bareFlags { multiline := true } s₁.flags := by
    rw [hflags]
    simp [bareFlags]
  have halone := h.steps_flags hloose
  rw [hs] at halone
  rcases h.steps s₁ with ⟨x, y, -, hy⟩ | ⟨s', s₀, hs', hs₀, -, es, hgrown, hes⟩
  · rw [hy] at halone
    contradiction
  · rw [hs₀] at halone
    simp only [Except.map, Except.ok.injEq, ParseState.bare, bareFrame, ParseState.mk.injEq, Frame.mk.injEq] at halone
    have hitems := halone.2.1.2.2.2.1
    obtain ⟨hlang₀, hmap₀⟩ := language_of_bare_eq hitems.symm hlang
    obtain ⟨hlang', hmap'⟩ := language_of_bare_eq hes (by simpa using hlang₀)
    refine .inl ⟨s', hs', es, hgrown, hlang', ?_, False.elim⟩
    rw [hmap', List.map_reverse, hmap₀, List.map_reverse]

/-- After an item a question mark makes it optional. -/
theorem StandsAlone.denotes_question (h : StandsAlone ts) (hs : (alone {}).steps ts = .ok s) {e : Expr}
    (hitems : s.top.items = [e]) (htail : s.top.tail = .item) (he : e.HasLanguage) :
    DenotesMany strict { multiline := m } (ts ++ [.question]) (1 + e.language) (Takes e.language) := by
  have hne : ts ≠ [] := by
    rintro rfl
    obtain rfl := Except.ok.inj hs
    contradiction
  have hsteps : (alone {}).steps (ts ++ [.question]) = .ok (s.repeatLast 0 (some 1)) := by
    rw [steps_append, hs]
    simp [Except.bind, ParseState.steps, step, htail, bind]
  have hrepeated : (s.repeatLast 0 (some 1)).top.items = [.rounds 0 (some 1) true e] := by
    simp [repeatLast, changeLast, modifyTop, hitems]
  have hlang : ∀ x ∈ (s.repeatLast 0 (some 1)).top.items, x.HasLanguage := by
    rw [hrepeated]
    intro x hx
    rw [List.mem_singleton.1 hx]
    exact ⟨Nat.zero_le 1, he⟩
  have hdenotes : DenotesMany strict { multiline := m } (ts ++ [.question]) _ _ :=
    (h.append_question hne).denotes hsteps hlang
  rw [hrepeated, List.reverse_singleton, List.map_singleton, List.prod_singleton, Expr.language_optional] at hdenotes
  refine hdenotes.orTakes.weaken fun htakes => ?_
  obtain ⟨t, ht, hne⟩ := htakes
  exact .inr ⟨t, .inr ht, hne⟩

namespace IsRegular

variable {source : Text}

/-- What a regular pattern is read as alone. -/
theorem read (h : IsRegular source) : ∃ ts s, Lexes source ts ∧ StandsAlone ts ∧ (alone {}).steps ts = .ok s ∧
    (∀ e ∈ s.top.items, e.HasLanguage) ∧ sourceLanguage source = (s.top.items.reverse.map Expr.language).prod := by
  obtain ⟨ts, s, hlex, halone, hs, hexpr⟩ := h.toSelfContained.read
  obtain ⟨parsed, hparsed⟩ := h.parses
  have hlang := h.hasLanguage parsed hparsed
  rw [hexpr parsed hparsed, Expr.hasLanguage_sequence] at hlang
  refine ⟨ts, s, hlex, halone, hs, fun e he => hlang e (List.mem_reverse.2 he), ?_⟩
  rw [sourceLanguage, hparsed]
  simp only [hexpr parsed hparsed, Expr.language_sequence]

theorem denotes (h : IsRegular source) :
    ∃ ts, Lexes source ts ∧ DenotesMany strict { multiline := m } ts (sourceLanguage source) (Takes (sourceLanguage source)) := by
  obtain ⟨ts, s, hlex, halone, hs, hlang, hL⟩ := h.read
  rw [hL]
  exact ⟨ts, hlex, (halone.denotes hs hlang).orTakes.weaken .inr⟩

/-- After an atom a question mark needs no group. -/
theorem denotes_question (h : IsRegular source) (hatom : IsAtom source) :
    ∃ ts, Lexes source ts ∧ DenotesMany strict { multiline := m } (ts ++ [.question]) (1 + sourceLanguage source)
      (Takes (sourceLanguage source)) := by
  obtain ⟨ts, s, hlex, halone, hs, hlang, hL⟩ := h.read
  obtain ⟨ts', s', e, hts, hs', hitems, htail⟩ := hatom
  obtain rfl := Except.ok.inj (hlex.tokens_eq.symm.trans hts)
  obtain rfl := Except.ok.inj (hs.symm.trans hs')
  have hone : sourceLanguage source = e.language := by
    rw [hL, hitems, List.reverse_singleton, List.map_singleton, List.prod_singleton]
  rw [hone]
  exact ⟨ts, hlex, halone.denotes_question hs hitems htail (hlang e (by rw [hitems]; exact List.mem_cons_self))⟩

end IsRegular

end WordPattern.Regex
