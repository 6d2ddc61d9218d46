import WordPattern.Proofs.Generation.Checked
import WordPattern.Proofs.Reading.SelfContained

/-! Specials whose patterns are read between other patterns as they are read alone. -/

namespace WordPattern

open Regex

/-! ### Reading a special -/

/-- The places where a special can end, optional or not, as its pattern is read alone. -/
def Verbatim.readAlone (φ : Flags) (yes : Bool) (v : Verbatim) : Reach :=
  match tokens v.pattern with
  | .error _ => fun p => [p]
  | .ok ts =>
    if yes then
      if v.atomic && !v.pattern.isEmpty then reachAlone φ (ts ++ [.question]) else (reachAlone φ ts).optional
    else reachAlone φ ts

/-- Such a special can be read. Where the reading is strict its pattern has items, and a repeat can follow it if it is
said to be atomic. -/
theorem readable_of_firmAlone {σ : Sense} {φ : Flags} {strict : Prop} {v : Verbatim} {ts : List Token}
    (hσ : σ.special = Verbatim.readAlone φ) (hrole : v.role = .pattern) (hopens : Opens v.pattern)
    (hlex : Lexes v.pattern ts) (hfirm : FirmAlone strict ts) (hne : strict → v.pattern ≠ [])
    (hlast : strict → v.atomic = true → ∀ s, (ParseState.alone {}).steps ts = .ok s → s.top.tail = .item) :
    v.Readable σ strict φ := by
  refine ⟨fun h => absurd hrole h, fun _ yes => ?_⟩
  have hitems := hfirm.readsItems φ
  rw [hσ]
  unfold Verbatim.readAlone Verbatim.specialText
  rw [hlex.tokens_eq]
  cases yes with
  | false => exact ⟨hopens, hne, ts, hlex, hitems⟩
  | true =>
    simp only [if_true]
    have hquestion : Opens ['?'] := opens_cons (by decide) _
    split_ifs with hatomic
    · simp only [Bool.and_eq_true, Bool.not_eq_true', List.isEmpty_eq_false_iff] at hatomic
      have hts := hlex.ne_nil hatomic.2
      exact ⟨hopens.append hquestion, fun _ => by simp, _, hlex.append lexes_question hquestion,
        (hfirm.append_question hts fun hstrict => hlast hstrict hatomic.1).readsItems φ⟩
    · have hbranches := hitems.branches fun hstrict => hlex.ne_nil (hne hstrict)
      refine ⟨(opens_group .backtracking false v.pattern).append hquestion, fun _ => by simp, _,
        (lexes_group hlex hopens .backtracking false).append lexes_question hquestion, ?_⟩
      have hgroup := (hbranches.closable .backtracking false).question
      rwa [Reach.kept_false] at hgroup

/-! ### The specials of options -/

section Options

variable {o : Options} {settings : Settings}

theorem mem_putSpecial {key : Key} {special : Special} {entries : List (Key × Special)} {entry : Key × Special}
    (h : entry ∈ putSpecial key special entries) : entry = (key, special) ∨ entry ∈ entries := by
  induction entries with
  | nil => exact .inl (List.mem_singleton.1 h)
  | cons e rest ih =>
    obtain ⟨k, s⟩ := e
    unfold putSpecial at h
    split_ifs at h with hkey
    · subst hkey
      rcases List.mem_cons.1 h with rfl | h
      · exact .inl rfl
      · exact .inr (List.mem_cons_of_mem _ h)
    · rcases List.mem_cons.1 h with rfl | h
      · exact .inr List.mem_cons_self
      · exact (ih h).imp_right (List.mem_cons_of_mem _)

def Options.impliedPatterns (o : Options) : List Text := [if o.normalizeBlanks then blankRunPattern else [' '], ['#']]

/-- Something holds of every special that is given. -/
def Options.EachRule (o : Options) (P : Rule → Prop) : Prop :=
  ∀ entry ∈ o.specials, ∀ rule, Rule.ofSpecial entry.1 entry.2 = .ok rule → P rule

/-- A special comes from the options or is implied by them. -/
theorem mem_allSpecials {entry : Key × Special} (h : entry ∈ o.allSpecials) :
    entry ∈ o.specials ∨ ∃ text pattern, entry = (.literal text, { pattern := some pattern }) ∧
      pattern ∈ o.impliedPatterns := by
  have hput : ∀ {text pattern : Text} {entries : List (Key × Special)}, pattern ∈ o.impliedPatterns →
      (entry ∈ entries → entry ∈ o.specials ∨ ∃ text pattern, entry = (.literal text, { pattern := some pattern }) ∧
        pattern ∈ o.impliedPatterns) → entry ∈ putSpecial (.literal text) { pattern := some pattern } entries →
      entry ∈ o.specials ∨ ∃ text pattern, entry = (.literal text, { pattern := some pattern }) ∧
        pattern ∈ o.impliedPatterns := by
    intro text pattern entries hpattern hentries hmem
    rcases mem_putSpecial hmem with heq | hmem
    · exact .inr ⟨text, pattern, heq, hpattern⟩
    · exact hentries hmem
  have hblank : ∀ {pattern : Text}, pattern = (if o.normalizeBlanks then blankRunPattern else [' ']) →
      pattern ∈ o.impliedPatterns := fun h => h ▸ List.mem_cons_self
  have hhash : ['#'] ∈ o.impliedPatterns := List.mem_cons_of_mem _ List.mem_cons_self
  unfold Options.allSpecials at h
  simp only at h
  split_ifs at h with hext hblanks
  · exact hput hhash (hput (hblank (by rw [if_pos hblanks])) .inl) h
  · exact hput hhash (hput (hblank (by rw [if_neg hblanks])) .inl) h
  · rename_i hblanks
    exact hput (hblank (by rw [if_pos hblanks])) .inl h
  · exact .inl h

theorem ofSpecial_literal {text pattern : Text} {rule : Rule}
    (h : Rule.ofSpecial (.literal text) { pattern := some pattern } = .ok rule) :
    rule.pattern = pattern ∧ rule.atomic = false := by
  unfold Rule.ofSpecial at h
  simp only at h
  split_ifs at h
  · contradiction
  · obtain rfl := Except.ok.inj h
    exact ⟨rfl, rfl⟩

/-- A rule comes from a special of the options or is written as one that they imply. -/
theorem Settings.mem_rules (h : Settings.ofOptions o = .ok settings) {rule : Rule} (hrule : rule ∈ settings.rules) :
    (∃ entry ∈ o.specials, Rule.ofSpecial entry.1 entry.2 = .ok rule) ∨
      rule.pattern ∈ o.impliedPatterns ∧ rule.atomic = false := by
  obtain ⟨-, boundary, rules, -, hrules, rfl⟩ := Settings.ofOptions_eq_ok h
  obtain ⟨entry, hentry, heq⟩ := (mapM_eq_ok hrules).1 rule hrule
  rcases mem_allSpecials hentry with hentry | ⟨text, pattern, rfl, hpattern⟩
  · exact .inl ⟨entry, hentry, heq⟩
  · obtain ⟨rfl, hatomic⟩ := ofSpecial_literal heq
    exact .inr ⟨hpattern, hatomic⟩

theorem impliedPatterns_cases {pattern : Text} (h : pattern ∈ o.impliedPatterns) :
    pattern = blankRunPattern ∨ pattern = [' '] ∨ pattern = ['#'] := by
  simp only [Options.impliedPatterns, List.mem_cons, List.not_mem_nil, or_false] at h
  split_ifs at h <;> tauto

/-- What options imply can be read. -/
theorem firmAlone_implied {pattern : Text} (h : pattern ∈ o.impliedPatterns) (strict : Prop) :
    pattern ≠ [] ∧ Opens pattern ∧ ∃ ts, Lexes pattern ts ∧ FirmAlone strict ts := by
  have hchar : ∀ c : Char, FirmAlone strict [.char c] := fun c =>
    { contained := rfl
      head := fun t ht => by rw [← Option.some.inj ht]; rfl
      firm := fun s hs e he => by
        obtain rfl := Except.ok.inj hs
        rw [List.mem_singleton.1 he]
        exact ⟨⟨trivial, fun _ => trivial⟩, fun _ => rfl⟩
      accepted := fun _ => ⟨_, rfl, fun _ => by simp [ParseState.push, ParseState.modifyTop]⟩ }
  rcases impliedPatterns_cases h with rfl | rfl | rfl
  · have hset : Lexes ['[', '[', ':', 's', 'p', 'a', 'c', 'e', ':', ']', ']']
        [.set false [.named .asciiSpace false]] := lexes_token fun rest _ => rfl
    have hplus : Lexes ['+', '+'] [.plus, .plus] := lexes_plus.append lexes_plus (opens_cons (by decide) _)
    refine ⟨by simp [blankRunPattern], opens_cons (by decide) _, _, hset.append hplus (opens_cons (by decide) _), ?_⟩
    exact {
      contained := rfl
      head := fun t ht => by rw [← Option.some.inj ht]; rfl
      firm := fun s hs e he => by
        obtain rfl := Except.ok.inj hs
        rw [List.mem_singleton.1 he]
        exact ⟨⟨⟨fun _ => by decide, trivial⟩, fun _ => ⟨by decide, trivial⟩⟩, fun _ => rfl⟩
      accepted := fun _ => ⟨_, rfl, fun _ => by simp [ParseState.makePossessive, ParseState.changeLast,
        ParseState.repeatLast, ParseState.push, ParseState.modifyTop]⟩ }
  · exact ⟨by simp, opens_cons (by decide) _, _, lexes_token fun rest _ => rfl, hchar ' '⟩
  · exact ⟨by simp, opens_cons (by decide) _, _, lexes_token fun rest _ => rfl, hchar '#'⟩

end Options

end WordPattern
