import WordPattern.Proofs.Generation.Plain

/-! What the characters, texts and boundaries that words are made of match, where case counts. -/

namespace WordPattern

open Regex

/-! ### Texts and assertions -/

section Words

variable {σ : Sense} {symbol : Char → Option Verbatim}

theorem Sense.mem_text (hfolded : σ.folded = false) {w : Text} {p q : Cursor} :
    q ∈ σ.text w p ↔ p.after = w ++ q.after ∧ q.before = w.reverse ++ p.before := by
  induction w generalizing p with
  | nil =>
    rw [text, List.mem_singleton]
    constructor
    · rintro rfl
      exact ⟨rfl, rfl⟩
    · rintro ⟨hafter, hbefore⟩
      cases p
      cases q
      simp_all
  | cons c w ih =>
    rw [text, Reach.andThen, List.mem_flatMap]
    constructor
    · rintro ⟨r, hr, hq⟩
      obtain ⟨d, hstep, hsame⟩ := mem_char.1 hr
      obtain ⟨hafter, hbefore⟩ := ih.1 hq
      have hcd : c = d := by simpa [same, sameChar, hfolded] using hsame
      subst hcd
      simp only [Cursor.step?] at hstep
      split at hstep
      · contradiction
      · rename_i c' rest hp
        obtain ⟨rfl, rfl⟩ := Prod.mk.inj (Option.some.inj hstep)
        exact ⟨hp.trans (congrArg (List.cons c') hafter), by rw [hbefore]; simp⟩
    · rintro ⟨hafter, hbefore⟩
      refine ⟨⟨c :: p.before, w ++ q.after⟩, mem_char.2 ⟨c, ?_, ?_⟩, ih.2 ⟨rfl, by simpa using hbefore⟩⟩
      · rw [Cursor.step?, hafter]
        rfl
      · simp [same, sameChar]

/-- A word without symbols matches itself. -/
theorem Sense.word_text {w : Text} (h : ∀ c ∈ w, symbol c = none) : σ.word symbol w = σ.text w := by
  rw [← σ.items_leaves, word]
  congr 1
  refine List.map_congr_left fun c hc => ?_
  rw [Node.ofChar, h c hc]

theorem Sense.word_assertion {c : Char} {v : Verbatim} (h : symbol c = some v) (hv : v.role ≠ .pattern) :
    σ.word symbol [c] = σ.assertion v := by
  rw [word, List.map_singleton, items_singleton, Node.ofChar, h]
  exact if_neg hv

end Words

section Plain

variable {settings : Settings} {bound : Bound} {table : SymbolTable} {words : List Text} {vocabulary : Vocabulary}

def Settings.plainSense (settings : Settings) : Sense := settings.sense fun yes _ => Reach.optionalIf yes fun _ => []

theorem uniform_plainSense : settings.plainSense.Uniform := fun yes _ => by cases yes <;> rfl

theorem left_anchor (hs : settings.Asserts bound) (ht : table.Holds settings words) :
    table.left.map (fun s => s.verbatim.anchor settings.multiline) = bound.leftAssertion := by
  have h := congrArg (Option.map (Verbatim.anchor settings.multiline)) ht.left
  rw [Option.map_map, Option.map_map] at h
  exact h.trans hs.left

theorem right_anchor (hs : settings.Asserts bound) (ht : table.Holds settings words) :
    table.right.map (fun s => s.verbatim.anchor settings.multiline) = bound.rightAssertion := by
  have h := congrArg (Option.map (Verbatim.anchor settings.multiline)) ht.right
  rw [Option.map_map, Option.map_map] at h
  exact h.trans hs.right

/-- A boundary is earned where the bound asserts something. -/
theorem passesTest_eq (hs : settings.Asserts bound) {a : Anchor}
    (h : bound.leftAssertion = some a ∨ bound.rightAssertion = some a) (c : Char) :
    settings.passesTest c = bound.admits c := by
  refine hs.test (fun hnone => ?_) c
  rw [← hs.left, ← hs.right, hnone] at h
  simp at h

/-- A symbol that has been earned asserts something, and one that has not been earned is not there. -/
theorem mem_word_boundary {special : Bool → Verbatim → Reach} {symbol : Option Symbol} {assertion : Option Anchor}
    {earned : Bool} {p q : Cursor}
    (hassertion : symbol.map (fun s => s.verbatim.anchor settings.multiline) = assertion)
    (hmeaning : ∀ s, symbol = some s → table.meaning s.placeholder = some s.verbatim ∧ s.verbatim.role ≠ .pattern) :
    q ∈ (settings.sense special).word table.meaning (if earned then symbol.map (·.placeholder) else none).toList p ↔
      q = p ∧ ∀ a, assertion = some a → earned = true → a.holds p = true := by
  subst hassertion
  cases hsymbol : symbol with
  | none =>
    simp [Sense.word, Sense.items]
  | some s =>
    cases earned with
    | false => simp [Sense.word, Sense.items]
    | true =>
      obtain ⟨hs, hrole⟩ := hmeaning s hsymbol
      rw [if_pos rfl, Option.map_some, Option.toList_some, Sense.word_assertion hs hrole, Sense.mem_assertion, and_comm]
      simp [Settings.sense]

theorem meaning_left (ht : table.Holds settings words) {s : Symbol} (h : table.left = some s) :
    table.meaning s.placeholder = some s.verbatim ∧ s.verbatim.role ≠ .pattern := by
  obtain ⟨pattern, -, hv⟩ := ht.left_verbatim h
  exact ⟨ht.meaning_eq_some.2 ⟨s, SymbolTable.mem_symbols.2 (.inr (.inl h)), rfl, rfl⟩, by rw [hv]; simp⟩

theorem meaning_right (ht : table.Holds settings words) {s : Symbol} (h : table.right = some s) :
    table.meaning s.placeholder = some s.verbatim ∧ s.verbatim.role ≠ .pattern := by
  obtain ⟨pattern, -, hv⟩ := ht.right_verbatim h
  refine ⟨ht.meaning_eq_some.2 ⟨s, SymbolTable.mem_symbols.2 (.inr (.inr h)), rfl, rfl⟩, ?_⟩
  rw [hv]
  simp only
  split_ifs <;> simp

theorem isRight_eq_false (ht : table.Holds settings words) {c : Char} (h : table.meaning c = none) :
    table.isRight c = false := by
  rw [SymbolTable.isRight, Option.any_eq_false]
  intro s hr
  refine decide_eq_false fun heq => ?_
  rw [← heq, (meaning_right ht hr).1] at h
  contradiction

end Plain

end WordPattern
