import Mathlib.Data.List.Sort
import WordPattern.Proofs.Generation.Items
import WordPattern.Proofs.Generation.LongestKey
import WordPattern.Proofs.Generation.Plain
import WordPattern.Proofs.Lowercase

/-! A vocabulary is its own vocabulary, where there are no boundaries and nothing that could be found in it.

The second time, placeholders are characters like any others. They are above the characters of all keys, so a key that
occurred in a word would occur between two of them, in a piece that has been found to hold no key. Without keys the words
are lowercased as a whole, and what is in lower case stays as it is. -/

namespace WordPattern

open SymbolTable

/-! ### Bodies, the second time -/

section Again

variable {settings : Settings} {table : SymbolTable} {words : List Text}

theorem placeholder_not_mem_label (ht : SymbolTable.ofWords settings words = .ok table)
    (hrules : ∀ rule ∈ settings.rules, rule.IsLiteral) {s t : Symbol} (hs : s ∈ table.symbols) (ht' : t ∈ table.entries) :
    s.placeholder ∉ t.label := by
  obtain ⟨rule, hrule, hlabel⟩ := exists_rule_of_label ht ht'
  obtain ⟨key, hkey, -, -⟩ := hrules rule hrule
  rw [hlabel, hkey]
  intro hc
  have hle : s.placeholder.toNat ≤ ceiling settings words := le_ceiling_of_mem_key hrule hkey hc
  exact Nat.lt_irrefl _ (((holds_of_ofWords ht).above s hs).trans_le hle)

/-- No label occurs in a body: not in a literal piece, and not over a placeholder. -/
theorem not_infix_body (hcase : settings.ignoreCase = false) (ht : SymbolTable.ofWords settings words = .ok table)
    (hrules : ∀ rule ∈ settings.rules, rule.IsLiteral) (w : Text) :
    ∀ s ∈ table.entries, ¬ s.label <:+: (settings.wordOf table w).body := by
  intro s hs
  have hne : ∀ s ∈ table.entries, s.label ≠ [] := fun s hs => label_ne_nil ht hrules hs
  refine scan_induction hne (P := fun _ pieces => ¬ s.label <:+: pieces.flatMap settings.pieceText)
    (fun t hclear => ?_) (fun t other w pieces hclear hnext ih h => ?_) w
  · rw [flatMap_literalPiece hcase]
    exact hclear.not_infix hs (hne s hs)
  · rw [List.flatMap_append, List.flatMap_cons, flatMap_literalPiece hcase] at h
    have hother : other ∈ table.symbols := mem_symbols.2 (.inl (next?_spec hnext).1)
    rcases infix_of_not_mem (placeholder_not_mem_label ht hrules hother hs) h with h | h
    · exact hclear.not_infix hs (hne s hs) h
    · exact ih h

variable (ht : SymbolTable.ofWords settings words = .ok table) (hrules : ∀ rule ∈ settings.rules, rule.IsLiteral)

include ht hrules

/-- The body of a word is made up of itself. -/
theorem body_body (hkeys : settings.ignoreCase = false ∨ settings.rules = []) (w : Text) :
    (settings.wordOf table (settings.wordOf table w).body).body = (settings.wordOf table w).body := by
  have hbody : ∀ w, (settings.wordOf table w).body = (scan table.entries [] 0 w).flatMap settings.pieceText := fun _ => rfl
  rcases hkeys with hcase | hnone
  · have hnot := not_infix_body hcase ht hrules w
    rw [hbody (settings.wordOf table w).body, scan_of_not_infix hnot, List.nil_append, flatMap_literalPiece hcase]
  · have hentries : table.entries = [] := by
      have hlabels := labels_of_ofWords ht
      rw [rulesOf, hnone] at hlabels
      exact List.map_eq_nil_iff.1 hlabels
    have hscan : ∀ w, scan table.entries [] 0 w = literalPiece w := by
      intro w
      rw [hentries]
      exact scan_of_not_infix fun _ h => absurd h List.not_mem_nil
    rw [hbody, hbody, hscan, hscan, flatMap_pieceText_literalPiece, flatMap_pieceText_literalPiece]
    split_ifs
    · exact Unicode.lowercase_lowercase w
    · rfl

omit hrules in
theorem wordOf_of_boundary_eq_none (hboundary : settings.boundary = none) (w : Text) :
    settings.wordOf table w = ⟨none, (settings.wordOf table w).body, none⟩ := by
  have hholds := holds_of_ofWords ht
  have hleft : table.left = none := by
    rw [← Option.not_isSome_iff_eq_none, hholds.left_isSome, hboundary]
    rintro ⟨_, _, h, -⟩
    contradiction
  have hright : table.right = none := by
    rw [← Option.not_isSome_iff_eq_none, hholds.right_isSome, hboundary]
    rintro ⟨_, _, h, -⟩
    contradiction
  simp [Settings.wordOf, Settings.boundedWord, hleft, hright]

end Again

/-! ### Vocabularies -/

namespace Vocabulary

variable {settings : Settings} {table : SymbolTable} {words : List Text}

/-- Words in order that are made up of themselves are their own vocabulary. -/
theorem ofWords_of_wordOf (ht : SymbolTable.ofWords settings words = .ok table)
    (hrules : ∀ rule ∈ settings.rules, rule.IsLiteral) {xs : List Text} (hrising : xs.Pairwise (· < ·))
    (hne : ∀ x ∈ xs, x ≠ []) (hself : ∀ x ∈ xs, settings.wordOf table x = ⟨none, x, none⟩) :
    ofWords settings table xs = .ok ⟨xs, false, false⟩ := by
  have hwords : xs.map (settings.wordOf table) = xs.map fun x => ⟨none, x, none⟩ := List.map_congr_left hself
  have htexts : (xs.map fun x => BoundedWord.mk none x none).map (·.text) = xs := by
    simp [Function.comp_def, BoundedWord.text]
  have hfilter : xs.filter (!·.isEmpty) = xs := List.filter_eq_self.2 fun x hx => by simpa using hne x hx
  have hascending : ascending xs = xs := (pairwise_ascending xs).eq_of_mem_iff hrising fun _ => mem_ascending
  rw [ofWords_wordOf hrules ht, hwords, htexts, hfilter, hascending]
  simp

/-- Without a boundary, the words of a vocabulary are their own vocabulary: if case counts and all keys are literal, and
whatever case does if there are no specials. -/
theorem ofWords_words {o : Options} (hs : Settings.ofOptions o = .ok settings) (hbound : o.bound = .none)
    (hkeys : (o.ignoreCase = false ∧ ∀ entry ∈ o.specials, ∃ text, entry.1 = .literal text) ∨ o.allSpecials = [])
    (ht : SymbolTable.ofWords settings words = .ok table) :
    ∃ vocabulary, ofWords settings table words = .ok vocabulary ∧
      ofWords settings table vocabulary.words = .ok vocabulary := by
  have hrules : ∀ rule ∈ settings.rules, rule.IsLiteral := by
    rcases hkeys with ⟨-, hliteral⟩ | hnone
    · exact isLiteral_of_mem_rules hs hliteral
    · simp [Settings.rules_eq_nil hs hnone]
  have hkeys : settings.ignoreCase = false ∨ settings.rules = [] := by
    refine hkeys.imp (fun hcase => ?_) (Settings.rules_eq_nil hs)
    obtain ⟨-, _, _, -, -, rfl⟩ := Settings.ofOptions_eq_ok hs
    exact hcase.1
  have hboundary : settings.boundary = none := by
    obtain ⟨-, boundary, _, hboundary, -, rfl⟩ := Settings.ofOptions_eq_ok hs
    rw [hbound] at hboundary
    exact (Except.ok.inj hboundary).symm
  have hword := wordOf_of_boundary_eq_none ht hboundary
  have hunused : ∀ (side : BoundedWord → Option Char), (∀ body, side ⟨none, body, none⟩ = none) →
      words.any (fun w => (side (settings.wordOf table w)).isSome) = false := by
    intro side hside
    rw [List.any_eq_false]
    intro w _
    rw [hword w, hside]
    exact Bool.false_ne_true
  obtain ⟨⟨xs, leftUsed, rightUsed⟩, hvocabulary, hleft, hright⟩ := exists_vocabulary_of_literal hrules ht
  obtain rfl : leftUsed = false := hleft.trans (hunused (·.left) fun _ => rfl)
  obtain rfl : rightUsed = false := hright.trans (hunused (·.right) fun _ => rfl)
  refine ⟨_, hvocabulary, ofWords_of_wordOf ht hrules (pairwise_words hvocabulary)
    (fun x hx => ((mem_words hvocabulary).1 hx).1) ?_⟩
  -- a word of the vocabulary is the body of a word, which is made up of itself
  intro x hx
  obtain ⟨-, w, -, pieces, hpieces, rfl⟩ := (mem_words hvocabulary).1 hx
  obtain rfl := Except.ok.inj ((cut_eq_scan ht hrules w).symm.trans hpieces)
  have htext : (settings.wordOf table w).text = (settings.wordOf table w).body := by
    rw [hword w]
    simp [BoundedWord.text]
  change settings.wordOf table (settings.wordOf table w).text = ⟨none, (settings.wordOf table w).text, none⟩
  rw [htext, hword, body_body ht hrules hkeys]

/-- Of words with specials, from which keys are no longer found. -/
theorem ofWords_words_nested_keys : ∃ settings table vocabulary, Settings.ofOptions nestedKeys = .ok settings ∧
    SymbolTable.ofWords settings nestedWords = .ok table ∧ ofWords settings table nestedWords = .ok vocabulary ∧
      ofWords settings table vocabulary.words = .ok vocabulary := by
  obtain ⟨settings, table, hs, ht⟩ := exists_table_nestedKeys
  obtain ⟨vocabulary, hvocabulary, hagain⟩ := ofWords_words hs rfl (.inl ⟨rfl, isLiteral_nestedKeys⟩) ht
  exact ⟨settings, table, vocabulary, hs, ht, hvocabulary, hagain⟩

end Vocabulary

end WordPattern
