import WordPattern.Proofs.Generation.Items
import WordPattern.Proofs.Generation.Plain
import WordPattern.Proofs.Trees.Renaming

/-! A pattern depends on the set of its items alone.

Which characters stand for the boundaries is chosen from above the words as they were given. Two lists with the same items
may get different ones, but they stand in the same order among the characters of the items. -/

namespace WordPattern

open Regex

def Settings.items (settings : Settings) (words : List Text) : List Text :=
  (settings.filter words).map fun w => if settings.ignoreCase then Unicode.lowercase w else w

/-! ### Other characters for symbols -/

/-- The character in place of another one when the symbols of one list are given the characters of a second one. -/
def carry : (old new : List Symbol) → Char → Char
  | s :: old, t :: new, c => if s.placeholder = c then t.placeholder else carry old new c
  | _, _, c => c

section Carry

variable {old new : List Symbol} {c d : Char}

theorem carry_of_literal (hc : ∀ s ∈ old, s.placeholder ≠ c) : carry old new c = c := by
  induction old generalizing new with
  | nil => rfl
  | cons s old ih =>
    cases new with
    | nil => rfl
    | cons t new =>
      rw [carry, if_neg (hc s List.mem_cons_self)]
      exact ih fun u hu => hc u (List.mem_cons_of_mem _ hu)

/-- The new symbol stands for what the old one does. -/
theorem exists_carry (hsame : old.map (·.verbatim) = new.map (·.verbatim))
    (hrising : old.Pairwise fun s t => s.placeholder.toNat < t.placeholder.toNat) {s : Symbol} (hs : s ∈ old) :
    ∃ t ∈ new, carry old new s.placeholder = t.placeholder ∧ t.verbatim = s.verbatim := by
  induction old generalizing new with
  | nil => exact absurd hs List.not_mem_nil
  | cons u old ih =>
    cases new with
    | nil => exact absurd hsame (List.cons_ne_nil _ _)
    | cons t new =>
      obtain ⟨hhead, htail⟩ := List.cons.inj hsame
      obtain ⟨habove, hrest⟩ := List.pairwise_cons.1 hrising
      rcases List.mem_cons.1 hs with rfl | hs
      · exact ⟨t, List.mem_cons_self, if_pos rfl, hhead.symm⟩
      · have hne : u.placeholder ≠ s.placeholder := by
          intro heq
          have hlt := habove s hs
          rw [heq] at hlt
          omega
        obtain ⟨v, hv, hcarry, hverbatim⟩ := ih htail hrest hs
        refine ⟨v, List.mem_cons_of_mem _ hv, ?_, hverbatim⟩
        rw [carry, if_neg hne, hcarry]

/-- A character that is below all symbols, or the character of a symbol. -/
def IsUsed (limit : Nat) (old : List Symbol) (c : Char) : Prop := c.toNat ≤ limit ∨ ∃ s ∈ old, s.placeholder = c

theorem keepsOrder_carry {limit : Nat} (hsame : old.map (·.verbatim) = new.map (·.verbatim))
    (hold : old.Pairwise fun s t => s.placeholder.toNat < t.placeholder.toNat)
    (hnew : new.Pairwise fun s t => s.placeholder.toNat < t.placeholder.toNat)
    (hlimit : ∀ s ∈ old, limit < s.placeholder.toNat) (hlimit' : ∀ s ∈ new, limit < s.placeholder.toNat) :
    KeepsOrder (IsUsed limit old) (carry old new) := by
  induction old generalizing new with
  | nil => exact fun c d _ _ hlt => hlt
  | cons s old ih =>
    cases new with
    | nil => exact fun c d _ _ hlt => hlt
    | cons t new =>
      obtain ⟨-, htail⟩ := List.cons.inj hsame
      obtain ⟨habove, hrising⟩ := List.pairwise_cons.1 hold
      obtain ⟨habove', hrising'⟩ := List.pairwise_cons.1 hnew
      have hrest := ih htail hrising hrising' (fun u hu => hlimit u (List.mem_cons_of_mem _ hu))
        fun u hu => hlimit' u (List.mem_cons_of_mem _ hu)
      have hused : ∀ {c}, IsUsed limit (s :: old) c → s.placeholder ≠ c → IsUsed limit old c := by
        rintro c (hc | ⟨u, hu, rfl⟩) hne
        · exact .inl hc
        · rcases List.mem_cons.1 hu with rfl | hu
          · exact absurd rfl hne
          · exact .inr ⟨u, hu, rfl⟩
      intro c d hc hd hlt
      have hlt' : c.toNat < d.toNat := hlt
      have hs := hlimit s List.mem_cons_self
      have ht := hlimit' t List.mem_cons_self
      rw [carry, carry]
      split_ifs with hsc hsd hsd
      · rw [← hsc, ← hsd] at hlt'
        omega
      · -- what is greater than the first symbol is one of the others
        rcases hused hd hsd with hlow | ⟨u, hu, rfl⟩
        · rw [← hsc] at hlt'
          omega
        · obtain ⟨v, hv, hcarry, -⟩ := exists_carry htail hrising hu
          rw [hcarry]
          exact habove' v hv
      · -- what is less than the first symbol is below all of them
        rcases hused hc hsc with hlow | ⟨u, hu, rfl⟩
        · have hliteral : carry old new c = c := by
            apply carry_of_literal
            rintro u hu rfl
            have := hlimit u (List.mem_cons_of_mem _ hu)
            omega
          rw [hliteral]
          change c.toNat < t.placeholder.toNat
          omega
        · have := habove u hu
          rw [← hsd] at hlt'
          omega
      · exact hrest c d (hused hc hsc) (hused hd hsd) hlt

/-- Each side is given the character of the same side. -/
theorem carry_sides {l r l' r' : Option Symbol} (hl : l.map (·.verbatim) = l'.map (·.verbatim))
    (hr : r.map (·.verbatim) = r'.map (·.verbatim)) (hne : ∀ s ∈ l, ∀ t ∈ r, s.placeholder ≠ t.placeholder) :
    (l.map (·.placeholder)).map (carry (l.toList ++ r.toList) (l'.toList ++ r'.toList)) = l'.map (·.placeholder) ∧
      (r.map (·.placeholder)).map (carry (l.toList ++ r.toList) (l'.toList ++ r'.toList)) = r'.map (·.placeholder) := by
  cases l <;> cases l' <;> cases r <;> cases r' <;> simp_all [carry]

end Carry

/-! ### Words -/

namespace Settings

variable {settings : Settings} {table table' : SymbolTable} {words words' : List Text}

def enclosed (settings : Settings) (table : SymbolTable) (body : Text) : Text :=
  (if body.head?.all settings.passesTest then table.left.map (·.placeholder) else none).toList ++ body ++
    (if body.getLast?.all settings.passesTest then table.right.map (·.placeholder) else none).toList

theorem text_bounded (w : Text) : (settings.boundedWord table [.literal w]).text =
    settings.enclosed table (if settings.ignoreCase then Unicode.lowercase w else w) := by
  have hbody : [Piece.literal w].flatMap settings.pieceText = settings.pieceText (.literal w) := List.append_nil _
  unfold BoundedWord.text boundedWord
  rw [hbody]
  rfl

/-- The words of a vocabulary are the items between the boundaries that they have earned. -/
theorem mem_vocabulary (hrules : settings.rules = []) (hblanks : settings.normalizeBlanks = false)
    (ht : table.Holds settings (settings.filter words)) {vocabulary : Vocabulary}
    (hv : Vocabulary.ofWords settings table (settings.filter words) = .ok vocabulary) {x : Text} :
    x ∈ vocabulary.words ↔ x ≠ [] ∧ ∃ body ∈ settings.items words, x = settings.enclosed table body := by
  rw [Vocabulary.mem_words hv]
  apply and_congr_right
  intro _
  constructor
  · rintro ⟨w, hw, pieces, hpieces, rfl⟩
    rw [cut_eq hrules ht (of_filter hblanks hw).1] at hpieces
    obtain rfl := Except.ok.inj hpieces
    exact ⟨_, List.mem_map_of_mem hw, text_bounded w⟩
  · rintro ⟨body, hbody, rfl⟩
    obtain ⟨w, hw, rfl⟩ := List.mem_map.1 hbody
    exact ⟨w, hw, _, cut_eq hrules ht (of_filter hblanks hw).1, (text_bounded w).symm⟩

/-- The table of a list without specials has the boundaries only. -/
theorem symbols_eq (hrules : settings.rules = []) (ht : table.Holds settings words) :
    table.symbols = table.left.toList ++ table.right.toList := by
  have hentries := ht.entries
  rw [SymbolTable.rulesOf, hrules] at hentries
  rw [SymbolTable.symbols, List.map_eq_nil_iff.1 hentries, List.nil_append]

/-- No item goes beyond the ceiling. -/
theorem le_ceiling_of_mem_items {body : Text} (hbody : body ∈ settings.items words) {c : Char} (hc : c ∈ body) :
    c.toNat ≤ SymbolTable.ceiling settings (settings.filter words) := by
  obtain ⟨w, hw, rfl⟩ := List.mem_map.1 hbody
  split_ifs at hc
  · obtain ⟨d, hd, e, he, hle⟩ := le_of_mem_lowerAfter hc
    exact hle.trans (SymbolTable.le_ceiling hw hd (List.mem_cons_of_mem _ he))
  · exact SymbolTable.le_ceiling hw hc List.mem_cons_self

/-- What no item of either of two lists with the same items goes beyond. -/
def commonCeiling (settings : Settings) (words words' : List Text) : Nat :=
  min (SymbolTable.ceiling settings (settings.filter words)) (SymbolTable.ceiling settings (settings.filter words'))

/-- Two tables of the same settings whose lists have the same items. -/
structure Alike (settings : Settings) (table table' : SymbolTable) (words words' : List Text) : Prop where
  rules : settings.rules = []
  blanks : settings.normalizeBlanks = false
  table : table.Holds settings (settings.filter words)
  table' : table'.Holds settings (settings.filter words')
  items : ∀ t, t ∈ settings.items words ↔ t ∈ settings.items words'

namespace Alike

variable (h : settings.Alike table table' words words')

include h

theorem left_verbatim : table.left.map (·.verbatim) = table'.left.map (·.verbatim) :=
  h.table.left.trans h.table'.left.symm

theorem right_verbatim : table.right.map (·.verbatim) = table'.right.map (·.verbatim) :=
  h.table.right.trans h.table'.right.symm

theorem verbatims : table.symbols.map (·.verbatim) = table'.symbols.map (·.verbatim) := by
  rw [symbols_eq h.rules h.table, symbols_eq h.rules h.table', List.map_append, List.map_append, ← Option.toList_map,
    ← Option.toList_map, ← Option.toList_map, ← Option.toList_map, h.left_verbatim, h.right_verbatim]

theorem le_commonCeiling {body : Text} (hbody : body ∈ settings.items words) {c : Char} (hc : c ∈ body) :
    c.toNat ≤ settings.commonCeiling words words' :=
  Nat.le_min.2 ⟨le_ceiling_of_mem_items hbody hc, le_ceiling_of_mem_items ((h.items body).1 hbody) hc⟩

theorem commonCeiling_lt : (∀ s ∈ table.symbols, settings.commonCeiling words words' < s.placeholder.toNat) ∧
    ∀ s ∈ table'.symbols, settings.commonCeiling words words' < s.placeholder.toNat :=
  ⟨fun s hs => Nat.lt_of_le_of_lt (Nat.min_le_left _ _) (h.table.above s hs),
    fun s hs => Nat.lt_of_le_of_lt (Nat.min_le_right _ _) (h.table'.above s hs)⟩

/-- Below the ceilings all characters stay as they are. -/
theorem carry_eq {c : Char} (hc : c.toNat ≤ settings.commonCeiling words words') :
    carry table.symbols table'.symbols c = c := by
  apply carry_of_literal
  rintro s hs rfl
  have := h.commonCeiling_lt.1 s hs
  omega

theorem meaning_eq_none {c : Char} (hc : c.toNat ≤ settings.commonCeiling words words') :
    table.meaning c = none ∧ table'.meaning c = none := by
  obtain ⟨hle, hle'⟩ := Nat.le_min.1 hc
  unfold SymbolTable.meaning
  rw [h.table.lookup?_eq_none hle, h.table'.lookup?_eq_none hle']
  exact ⟨rfl, rfl⟩

/-- The second table gives other characters to the same symbols. -/
theorem renames : Node.Renames (IsUsed (settings.commonCeiling words words') table.symbols)
    (carry table.symbols table'.symbols) table.meaning table'.meaning where
  order := keepsOrder_carry h.verbatims h.table.rising h.table'.rising h.commonCeiling_lt.1 h.commonCeiling_lt.2
  meaning := by
    rintro c (hc | ⟨s, hs, rfl⟩)
    · rw [h.carry_eq hc, (h.meaning_eq_none hc).1, (h.meaning_eq_none hc).2]
    · obtain ⟨t, ht, hcarry, hverbatim⟩ := exists_carry h.verbatims h.table.rising hs
      rw [hcarry, h.table.meaning_eq_some.2 ⟨s, hs, rfl, rfl⟩]
      exact h.table'.meaning_eq_some.2 ⟨t, ht, rfl, hverbatim⟩
  literal := by
    rintro c (hc | ⟨s, hs, rfl⟩) hnone
    · exact h.carry_eq hc
    · rw [h.table.meaning_eq_some.2 ⟨s, hs, rfl, rfl⟩] at hnone
      contradiction

theorem map_enclosed {body : Text} (hbody : body ∈ settings.items words) :
    (settings.enclosed table body).map (carry table.symbols table'.symbols) = settings.enclosed table' body := by
  have hne : ∀ s ∈ table.left, ∀ t ∈ table.right, s.placeholder ≠ t.placeholder := by
    intro s hs t ht heq
    have hlt := Vocabulary.placeholder_lt h.table (.inr hs) ht
    rw [heq] at hlt
    omega
  obtain ⟨hleft, hright⟩ := carry_sides h.left_verbatim h.right_verbatim hne
  rw [← symbols_eq h.rules h.table, ← symbols_eq h.rules h.table'] at hleft hright
  have hcarried : body.map (carry table.symbols table'.symbols) = body := by
    rw [List.map_congr_left fun c hc => h.carry_eq (h.le_commonCeiling hbody hc), List.map_id']
  have hside : ∀ (yes : Bool) (side : Option Char), ((if yes then side else none).toList).map
      (carry table.symbols table'.symbols) =
        (if yes then side.map (carry table.symbols table'.symbols) else none).toList := by
    intro yes side
    cases yes <;> cases side <;> rfl
  unfold enclosed
  rw [List.map_append, List.map_append, hcarried, hside, hside, hleft, hright]

theorem over_enclosed {body : Text} (hbody : body ∈ settings.items words) :
    ∀ c ∈ settings.enclosed table body, IsUsed (settings.commonCeiling words words') table.symbols c := by
  have hside : ∀ (yes : Bool) (side : Option Symbol), (∀ s ∈ side, s ∈ table.symbols) →
      ∀ c ∈ (if yes then side.map (·.placeholder) else none).toList,
        IsUsed (settings.commonCeiling words words') table.symbols c := by
    intro yes side hside c hc
    cases side with
    | none => cases yes <;> exact absurd hc List.not_mem_nil
    | some s =>
      cases yes with
      | false => exact absurd hc List.not_mem_nil
      | true =>
        rw [List.mem_singleton.1 hc]
        exact .inr ⟨s, hside s rfl, rfl⟩
  intro c hc
  rcases List.mem_append.1 hc with hc | hc
  · rcases List.mem_append.1 hc with hc | hc
    · exact hside _ _ (fun s hs => SymbolTable.mem_symbols.2 (.inr (.inl hs))) c hc
    · exact .inl (h.le_commonCeiling hbody hc)
  · exact hside _ _ (fun s hs => SymbolTable.mem_symbols.2 (.inr (.inr hs))) c hc

variable {vocabulary vocabulary' : Vocabulary}

/-- The words of the second vocabulary are those of the first one with the characters of the second table. -/
theorem vocabulary_words (hv : Vocabulary.ofWords settings table (settings.filter words) = .ok vocabulary)
    (hv' : Vocabulary.ofWords settings table' (settings.filter words') = .ok vocabulary') :
    vocabulary'.words = vocabulary.words.map (List.map (carry table.symbols table'.symbols)) ∧
      Over (IsUsed (settings.commonCeiling words words') table.symbols) vocabulary.words := by
  have hmem := @mem_vocabulary _ _ _ h.rules h.blanks h.table _ hv
  have hmem' := @mem_vocabulary _ _ _ h.rules h.blanks h.table' _ hv'
  have hover : Over (IsUsed (settings.commonCeiling words words') table.symbols) vocabulary.words := by
    intro x hx
    obtain ⟨-, body, hbody, rfl⟩ := hmem.1 hx
    exact h.over_enclosed hbody
  refine ⟨?_, hover⟩
  apply (Vocabulary.pairwise_words hv').eq_of_mem_iff
  · apply List.pairwise_map.2
    apply (Vocabulary.pairwise_words hv).imp_of_mem
    exact fun hx hy hlt => h.renames.order.map_lt (hover _ hx) (hover _ hy) hlt
  · intro x
    rw [hmem', List.mem_map]
    constructor
    · rintro ⟨hne, body, hbody, rfl⟩
      have hbody := (h.items body).2 hbody
      refine ⟨_, hmem.2 ⟨?_, body, hbody, rfl⟩, h.map_enclosed hbody⟩
      intro hnil
      rw [← h.map_enclosed hbody, hnil] at hne
      exact hne rfl
    · rintro ⟨y, hy, rfl⟩
      obtain ⟨hne, body, hbody, rfl⟩ := hmem.1 hy
      rw [h.map_enclosed hbody]
      refine ⟨?_, body, (h.items body).1 hbody, rfl⟩
      intro hnil
      rw [← h.map_enclosed hbody] at hnil
      exact hne (List.map_eq_nil_iff.1 hnil)

/-- Both lists have the same tree. -/
theorem tree_eq (hv : Vocabulary.ofWords settings table (settings.filter words) = .ok vocabulary)
    (hv' : Vocabulary.ofWords settings table' (settings.filter words') = .ok vocabulary') :
    table'.tree settings vocabulary'.words = table.tree settings vocabulary.words := by
  obtain ⟨hwords, hover⟩ := h.vocabulary_words hv hv'
  change Node.build table'.meaning _ _ = Node.build table.meaning _ _
  rw [Node.build, Node.build, hwords, Node.ofWords_map h.renames hover]

end Alike

end Settings

/-- Without specials, lists with the same items have the same pattern. -/
theorem pattern_eq_of_items {o : Options} {g : Generator} (hspecials : o.specials = [])
    (hextended : o.notExtended = false) (hblanks : o.normalizeBlanks = false) (hg : Generator.ofOptions o = .ok g)
    {words words' : List Text} {table table' : SymbolTable}
    (htable : SymbolTable.ofWords g.settings (g.settings.filter words) = .ok table)
    (htable' : SymbolTable.ofWords g.settings (g.settings.filter words') = .ok table')
    (hitems : ∀ t, t ∈ g.settings.items words ↔ t ∈ g.settings.items words') :
    ∃ pattern, g.pattern words = .ok pattern ∧ g.pattern words' = .ok pattern := by
  obtain ⟨settings, hsettings, rfl⟩ := map_eq_ok hg
  have hrules := Settings.rules_eq_nil hsettings (Options.allSpecials_eq_nil hspecials hextended hblanks)
  have hplain : settings.normalizeBlanks = false := by
    obtain ⟨-, boundary, rules, -, -, rfl⟩ := Settings.ofOptions_eq_ok hsettings
    exact hblanks
  have halike : settings.Alike table table' words words' :=
    ⟨hrules, hplain, SymbolTable.holds_of_ofWords htable, SymbolTable.holds_of_ofWords htable', hitems⟩
  have hempty : settings.filter words = [] ↔ settings.filter words' = [] := by
    have hnil := List.eq_nil_iff_forall_not_mem (l := settings.items words)
    have hnil' := List.eq_nil_iff_forall_not_mem (l := settings.items words')
    simp only [hitems, ← hnil'] at hnil
    simpa [Settings.items] using hnil
  by_cases hne : settings.filter words = []
  · refine ⟨none, ?_, ?_⟩
    · simp [Generator.pattern, Settings.generate, hne, Except.map]
    · simp [Generator.pattern, Settings.generate, hempty.1 hne, Except.map]
  · obtain ⟨vocabulary, hvocabulary, -⟩ := exists_vocabulary_of_literal (by rw [hrules]; simp) htable
    obtain ⟨vocabulary', hvocabulary', -⟩ := exists_vocabulary_of_literal (by rw [hrules]; simp) htable'
    refine ⟨some (settings.wholePattern (table.tree settings vocabulary.words)), ?_, ?_⟩
    · rw [Generator.pattern, generate_eq_ok hne htable hvocabulary]
      rfl
    · rw [← halike.tree_eq hvocabulary hvocabulary', Generator.pattern,
        generate_eq_ok (mt hempty.2 hne) htable' hvocabulary']
      rfl

/-- The Kelvin sign is a `k` in lower case, but the boundaries next to it are written with other characters. -/
theorem pattern_eq_of_items_kelvin : ∃ g pattern,
    Generator.ofOptions { bound := .word .both, ignoreCase := true } = .ok g ∧
      g.pattern [['d', 'o'], ['\u212A']] = .ok pattern ∧ g.pattern [['k'], ['D', 'O'], ['k']] = .ok pattern := by
  obtain ⟨g, hg⟩ : ∃ g, Generator.ofOptions { bound := .word .both, ignoreCase := true } = .ok g := ⟨_, rfl⟩
  obtain rfl : Generator.mk .. = g := Except.ok.inj hg
  have hitems : ∀ t : Text, t ∈ [['d', 'o'], ['k']] ↔ t ∈ [['k'], ['d', 'o'], ['k']] := by
    intro t
    simp only [List.mem_cons, List.not_mem_nil, or_false]
    tauto
  obtain ⟨pattern, hpattern, hpattern'⟩ := @pattern_eq_of_items { bound := .word .both, ignoreCase := true } _ rfl rfl
    rfl hg [['d', 'o'], ['\u212A']] [['k'], ['D', 'O'], ['k']] _ _ rfl rfl hitems
  exact ⟨_, pattern, hg, hpattern, hpattern'⟩

end WordPattern
