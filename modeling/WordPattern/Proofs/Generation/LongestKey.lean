import Mathlib.Data.List.Find
import Mathlib.Data.List.MinMax
import WordPattern.Proofs.Generation.Pieces

/-! Where all keys are literal, a text is cut at the longest key of each place.

The splitter tries the keys in descending order, and a key comes before those that it begins with; so the first key that
the rest of a text begins with is the longest one. Nothing is lost: between two keys stands at most one literal piece, in
which no key occurs. -/

namespace WordPattern

/-! ### Runs -/

/-- A run of a text: characters that stand for themselves, or the key of a rule. -/
inductive Run where
  | literal (text : Text)
  | key (rule : Rule)
  deriving DecidableEq, Repr

def literalRun (text : Text) : List Run := if text.isEmpty then [] else [.literal text]

/-- The rule with the longest key that a text begins with; of rules with the same key the first. -/
def longestKey? (rules : List Rule) (text : Text) : Option Rule :=
  (rules.filter (·.key.display.isPrefixOf text)).argmax (·.key.display.length)

/-- The runs of a text, read from left to right. Where a key comes next the longest one is taken, and everything else is
added to the `pending` characters of a literal run. -/
def runsOf (rules : List Rule) (pending : Text) : Text → List Run
  | [] => literalRun pending
  | c :: rest =>
    match longestKey? rules (c :: rest) with
    | some rule => literalRun pending ++ .key rule :: runsOf rules [] (rest.drop (rule.key.display.length - 1))
    | none => runsOf rules (pending ++ [c]) rest
termination_by text => text.length

/-- A piece stands for a run: a literal for the same text, and for a rule the first of the symbols that have its key. -/
def Piece.IsRun (table : SymbolTable) : Piece → Run → Prop
  | .literal t, .literal u => t = u
  | .special s, .key rule =>
    table.entries.find? (·.label = rule.key.display) = some s ∧ s = Symbol.ofRule s.placeholder rule
  | _, _ => False

/-! ### The longest key -/

theorem lt_append_of_ne_nil {s t : Text} (h : t ≠ []) : s < s ++ t := by
  induction s with
  | nil =>
    obtain ⟨c, t, rfl⟩ := List.exists_cons_of_ne_nil h
    exact List.nil_lt_cons c t
  | cons c s ih => exact List.cons_lt_cons_iff.2 (.inr ⟨rfl, ih⟩)

/-- Of two texts that a text begins with the shorter one is less. -/
theorem lt_of_isPrefix {s t text : Text} (hs : s <+: text) (ht : t <+: text) (hlength : s.length ≤ t.length) (hne : s ≠ t) :
    s < t := by
  obtain ⟨u, rfl⟩ := List.prefix_of_prefix_length_le hs ht hlength
  exact lt_append_of_ne_nil fun hu => hne (by rw [hu, List.append_nil])

section Rules

variable {rules ordered : List Rule} {text : Text}

theorem display_injOn (hliteral : ∀ rule ∈ rules, rule.IsLiteral) {a b : Rule} (ha : a ∈ rules) (hb : b ∈ rules)
    (h : a.key.display = b.key.display) : a.key = b.key := by
  obtain ⟨s, hs, -, -⟩ := hliteral a ha
  obtain ⟨t, ht, -, -⟩ := hliteral b hb
  rw [hs, ht] at h ⊢
  exact congrArg Key.literal h

/-- The first of the rules with a key is the first one with this key in any list that keeps those rules in order. -/
theorem find?_key_eq (hfilter : ∀ key, ordered.filter (·.key = key) = rules.filter (·.key = key)) (key : Key) :
    ordered.find? (·.key = key) = rules.find? (·.key = key) := by
  rw [← List.head?_filter, ← List.head?_filter, hfilter]

/-- The rule with the longest key is the first one that has this key. -/
theorem find?_key_of_longestKey? (hliteral : ∀ rule ∈ rules, rule.IsLiteral) {r : Rule}
    (h : longestKey? rules text = some r) : rules.find? (·.key = r.key) = some r := by
  obtain ⟨hr, hbegins⟩ := List.mem_filter.1 (List.argmax_mem h)
  -- keys of one length that the same text begins with are the same key
  have hsame : ∀ b ∈ rules, decide (b.key = r.key) =
      (b.key.display.isPrefixOf text && decide (b.key.display.length = r.key.display.length)) := by
    intro b hb
    rw [Bool.eq_iff_iff, Bool.and_eq_true, decide_eq_true_eq, decide_eq_true_eq]
    constructor
    · intro heq
      rw [heq]
      exact ⟨hbegins, rfl⟩
    · rintro ⟨hb', hlength⟩
      have hbegins' : b.key.display <+: r.key.display := List.prefix_of_prefix_length_le
        (List.isPrefixOf_iff_prefix.1 hb') (List.isPrefixOf_iff_prefix.1 hbegins) hlength.le
      exact display_injOn hliteral hb hr (hbegins'.eq_of_length hlength)
  have hfirst := find?_eq_of_argmax h
  rw [List.find?_filter] at hfirst
  rw [List.find?_congr hsame]
  simpa only [Bool.decide_and, Bool.decide_eq_true] using hfirst

/-- Among rules in order the first one whose key comes next has the longest key. -/
theorem find?_eq_longestKey? (hperm : ordered.Perm rules)
    (hordered : ordered.Pairwise fun a b => b.key.precedes a.key = false)
    (hfilter : ∀ key, ordered.filter (·.key = key) = rules.filter (·.key = key))
    (hliteral : ∀ rule ∈ rules, rule.IsLiteral) :
    ordered.find? (·.key.display.isPrefixOf text) = longestKey? rules text := by
  cases hlongest : longestKey? rules text with
  | none =>
    have hnone : rules.filter (·.key.display.isPrefixOf text) = [] := List.argmax_eq_none.1 hlongest
    rw [List.find?_eq_none]
    intro rule hrule
    exact List.filter_eq_nil_iff.1 hnone rule (hperm.mem_iff.1 hrule)
  | some r =>
    obtain ⟨hr, hbegins⟩ := List.mem_filter.1 (List.argmax_mem hlongest)
    have hfirst := find?_key_of_longestKey? hliteral hlongest
    rw [← find?_key_eq hfilter] at hfirst
    obtain ⟨-, before, after, rfl, hbefore⟩ := List.find?_eq_some_iff_append.1 hfirst
    refine List.find?_eq_some_iff_append.2 ⟨hbegins, before, after, rfl, fun a ha => ?_⟩
    by_contra hcomes
    have hcomes : a.key.display.isPrefixOf text = true := by simpa using hcomes
    -- the key of an earlier rule that came next would be a shorter one, which does not stand before a longer one
    have hrules : a ∈ rules := hperm.mem_iff.1 (List.mem_append_left _ ha)
    have hlength := List.le_of_mem_argmax (List.mem_filter.2 ⟨hrules, hcomes⟩) hlongest
    have hkey : a.key ≠ r.key := by simpa using hbefore a ha
    have hlt : a.key.display < r.key.display :=
      lt_of_isPrefix (List.isPrefixOf_iff_prefix.1 hcomes) (List.isPrefixOf_iff_prefix.1 hbegins) hlength
        fun heq => hkey (display_injOn hliteral hrules hr heq)
    have hnot := (List.pairwise_append.1 hordered).2.2 a ha r List.mem_cons_self
    obtain ⟨s, hs, -, -⟩ := hliteral a hrules
    obtain ⟨t, ht, -, -⟩ := hliteral r hr
    rw [hs, ht] at hlt hnot
    exact of_decide_eq_false hnot hlt

end Rules

/-- Keys one of which begins another, which is entered twice and overlaps a third one, where a character is quoted. -/
def nestedKeys : Options :=
  { specials := [(.literal ['a'], { pattern := some ['1'] }), (.literal ['a', 'b'], { pattern := some ['2'] }),
      (.literal ['a', 'b'], { pattern := some ['3'] }), (.literal ['b', '.'], { pattern := some ['4'] })] }

/-- Words that hold keys side by side, and the characters of a key on both sides of another. -/
def nestedWords : List Text := [['a', 'a', 'b', 'b'], ['b', 'a', '.'], []]

theorem isLiteral_nestedKeys : ∀ entry ∈ nestedKeys.specials, ∃ text, entry.1 = .literal text := by simp [nestedKeys]

theorem exists_table_nestedKeys : ∃ settings table, Settings.ofOptions nestedKeys = .ok settings ∧
    SymbolTable.ofWords settings nestedWords = .ok table := by
  obtain ⟨settings, hs⟩ : ∃ settings, Settings.ofOptions nestedKeys = .ok settings := ⟨_, rfl⟩
  have htable : (SymbolTable.ofWords settings nestedWords).toBool = true := by
    obtain rfl : Settings.mk .. = settings := Except.ok.inj hs
    decide +kernel
  cases ht : SymbolTable.ofWords settings nestedWords with
  | error e =>
    rw [ht] at htable
    contradiction
  | ok table => exact ⟨settings, table, hs, ht⟩

namespace SymbolTable

variable {settings : Settings} {words : List Text} {table : SymbolTable} {entries : List Symbol}

/-- The symbol that comes next is one for the longest key. -/
theorem next?_isRun (ht : ofWords settings words = .ok table) (hliteral : ∀ rule ∈ settings.rules, rule.IsLiteral)
    (text : Text) : (next? table.entries text = none ∧ longestKey? settings.rules text = none) ∨
      ∃ s rule, next? table.entries text = some s ∧ longestKey? settings.rules text = some rule ∧
        Piece.IsRun table (.special s) (.key rule) := by
  have hfind := find?_forall₂ (p := fun s => s.label.isPrefixOf text)
    (q := fun rule => rule.key.display.isPrefixOf text) (fun s rule heq => by rw [heq]; rfl)
    (entries_of_ofWords ht)
  rw [find?_eq_longestKey? (rulesOf_perm settings) (pairwise_rulesOf settings) (filter_rulesOf settings) hliteral]
    at hfind
  refine hfind.imp_right ?_
  rintro ⟨s, rule, hs, hrule, heq⟩
  refine ⟨s, rule, hs, hrule, ?_, heq⟩
  have hlabel : s.label = rule.key.display := by
    rw [heq]
    rfl
  obtain ⟨hbegins, before, after, hsplit, hbefore⟩ := List.find?_eq_some_iff_append.1 hs
  refine List.find?_eq_some_iff_append.2 ⟨by simpa using hlabel, before, after, hsplit, fun a ha => ?_⟩
  have hother : a.label ≠ rule.key.display := by
    rintro heq'
    have := hbefore a ha
    rw [heq', ← hlabel, hbegins] at this
    contradiction
  simpa using hother

/-! ### Scanning is reading the runs -/

theorem literalPiece_isRun (t : Text) : List.Forall₂ (Piece.IsRun table) (literalPiece t) (literalRun t) := by
  unfold literalPiece literalRun
  split_ifs
  · exact .nil
  · exact .cons rfl .nil

theorem scan_isRun (ht : ofWords settings words = .ok table) (hliteral : ∀ rule ∈ settings.rules, rule.IsLiteral)
    (pending text : Text) (inside : Nat) : List.Forall₂ (Piece.IsRun table) (scan table.entries pending inside text)
      (runsOf settings.rules pending (text.drop inside)) := by
  induction text generalizing pending inside with
  | nil =>
    rw [scan, List.drop_nil, runsOf]
    exact literalPiece_isRun pending
  | cons c rest ih =>
    cases inside with
    | succ n => exact ih pending n
    | zero =>
      rw [scan, List.drop_zero, runsOf]
      obtain ⟨hnext, hlongest⟩ | ⟨s, rule, hnext, hlongest, hrun⟩ := next?_isRun ht hliteral (c :: rest)
      · rw [hnext, hlongest]
        exact ih (pending ++ [c]) 0
      · rw [hnext, hlongest]
        have hlabel : s.label = rule.key.display := by simpa using List.find?_some hrun.1
        have hrest := ih [] (s.label.length - 1)
        rw [hlabel] at hrest
        simp only [hlabel]
        exact List.rel_append (literalPiece_isRun pending) (.cons hrun hrest)

/-- Where all keys are literal, every text can be cut, and its pieces are its runs. Nothing of the text is lost, no key
occurs in a literal piece, and between two literal pieces there is a special. -/
theorem cut_leftmost_longest {o : Options} (hs : Settings.ofOptions o = .ok settings)
    (hliteral : ∀ entry ∈ o.specials, ∃ text, entry.1 = .literal text) (ht : ofWords settings words = .ok table)
    (text : Text) : ∃ pieces, table.cut text = .ok pieces ∧
      List.Forall₂ (Piece.IsRun table) pieces (runsOf settings.rules [] text) ∧
      (∀ t, .literal t ∈ pieces → t ≠ [] ∧ ∀ rule ∈ settings.rules, ¬ rule.key.display <:+: t) ∧
      pieces.IsChain (fun a b => a.isSpecial ∨ b.isSpecial) ∧ pieces.flatMap Piece.source = text := by
  have hrules := isLiteral_of_mem_rules hs hliteral
  have hne : ∀ s ∈ table.entries, s.label ≠ [] := fun s hs => label_ne_nil ht hrules hs
  refine ⟨_, cut_eq_scan ht hrules text, scan_isRun ht hrules [] text 0, ?_, isChain_scan hne text,
    flatMap_source_scan hne text⟩
  intro t hmem
  obtain ⟨hnil, hnone⟩ := not_infix_of_mem_scan hne text t hmem
  refine ⟨hnil, fun rule hrule => ?_⟩
  obtain ⟨s, hs, hlabel⟩ := exists_label_of_rule ht hrule
  rw [← hlabel]
  exact hnone s hs

/-- Of a text in which the longer of two keys takes what the third one would begin with. -/
theorem cut_nested_keys : ∃ settings table, Settings.ofOptions nestedKeys = .ok settings ∧
    ofWords settings nestedWords = .ok table ∧
      ∃ pieces, table.cut ['x', 'a', 'b', 'b', '.'] = .ok pieces ∧
        List.Forall₂ (Piece.IsRun table) pieces (runsOf settings.rules [] ['x', 'a', 'b', 'b', '.']) ∧
        (∀ t, .literal t ∈ pieces → t ≠ [] ∧ ∀ rule ∈ settings.rules, ¬ rule.key.display <:+: t) ∧
        pieces.IsChain (fun a b => a.isSpecial ∨ b.isSpecial) ∧
          pieces.flatMap Piece.source = ['x', 'a', 'b', 'b', '.'] := by
  obtain ⟨settings, table, hs, ht⟩ := exists_table_nestedKeys
  exact ⟨settings, table, hs, ht, cut_leftmost_longest hs isLiteral_nestedKeys ht _⟩

end SymbolTable

end WordPattern
