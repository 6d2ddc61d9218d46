import WordPattern.Proofs.Generation.Items
import WordPattern.Proofs.Generation.Occurrence
import WordPattern.Proofs.Generation.Unambiguous

/-! Lists whose specials stand for single characters, where case counts.

The word of an item is then the item with a placeholder for each character that is a key, between the boundaries that it
has earned. A character that is a key earns none. -/

namespace WordPattern

open Regex SymbolTable

/-- All keys are single characters, and no boundary stands next to a special. -/
structure Settings.Lettered (settings : Settings) : Prop where
  key : ∀ rule ∈ settings.rules, ∃ c, rule.key = .literal [c] ∧ rule.finder = Regex.quote [c]
  left : ∀ rule ∈ settings.rules, rule.left = false
  right : ∀ rule ∈ settings.rules, rule.right = false

namespace SymbolTable

/-- The special that a character is the key of. -/
def keyed? (table : SymbolTable) (c : Char) : Option Symbol := next? table.entries [c]

/-- What is written for a character. -/
def letter (table : SymbolTable) (c : Char) : Char := ((table.keyed? c).map (·.placeholder)).getD c

/-- Whether a boundary may stand next to a character. -/
def admits (table : SymbolTable) (settings : Settings) (c : Char) : Bool :=
  (table.keyed? c).isNone && settings.passesTest c

end SymbolTable

section Letters

variable {settings : Settings} {items : List Text} {table : SymbolTable} {vocabulary : Vocabulary}

theorem Settings.Lettered.isLiteral (hl : settings.Lettered) : ∀ rule ∈ settings.rules, rule.IsLiteral := by
  intro rule hrule
  obtain ⟨c, hkey, hfinder⟩ := hl.key rule hrule
  exact ⟨[c], hkey, List.cons_ne_nil c [], hfinder⟩

/-! ### Keys -/

theorem entry_rule (ht : ofWords settings items = .ok table) {s : Symbol} (hs : s ∈ table.entries) :
    ∃ rule ∈ settings.rules, s.label = rule.key.display ∧ s.verbatim = rule.verbatim := by
  have hentries := entries_of_ofWords ht
  have hsorted : ∀ rule ∈ rulesOf settings, rule ∈ settings.rules := fun rule => (sortBy_perm _ _).mem_iff.1
  generalize table.entries = entries, rulesOf settings = rules at hentries hs hsorted
  induction hentries with
  | nil => simp at hs
  | cons heq _ ih =>
    rcases List.mem_cons.1 hs with rfl | hs
    · exact ⟨_, hsorted _ List.mem_cons_self, by rw [heq]; rfl, by rw [heq]; rfl⟩
    · exact ih hs fun rule hrule => hsorted rule (List.mem_cons_of_mem _ hrule)

theorem label_letter (hl : settings.Lettered) (ht : ofWords settings items = .ok table) :
    ∀ s ∈ table.entries, ∃ c, s.label = [c] := by
  intro s hs
  obtain ⟨rule, hrule, hlabel, -⟩ := entry_rule ht hs
  obtain ⟨c, hkey, -⟩ := hl.key rule hrule
  exact ⟨c, by rw [hlabel, hkey]; rfl⟩

/-- Where labels are single characters, only the next character decides. -/
theorem next?_cons {entries : List Symbol} (hletters : ∀ s ∈ entries, ∃ c, s.label = [c]) (c : Char) (w : Text) :
    next? entries (c :: w) = next? entries [c] := by
  induction entries with
  | nil => rfl
  | cons s entries ih =>
    obtain ⟨⟨d, hd⟩, hletters⟩ := List.forall_mem_cons.1 hletters
    have ih := ih hletters
    unfold next? at ih ⊢
    simp only [List.find?_cons, hd, List.isPrefixOf, Bool.and_true, ih]

theorem keyed?_spec (hl : settings.Lettered) (ht : ofWords settings items = .ok table) {c : Char} {s : Symbol}
    (h : table.keyed? c = some s) : s ∈ table.entries ∧ s.label = [c] ∧
      ∃ rule ∈ settings.rules, rule.key = .literal [c] ∧ s.verbatim = rule.verbatim := by
  obtain ⟨hs, rest, hrest⟩ := next?_spec h
  obtain ⟨rule, hrule, hlabel, hverbatim⟩ := entry_rule ht hs
  obtain ⟨d, hkey, -⟩ := hl.key rule hrule
  have hd : s.label = [d] := by rw [hlabel, hkey]; rfl
  obtain rfl : c = d := by
    rw [hd] at hrest
    exact (List.cons.inj hrest).1
  exact ⟨hs, hd, rule, hrule, hkey, hverbatim⟩

theorem keyed?_isSome (ht : ofWords settings items = .ok table) {rule : Rule} (hrule : rule ∈ settings.rules) {c : Char}
    (hkey : rule.key = .literal [c]) : (table.keyed? c).isSome = true := by
  obtain ⟨s, hs, hlabel⟩ := exists_label_of_rule ht hrule
  refine List.find?_isSome.2 ⟨s, hs, ?_⟩
  rw [hlabel, hkey]
  simp [Key.display]

/-! ### Words -/

/-- An item is cut into texts without keys and specials of keys. -/
theorem scan_letters_induction {entries : List Symbol} (hletters : ∀ s ∈ entries, ∃ c, s.label = [c])
    {P : Text → List Piece → Prop} (hliteral : ∀ t, (∀ c ∈ t, next? entries [c] = none) → P t (literalPiece t))
    (hspecial : ∀ t c s w pieces, (∀ d ∈ t, next? entries [d] = none) → next? entries [c] = some s → P w pieces →
      P (t ++ c :: w) (literalPiece t ++ .special s :: pieces)) (w : Text) : P w (scan entries [] 0 w) := by
  have hne : ∀ s ∈ entries, s.label ≠ [] := by
    intro s hs
    obtain ⟨c, hc⟩ := hletters s hs
    rw [hc]
    exact List.cons_ne_nil c []
  have hfree : ∀ t rest, Clear entries t rest → ∀ d ∈ t, next? entries [d] = none := by
    intro t rest hclear d hd
    obtain ⟨front, back, rfl⟩ := List.append_of_mem hd
    have hnext := hclear front (d :: back) rfl (List.cons_ne_nil d back)
    rwa [List.cons_append, next?_cons hletters] at hnext
  refine scan_induction hne (fun t hclear => hliteral t (hfree t [] hclear)) (fun t s w pieces hclear hnext ih => ?_) w
  obtain ⟨c, hc⟩ := hletters s (next?_spec hnext).1
  rw [hc, List.singleton_append] at hclear hnext ⊢
  rw [next?_cons hletters] at hnext
  exact hspecial t c s w pieces (hfree t _ hclear) hnext ih

theorem letter_of_keyed? {c : Char} {s : Symbol} (h : table.keyed? c = some s) : table.letter c = s.placeholder := by
  rw [letter, h]
  rfl

theorem letter_of_none {c : Char} (h : table.keyed? c = none) : table.letter c = c := by
  rw [letter, h]
  rfl

theorem map_letter_of_none {t : Text} (h : ∀ c ∈ t, table.keyed? c = none) : t.map table.letter = t :=
  (List.map_congr_left fun c hc => letter_of_none (h c hc)).trans (List.map_id t)

variable (hcase : settings.ignoreCase = false)

include hcase

variable (hl : settings.Lettered) (ht : ofWords settings items = .ok table)

include hl ht

/-- The body of a word is the item with a placeholder for each key. -/
theorem body_scan (w : Text) : (scan table.entries [] 0 w).flatMap settings.pieceText = w.map table.letter := by
  refine scan_letters_induction (label_letter hl ht)
    (P := fun w pieces => pieces.flatMap settings.pieceText = w.map table.letter)
    (fun t hfree => ?_) (fun t c s w pieces hfree hnext ih => ?_) w
  · rw [flatMap_literalPiece hcase, map_letter_of_none hfree]
  · rw [List.flatMap_append, List.flatMap_cons, flatMap_literalPiece hcase, ih, List.map_append, List.map_cons,
      map_letter_of_none hfree, letter_of_keyed? hnext]
    rfl

theorem admitsLeft_scan (w : Text) :
    (scan table.entries [] 0 w).head?.any settings.admitsLeft = w.head?.any (table.admits settings) := by
  have hfirst : ∀ c t, table.keyed? c = none →
      settings.admitsLeft (.literal (c :: t)) = table.admits settings c := by
    intro c t hc
    simp [Settings.admitsLeft, Settings.pieceText, hcase, admits, hc]
  refine scan_letters_induction (label_letter hl ht)
    (P := fun w pieces => pieces.head?.any settings.admitsLeft = w.head?.any (table.admits settings))
    (fun t hfree => ?_) (fun t c s w pieces hfree hnext _ => ?_) w
  · cases t with
    | nil => rfl
    | cons d t => exact hfirst d t (hfree d List.mem_cons_self)
  · cases t with
    | nil =>
      obtain ⟨-, -, rule, hrule, -, hverbatim⟩ := keyed?_spec hl ht hnext
      have hkeyed : table.keyed? c = some s := hnext
      have hleft : s.verbatim.left = false := by rw [hverbatim]; exact hl.left rule hrule
      simp [literalPiece, Settings.admitsLeft, admits, hkeyed, hleft]
    | cons d t => exact hfirst d t (hfree d List.mem_cons_self)

theorem admitsRight_scan (w : Text) :
    (scan table.entries [] 0 w).getLast?.any settings.admitsRight = w.getLast?.any (table.admits settings) := by
  suffices h : (scan table.entries [] 0 w = [] ↔ w = []) ∧
      (scan table.entries [] 0 w).getLast?.any settings.admitsRight = w.getLast?.any (table.admits settings) from h.2
  refine scan_letters_induction (label_letter hl ht) (P := fun w pieces => (pieces = [] ↔ w = []) ∧
    pieces.getLast?.any settings.admitsRight = w.getLast?.any (table.admits settings))
    (fun t hfree => ?_) (fun t c s w pieces hfree hnext ih => ⟨by simp, ?_⟩) w
  · rcases List.eq_nil_or_concat t with rfl | ⟨t, d, rfl⟩
    · exact ⟨by simp [literalPiece], rfl⟩
    · have hd : table.keyed? d = none := hfree d (by simp)
      simp [literalPiece, Settings.admitsRight, Settings.pieceText, hcase, admits, hd]
  · rw [List.getLast?_append_of_ne_nil _ (List.cons_ne_nil _ _), List.getLast?_append_of_ne_nil _ (List.cons_ne_nil _ _)]
    by_cases hpieces : pieces = []
    · obtain ⟨-, -, rule, hrule, -, hverbatim⟩ := keyed?_spec hl ht hnext
      have hkeyed : table.keyed? c = some s := hnext
      have hright : s.verbatim.right = false := by rw [hverbatim]; exact hl.right rule hrule
      simp [ih.1.1 hpieces, hpieces, Settings.admitsRight, admits, hkeyed, hright]
    · rw [List.getLast?_cons_of_ne_nil hpieces, List.getLast?_cons_of_ne_nil (mt ih.1.2 hpieces), ih.2]

/-- The word of an item. -/
theorem wordOf_letters (w : Text) : settings.wordOf table w =
    ⟨if w.head?.any (table.admits settings) then table.left.map (·.placeholder) else none, w.map table.letter,
      if w.getLast?.any (table.admits settings) then table.right.map (·.placeholder) else none⟩ := by
  rw [Settings.wordOf, Settings.boundedWord, admitsLeft_scan hcase hl ht, admitsRight_scan hcase hl ht,
    body_scan hcase hl ht]

end Letters

/-! ### The ends of words -/

section Ends

variable {settings : Settings} {items : List Text} {table : SymbolTable} {vocabulary : Vocabulary}
variable (hrules : ∀ rule ∈ settings.rules, rule.IsLiteral) (ht : ofWords settings items = .ok table)

theorem isRight_right {w : Text} {c : Char} (hc : (settings.wordOf table w).right = some c) :
    table.isRight c = true := by
  obtain ⟨s, hs, rfl⟩ := right_wordOf hc
  simp [SymbolTable.isRight, hs]

include hrules ht

/-- Before its right boundary a word has no right boundary. -/
theorem not_isRight_of_mem {w : Text} (hw : w ∈ items) {c : Char}
    (hc : c ∈ (settings.wordOf table w).left.toList ++ (settings.wordOf table w).body) : table.isRight c = false := by
  have hholds := holds_of_ofWords ht
  rw [SymbolTable.isRight, Option.any_eq_false]
  intro s hs
  refine decide_eq_false fun heq => ?_
  rcases List.mem_append.1 hc with hc | hc
  · obtain ⟨l, hl, rfl⟩ := left_wordOf (Option.mem_toList.1 hc)
    have hlt := Vocabulary.placeholder_lt hholds (.inr hl) hs
    rw [heq] at hlt
    exact Nat.lt_irrefl _ hlt
  · rw [← heq] at hc
    exact Vocabulary.placeholder_not_mem_body hholds hw (cut_eq_scan ht hrules w) (.inr hs) hc

theorem trunk_wordOf {w : Text} (hw : w ∈ items) : trunk table.isRight (settings.wordOf table w).text =
    (settings.wordOf table w).left.toList ++ (settings.wordOf table w).body := by
  have hright : trunk table.isRight (settings.wordOf table w).right.toList = [] :=
    List.filter_eq_nil_iff.2 fun c hc => by simp [isRight_right (Option.mem_toList.1 hc)]
  rw [BoundedWord.text, trunk_append, trunk_eq_self fun c hc => not_isRight_of_mem hrules ht hw hc, hright,
    List.append_nil]

/-- The right boundary is the greatest character. -/
theorem le_right {w : Text} (hw : w ∈ items) {c : Char} (hc : c ∈ (settings.wordOf table w).text) {r : Symbol}
    (hr : table.right = some r) : c ≤ r.placeholder := by
  have hholds := holds_of_ofWords ht
  have hsym : r ∈ table.symbols := mem_symbols.2 (.inr (.inr hr))
  change c.toNat ≤ r.placeholder.toNat
  rcases List.mem_append.1 hc with hc | hc
  · rcases List.mem_append.1 hc with hc | hc
    · obtain ⟨l, hl, rfl⟩ := left_wordOf (Option.mem_toList.1 hc)
      exact (Vocabulary.placeholder_lt hholds (.inr hl) hr).le
    · rcases Vocabulary.body_cases hholds hw (cut_eq_scan ht hrules w) hc with ⟨-, hle⟩ | ⟨s, hs, rfl, -⟩
      · exact (hle.trans_lt (hholds.above r hsym)).le
      · exact (Vocabulary.placeholder_lt hholds (.inl hs) hr).le
  · obtain ⟨r', hr', rfl⟩ := right_wordOf (Option.mem_toList.1 hc)
    rw [Option.some.inj (hr.symm.trans hr')]

variable (hcase : settings.ignoreCase = false)

include hcase

/-- An item is known from its word, also without the right boundary. -/
theorem eq_of_trunk_eq {v w : Text} (hv : v ∈ items) (hw : w ∈ items)
    (h : trunk table.isRight (settings.wordOf table v).text = trunk table.isRight (settings.wordOf table w).text) :
    v = w := by
  have hbody : ∀ x, table.bodyOf (trunk table.isRight x) = table.bodyOf x := by
    intro x
    rw [bodyOf, bodyOf, trunk, List.filter_filter]
    refine List.filter_congr fun c _ => ?_
    cases hc : table.isRight c with
    | false => simp
    | true =>
      have hboundary : table.isBoundary c = true := by
        rw [SymbolTable.isBoundary, Bool.or_eq_true]
        exact .inr hc
      simp [hboundary]
  rw [← spellOut_wordOf hcase hrules ht hv, ← hbody, h, hbody, spellOut_wordOf hcase hrules ht hw]

/-- The right boundary is the end of a word. -/
theorem capped_words (h : Vocabulary.ofWords settings table items = .ok vocabulary) :
    Capped table.isRight vocabulary.words where
  stop x hx a c b heq hc := by
    obtain ⟨w, hw, -, rfl⟩ := (mem_words_iff hcase hrules ht h).1 hx
    rcases List.eq_nil_or_concat b with rfl | ⟨b, d, rfl⟩
    · rfl
    · exfalso
      -- the character would stand before the right boundary
      have hmem : c ∈ (settings.wordOf table w).left.toList ++ (settings.wordOf table w).body := by
        cases hr : (settings.wordOf table w).right with
        | none =>
          rw [BoundedWord.text, hr, Option.toList_none, List.append_nil] at heq
          rw [heq]
          simp
        | some r =>
          rw [BoundedWord.text, hr, Option.toList_some, List.concat_eq_append, ← List.cons_append,
            ← List.append_assoc] at heq
          rw [(List.append_inj' heq rfl).1]
          simp
      rw [not_isRight_of_mem hrules ht hw hmem] at hc
      contradiction
  top x hx c hc y hy d hd hlast := by
    obtain ⟨w, hw, -, rfl⟩ := (mem_words_iff hcase hrules ht h).1 hx
    obtain ⟨r, hr, heq⟩ := (Option.any_eq_true _ _).1 hlast
    rw [← of_decide_eq_true heq]
    exact le_right hrules ht hw hc hr
  distinct x hx y hy heq := by
    obtain ⟨v, hv, -, rfl⟩ := (mem_words_iff hcase hrules ht h).1 hx
    obtain ⟨w, hw, -, rfl⟩ := (mem_words_iff hcase hrules ht h).1 hy
    rw [eq_of_trunk_eq hrules ht hcase hv hw heq]

end Ends

/-! ### Occurrences -/

section Occurrences

variable {settings : Settings} {special : Bool → Verbatim → Reach} {bound : Bound} {items : List Text}
variable {table : SymbolTable}

/-- The placeholder of a key matches what the special does. -/
theorem word_letter_of_keyed? (hl : settings.Lettered) (ht : ofWords settings items = .ok table) {c : Char} {s : Symbol}
    (h : table.keyed? c = some s) :
    (settings.sense special).word table.meaning [table.letter c] = special false s.verbatim := by
  obtain ⟨hs, -, rule, -, -, hverbatim⟩ := keyed?_spec hl ht h
  have hmeaning : table.meaning s.placeholder = some s.verbatim :=
    (holds_of_ofWords ht).meaning_eq_some.2 ⟨s, mem_symbols.2 (.inl hs), rfl, rfl⟩
  have hrole : s.verbatim.role = .pattern := by rw [hverbatim]; rfl
  rw [letter_of_keyed? h, Sense.word, List.map_singleton, Sense.items_singleton, Node.ofChar, hmeaning]
  exact if_pos hrole

/-- Any other character matches itself. -/
theorem word_letter_of_none (ht : ofWords settings items = .ok table) {w : Text} (hw : w ∈ items) {c : Char}
    (hc : c ∈ w) (h : table.keyed? c = none) :
    (settings.sense special).word table.meaning [table.letter c] = (settings.sense special).char c := by
  have hmeaning : table.meaning c = none := by
    rw [SymbolTable.meaning, (holds_of_ofWords ht).lookup?_eq_none (le_ceiling hw hc List.mem_cons_self)]
    rfl
  rw [letter_of_none h, Sense.word_literal hmeaning]

/-- A word matches where its body does, between places where what its boundaries assert holds. -/
theorem mem_word_wordOf (hs : settings.Asserts bound) (hl : settings.Lettered)
    (ht : ofWords settings items = .ok table) {w : Text} {p q : Cursor} :
    q ∈ (settings.sense special).word table.meaning (settings.wordOf table w).text p ↔
      (∀ a, bound.leftAssertion = some a → w.head?.any (table.admits settings) = true → a.holds p = true) ∧
        q ∈ (settings.sense special).word table.meaning (w.map table.letter) p ∧
          ∀ a, bound.rightAssertion = some a → w.getLast?.any (table.admits settings) = true → a.holds q = true := by
  have hholds := holds_of_ofWords ht
  have hstart : ∀ p q : Cursor, q ∈ (settings.sense special).word table.meaning
      (if w.head?.any (table.admits settings) then table.left.map (·.placeholder) else none).toList p ↔
        q = p ∧ ∀ a, bound.leftAssertion = some a → w.head?.any (table.admits settings) = true → a.holds p = true :=
    fun _ _ => mem_word_boundary (left_anchor hs hholds) fun s => meaning_left hholds
  have hend : ∀ p q : Cursor, q ∈ (settings.sense special).word table.meaning
      (if w.getLast?.any (table.admits settings) then table.right.map (·.placeholder) else none).toList p ↔
        q = p ∧ ∀ a, bound.rightAssertion = some a → w.getLast?.any (table.admits settings) = true → a.holds p = true :=
    fun _ _ => mem_word_boundary (right_anchor hs hholds) fun s => meaning_right hholds
  rw [wordOf_letters hs.ignoreCase hl ht, BoundedWord.text, Sense.word_append, Sense.word_append]
  simp only [Reach.andThen, List.mem_flatMap, hstart, hend]
  constructor
  · rintro ⟨r, ⟨_, ⟨rfl, hleft⟩, hr⟩, rfl, hright⟩
    exact ⟨hleft, hr, hright⟩
  · rintro ⟨hleft, hq, hright⟩
    exact ⟨q, ⟨p, ⟨rfl, hleft⟩, hq⟩, rfl, hright⟩

theorem length_wordOf_le (hcase : settings.ignoreCase = false) (hl : settings.Lettered)
    (ht : ofWords settings items = .ok table) (w : Text) : (settings.wordOf table w).text.length ≤ w.length + 2 := by
  have hoption : ∀ x : Option Char, x.toList.length ≤ 1 := fun x => by cases x <;> simp
  have hleft := hoption (settings.wordOf table w).left
  have hright := hoption (settings.wordOf table w).right
  have hbody : (settings.wordOf table w).body.length = w.length := by
    rw [wordOf_letters hcase hl ht, List.length_map]
  rw [BoundedWord.text, List.length_append, List.length_append]
  omega

/-- Every special can be read, and matches the character that it stands for. -/
structure Settings.ReadsLiterally (settings : Settings) (special : Bool → Verbatim → Reach) : Prop
    extends settings.Lettered where
  uniform : (settings.sense special).Uniform
  readable : ∀ rule ∈ settings.rules, rule.verbatim.Readable (settings.sense special) True settings.innerFlags
  same : ∀ rule ∈ settings.rules, ∀ c, rule.key = .literal [c] →
    special false rule.verbatim = (settings.sense special).char c

/-- The word of an item begins that of another one if the item does, up to the right boundary. -/
theorem begins_trunk_wordOf (hcase : settings.ignoreCase = false) (hl : settings.Lettered)
    (ht : ofWords settings items = .ok table) {v w : Text} (hv : v ∈ items) (hw : w ∈ items) (hne : v ≠ [])
    (h : v <+: w) : trunk table.isRight (settings.wordOf table v).text <+:
      trunk table.isRight (settings.wordOf table w).text := by
  rw [trunk_wordOf hl.isLiteral ht hv, trunk_wordOf hl.isLiteral ht hw, wordOf_letters hcase hl ht,
    wordOf_letters hcase hl ht]
  obtain ⟨t, rfl⟩ := h
  rw [List.head?_append_of_ne_nil _ hne, List.map_append, ← List.append_assoc]
  exact List.prefix_append _ _

/-- No key stands at an end of a word where the bound would assert something next to it. -/
def Settings.Clear (settings : Settings) (bound : Bound) (w : Text) : Prop :=
  ∀ rule ∈ settings.rules, ∀ c, rule.key = .literal [c] → bound.admits c = true →
    (bound.leftAssertion ≠ none → w.head? ≠ some c) ∧ (bound.rightAssertion ≠ none → w.getLast? ≠ some c)

theorem single_of_readsLiterally (hl : settings.ReadsLiterally special) (ht : table.Holds settings items) :
    (settings.sense special).Single table.meaning := by
  intro c v hv hrole q
  obtain ⟨s, hs, -, rfl⟩ := ht.meaning_eq_some.1 hv
  rcases mem_symbols.1 hs with hs | hs | hs
  · obtain ⟨rule, hrule, hverbatim⟩ := ht.entry_verbatim hs
    obtain ⟨d, hkey, -⟩ := hl.key rule hrule
    have hsame : special false s.verbatim = (settings.sense special).char d :=
      hverbatim ▸ hl.same rule hrule d hkey
    change (special false s.verbatim q).length ≤ 1
    rw [hsame]
    exact Sense.length_char_le d q
  · exact absurd hrole (meaning_left ht hs).2
  · exact absurd hrole (meaning_right ht hs).2

/-- The body of a word matches the item. -/
theorem word_map_letter (hl : settings.ReadsLiterally special) (ht : ofWords settings items = .ok table) {w : Text}
    (hw : w ∈ items) :
    (settings.sense special).word table.meaning (w.map table.letter) = (settings.sense special).text w := by
  have hchar : ∀ c ∈ w,
      (settings.sense special).word table.meaning [table.letter c] = (settings.sense special).char c := by
    intro c hc
    cases h : table.keyed? c with
    | none => exact word_letter_of_none ht hw hc h
    | some s =>
      obtain ⟨-, -, rule, hrule, hkey, hverbatim⟩ := keyed?_spec hl.toLettered ht h
      rw [word_letter_of_keyed? hl.toLettered ht h, hverbatim]
      exact hl.same rule hrule c hkey
  clear hw
  induction w with
  | nil => rfl
  | cons c w ih =>
    obtain ⟨hc, hrest⟩ := List.forall_mem_cons.1 hchar
    rw [List.map_cons, ← List.singleton_append, Sense.word_append, hc, ih hrest, Sense.text]

theorem admits_eq (hs : settings.Asserts bound) (hl : settings.Lettered) (ht : ofWords settings items = .ok table)
    {a : Anchor} (ha : bound.leftAssertion = some a ∨ bound.rightAssertion = some a) {c : Char}
    (hclear : ∀ rule ∈ settings.rules, rule.key = .literal [c] → bound.admits c = false) :
    table.admits settings c = bound.admits c := by
  rw [SymbolTable.admits, passesTest_eq hs ha]
  cases h : table.keyed? c with
  | none => rfl
  | some s =>
    obtain ⟨-, -, rule, hrule, hkey, -⟩ := keyed?_spec hl ht h
    rw [hclear rule hrule hkey]
    rfl

/-- A word of the vocabulary matches where its item occurs. -/
theorem mem_word_iff_occurs (hs : settings.Asserts bound) (hl : settings.ReadsLiterally special)
    (ht : ofWords settings items = .ok table) {w : Text} (hw : w ∈ items) (hclear : settings.Clear bound w)
    {p q : Cursor} :
    q ∈ (settings.sense special).word table.meaning (settings.wordOf table w).text p ↔ Occurs bound w p q := by
  have hfolded : (settings.sense special).folded = false := hs.ignoreCase
  have hleft : ∀ a, bound.leftAssertion = some a →
      w.head?.any (table.admits settings) = w.head?.any bound.admits := by
    intro a ha
    cases hhead : w.head? with
    | none => rfl
    | some c =>
      refine admits_eq hs hl.toLettered ht (.inl ha) fun rule hrule hkey => ?_
      by_contra hadmits
      exact (hclear rule hrule c hkey (by simpa using hadmits)).1 (by simp [ha]) hhead
  have hright : ∀ a, bound.rightAssertion = some a →
      w.getLast?.any (table.admits settings) = w.getLast?.any bound.admits := by
    intro a ha
    cases hlast : w.getLast? with
    | none => rfl
    | some c =>
      refine admits_eq hs hl.toLettered ht (.inr ha) fun rule hrule hkey => ?_
      by_contra hadmits
      exact (hclear rule hrule c hkey (by simpa using hadmits)).2 (by simp [ha]) hlast
  rw [mem_word_wordOf hs hl.toLettered ht, word_map_letter hl ht hw, Sense.mem_text hfolded]
  constructor
  · rintro ⟨hstart, ⟨hafter, hbefore⟩, hend⟩
    exact ⟨hafter, hbefore, fun a ha hadmits => hstart a ha ((hleft a ha).trans hadmits),
      fun a ha hadmits => hend a ha ((hright a ha).trans hadmits)⟩
  · rintro ⟨hafter, hbefore, hstart, hend⟩
    exact ⟨fun a ha hadmits => hstart a ha ((hleft a ha).symm.trans hadmits), ⟨hafter, hbefore⟩,
      fun a ha hadmits => hend a ha ((hright a ha).symm.trans hadmits)⟩

end Occurrences

end WordPattern
