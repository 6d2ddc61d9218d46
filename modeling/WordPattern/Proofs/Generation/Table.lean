import Mathlib.Data.List.Nodup
import WordPattern.Proofs.Success
import WordPattern.SymbolTable

/-! Placeholders are characters of their own: greater than all characters of the words, and each one symbol's. -/

namespace WordPattern

theorem toNat_valid (c : Char) : c.toNat < 0xD800 ∨ 0xDFFF < c.toNat ∧ c.toNat < 0x110000 := c.valid

/-- The next character is the least one above a code point. -/
theorem nextChar?_spec {n : Nat} {c : Char} (h : nextChar? n = some c) :
    n < c.toNat ∧ ∀ d : Char, n < d.toNat → c.toNat ≤ d.toNat := by
  unfold nextChar? at h
  split_ifs at h with h₁ h₂ h₃ <;> obtain rfl := Option.some.inj h
  · rw [Unicode.toNat_ofNat (.inl h₁)]
    exact ⟨Nat.lt_succ_self n, fun _ hd => hd⟩
  · rw [Unicode.toNat_ofNat (.inr ⟨by decide, by decide⟩)]
    refine ⟨by omega, fun d hd => ?_⟩
    have := toNat_valid d
    omega
  · rw [Unicode.toNat_ofNat (.inr ⟨by omega, by omega⟩)]
    exact ⟨Nat.lt_succ_self n, fun _ hd => hd⟩

theorem nextChars?_spec {n count : Nat} {cs : List Char} (h : nextChars? n count = some cs) :
    cs.length = count ∧ (∀ c ∈ cs, n < c.toNat) ∧ cs.Pairwise (·.toNat < ·.toNat) := by
  induction count generalizing n cs with
  | zero =>
    obtain rfl := Option.some.inj h
    exact ⟨rfl, by simp, .nil⟩
  | succ count ih =>
    obtain ⟨c, hc, h⟩ := Option.bind_eq_some_iff.1 h
    obtain ⟨rest, hrest, h⟩ := Option.bind_eq_some_iff.1 h
    obtain rfl := Option.some.inj h
    obtain ⟨hlt, -⟩ := nextChar?_spec hc
    obtain ⟨hlength, habove, hrising⟩ := ih hrest
    refine ⟨congrArg Nat.succ hlength, ?_, List.pairwise_cons.2 ⟨habove, hrising⟩⟩
    intro d hd
    rcases List.mem_cons.1 hd with rfl | hd
    · exact hlt
    · exact Nat.lt_trans hlt (habove d hd)

theorem le_highest {text : Text} {c : Char} (h : c ∈ text) : c.toNat ≤ highest text := by
  induction text with
  | nil => simp at h
  | cons d text ih =>
    rw [highest, List.foldr_cons]
    rcases List.mem_cons.1 h with rfl | h
    · exact Nat.le_max_left _ _
    · exact Nat.le_trans (ih h) (Nat.le_max_right _ _)

namespace SymbolTable

variable {settings : Settings} {words : List Text} {table : SymbolTable}

/-- The rules in the order of their placeholders. -/
def rulesOf (settings : Settings) : List Rule := sortBy (fun a b => a.key.precedes b.key) settings.rules

/-- What is in a symbol table: the rules in order, and then the boundaries. -/
structure Holds (table : SymbolTable) (settings : Settings) (words : List Text) : Prop where
  splitter : splitterOf (rulesOf settings) = .ok table.splitter
  entries : table.entries.map (·.verbatim) =
    (rulesOf settings).map fun rule => ⟨rule.pattern, rule.atomic, rule.left, rule.right, .pattern⟩
  left : table.left.map (·.verbatim) =
    (settings.boundary.bind (·.left)).map fun pattern => ⟨pattern, true, false, false, .leftBoundary⟩
  right : table.right.map (·.verbatim) =
    (settings.boundary.bind (·.right)).map fun pattern =>
      ⟨pattern, true, false, false, if pattern = ['\\', 'z'] then .finish else .rightBoundary⟩
  above : ∀ s ∈ table.symbols, ceiling settings words < s.placeholder.toNat
  rising : table.symbols.Pairwise fun s t => s.placeholder.toNat < t.placeholder.toNat

theorem zipWith_ofRule {placeholders : List Char} {rules : List Rule} (h : rules.length ≤ placeholders.length) :
    (List.zipWith Symbol.ofRule placeholders rules).map (·.placeholder) = placeholders.take rules.length ∧
      (List.zipWith Symbol.ofRule placeholders rules).map (·.verbatim) =
        rules.map fun rule => ⟨rule.pattern, rule.atomic, rule.left, rule.right, .pattern⟩ := by
  induction placeholders generalizing rules with
  | nil =>
    obtain rfl := List.length_eq_zero_iff.1 (Nat.le_zero.1 h)
    exact ⟨rfl, rfl⟩
  | cons c placeholders ih =>
    cases rules with
    | nil => exact ⟨rfl, rfl⟩
    | cons rule rules =>
      obtain ⟨hplaceholders, hverbatims⟩ := ih (Nat.le_of_succ_le_succ h)
      exact ⟨congrArg _ hplaceholders, congrArg _ hverbatims⟩

/-- One placeholder for each boundary. -/
theorem boundaries_spec {left right : Option Text} {cs : List Char}
    (h : cs.length = left.toList.length + right.toList.length) :
    let leftSymbol := left.bind fun pattern => cs.head?.map (Symbol.leftBoundary pattern)
    let rightSymbol := right.bind fun pattern => cs.getLast?.map (Symbol.rightBoundary pattern)
    (leftSymbol.toList ++ rightSymbol.toList).map (·.placeholder) = cs ∧
      leftSymbol.map (·.verbatim) = left.map (fun pattern => ⟨pattern, true, false, false, .leftBoundary⟩) ∧
      rightSymbol.map (·.verbatim) = right.map fun pattern =>
        ⟨pattern, true, false, false, if pattern = ['\\', 'z'] then .finish else .rightBoundary⟩ := by
  cases left with
  | none =>
    cases right with
    | none =>
      obtain rfl := List.length_eq_zero_iff.1 h
      exact ⟨rfl, rfl, rfl⟩
    | some right =>
      obtain ⟨c, rfl⟩ := List.length_eq_one_iff.1 h
      exact ⟨rfl, rfl, rfl⟩
  | some left =>
    cases right with
    | none =>
      obtain ⟨c, rfl⟩ := List.length_eq_one_iff.1 h
      exact ⟨rfl, rfl, rfl⟩
    | some right =>
      obtain ⟨c, d, rfl⟩ := List.length_eq_two.1 h
      exact ⟨rfl, rfl, rfl⟩

theorem holds_of_ofWords (h : ofWords settings words = .ok table) : table.Holds settings words := by
  unfold ofWords at h
  simp only at h
  split at h
  · rename_i placeholders hplaceholders
    obtain ⟨splitter, hsplitter, h⟩ := bind_eq_ok h
    obtain rfl := Except.ok.inj h
    obtain ⟨hlength, habove, hrising⟩ := nextChars?_spec hplaceholders
    change placeholders.length = (rulesOf settings).length + _ + _ at hlength
    obtain ⟨hentries, hverbatims⟩ : _ ∧ (List.zipWith Symbol.ofRule placeholders (rulesOf settings)).map _ = _ :=
      zipWith_ofRule (by omega)
    have hdrop : (placeholders.drop (rulesOf settings).length).length =
        (settings.boundary.bind (·.left)).toList.length + (settings.boundary.bind (·.right)).toList.length := by
      rw [List.length_drop]
      omega
    obtain ⟨hboundaries, hleft, hright⟩ := boundaries_spec hdrop
    have hsymbols : ∀ table : SymbolTable, table.entries = List.zipWith Symbol.ofRule placeholders (rulesOf settings) →
        (table.left.toList ++ table.right.toList).map (·.placeholder) = placeholders.drop (rulesOf settings).length →
        table.symbols.map (·.placeholder) = placeholders := by
      intro table he hb
      rw [symbols, List.append_assoc, List.map_append, hb, he, hentries, List.take_append_drop]
    generalize htable : SymbolTable.mk _ _ _ splitter = table
    have hplaced : table.symbols.map (·.placeholder) = placeholders := by
      rw [← htable]
      exact hsymbols _ rfl hboundaries
    subst htable
    refine ⟨hsplitter, hverbatims, hleft, hright, fun s hs => habove _ ?_, ?_⟩
    · rw [← hplaced]
      exact List.mem_map_of_mem hs
    · rw [← hplaced, List.pairwise_map] at hrising
      exact hrising
  · contradiction

theorem Holds.symbol_unique (h : table.Holds settings words) {s t : Symbol} (hs : s ∈ table.symbols)
    (ht : t ∈ table.symbols) (heq : s.placeholder = t.placeholder) : s = t := by
  refine List.inj_on_of_nodup_map (List.pairwise_map.2 (h.rising.imp fun {s t} hlt heq => ?_)) hs ht heq
  rw [heq] at hlt
  exact Nat.lt_irrefl _ hlt

theorem Holds.lookup?_eq_some (h : table.Holds settings words) {c : Char} {s : Symbol} :
    table.lookup? c = some s ↔ s ∈ table.symbols ∧ s.placeholder = c := by
  unfold lookup?
  constructor
  · intro hs
    have heq : decide (s.placeholder = c) = true := List.find?_some (p := fun s : Symbol => s.placeholder = c) hs
    exact ⟨List.mem_of_find?_eq_some hs, of_decide_eq_true heq⟩
  · rintro ⟨hs, rfl⟩
    have hsome : (table.symbols.find? (·.placeholder = s.placeholder)).isSome :=
      List.find?_isSome.2 ⟨s, hs, decide_eq_true rfl⟩
    obtain ⟨t, ht⟩ := Option.isSome_iff_exists.1 hsome
    have heq : decide (t.placeholder = s.placeholder) = true :=
      List.find?_some (p := fun t : Symbol => t.placeholder = s.placeholder) ht
    rw [ht, h.symbol_unique (List.mem_of_find?_eq_some ht) hs (of_decide_eq_true heq)]

/-- Characters up to the ceiling are no placeholders. -/
theorem Holds.lookup?_eq_none (h : table.Holds settings words) {c : Char} (hc : c.toNat ≤ ceiling settings words) :
    table.lookup? c = none := by
  cases hs : table.lookup? c with
  | none => rfl
  | some s =>
    obtain ⟨hmem, rfl⟩ := h.lookup?_eq_some.1 hs
    have := h.above s hmem
    omega

def meaning (table : SymbolTable) (c : Char) : Option Verbatim := (table.lookup? c).map (·.verbatim)

theorem Holds.meaning_eq_some (h : table.Holds settings words) {c : Char} {v : Verbatim} :
    table.meaning c = some v ↔ ∃ s ∈ table.symbols, s.placeholder = c ∧ s.verbatim = v := by
  rw [meaning, Option.map_eq_some_iff]
  simp only [h.lookup?_eq_some, and_assoc]

theorem mem_symbols {s : Symbol} :
    s ∈ table.symbols ↔ s ∈ table.entries ∨ table.left = some s ∨ table.right = some s := by
  simp [symbols]

theorem Holds.entry_verbatim (h : table.Holds settings words) {s : Symbol} (hs : s ∈ table.entries) :
    ∃ rule ∈ settings.rules, s.verbatim = ⟨rule.pattern, rule.atomic, rule.left, rule.right, .pattern⟩ := by
  have hv : s.verbatim ∈ table.entries.map (·.verbatim) := List.mem_map_of_mem hs
  rw [h.entries] at hv
  obtain ⟨rule, hrule, heq⟩ := List.mem_map.1 hv
  exact ⟨rule, (sortBy_perm _ _).mem_iff.1 hrule, heq.symm⟩

theorem Holds.left_verbatim (h : table.Holds settings words) {s : Symbol} (hs : table.left = some s) :
    ∃ pattern, settings.boundary.bind (·.left) = some pattern ∧
      s.verbatim = ⟨pattern, true, false, false, .leftBoundary⟩ := by
  have hv := h.left
  rw [hs] at hv
  obtain ⟨pattern, hpattern, heq⟩ := Option.map_eq_some_iff.1 hv.symm
  exact ⟨pattern, hpattern, heq.symm⟩

theorem Holds.right_verbatim (h : table.Holds settings words) {s : Symbol} (hs : table.right = some s) :
    ∃ pattern, settings.boundary.bind (·.right) = some pattern ∧ s.verbatim =
      ⟨pattern, true, false, false, if pattern = ['\\', 'z'] then .finish else .rightBoundary⟩ := by
  have hv := h.right
  rw [hs] at hv
  obtain ⟨pattern, hpattern, heq⟩ := Option.map_eq_some_iff.1 hv.symm
  exact ⟨pattern, hpattern, heq.symm⟩

theorem le_ceiling {w : Text} (hw : w ∈ words) {c d : Char} (hc : c ∈ w) (hd : d ∈ c :: Unicode.lowerChar c) :
    d.toNat ≤ ceiling settings words :=
  le_highest (List.mem_append_left _ (List.mem_flatMap.2 ⟨w, hw, List.mem_flatMap.2 ⟨c, hc, hd⟩⟩))

end SymbolTable

end WordPattern
