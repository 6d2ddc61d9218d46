import Mathlib.Data.Char
import Mathlib.Data.List.Lex
import WordPattern.Proofs.Generation.Vocabulary

/-! Placeholders never collide: not with each other, nor with a character of the words, of their lower case or of a
literal key. So a character of a word that is a placeholder has been put there for what it stands for. -/

namespace WordPattern

/-! ### The order of the rules -/

namespace Key

theorem precedes_asymm {a b : Key} (h : a.precedes b = true) : b.precedes a = false := by
  cases a with
  | literal s =>
    cases b with
    | literal t => simpa [precedes] using (of_decide_eq_true h : t < s).le
    | regex t => rfl
  | regex s =>
    cases b with
    | literal t => simp [precedes] at h
    | regex t =>
      simp only [precedes, Bool.or_eq_true, Bool.and_eq_true, decide_eq_true_eq] at h
      simp only [precedes, Bool.or_eq_false_iff, Bool.and_eq_false_iff, decide_eq_false_iff_not]
      rcases h with h | ⟨heq, h⟩
      · exact ⟨by omega, .inl (by omega)⟩
      · exact ⟨by omega, .inr h.asymm⟩

theorem not_precedes_trans {a b c : Key} (hba : b.precedes a = false) (hcb : c.precedes b = false) :
    c.precedes a = false := by
  rcases a with s | s <;> rcases b with t | t <;> rcases c with u | u <;>
    simp only [precedes, Bool.or_eq_false_iff, Bool.and_eq_false_iff, decide_eq_false_iff_not, reduceCtorEq] at *
  · exact not_lt.2 ((not_lt.1 hcb).trans (not_lt.1 hba))
  · refine ⟨by omega, ?_⟩
    by_cases heq : Text.byteCount u = Text.byteCount s
    · have hts : ¬ t < s := hba.2.resolve_left fun h => h (by omega)
      have hut : ¬ u < t := hcb.2.resolve_left fun h => h (by omega)
      exact .inr (not_lt.2 ((not_lt.1 hts).trans (not_lt.1 hut)))
    · exact .inl heq

theorem not_precedes_self (a : Key) : a.precedes a = false := by
  cases h : a.precedes a with
  | false => rfl
  | true => rw [← precedes_asymm h, h]

end Key

def Piece.placeholder? : Piece → Option Char
  | .literal _ => none
  | .special s => some s.placeholder

/-! ### The table -/

namespace SymbolTable

variable {settings : Settings} {words : List Text} {table : SymbolTable}

theorem rulesOf_perm (settings : Settings) : (rulesOf settings).Perm settings.rules := sortBy_perm _ _

theorem pairwise_rulesOf (settings : Settings) :
    (rulesOf settings).Pairwise fun a b => b.key.precedes a.key = false :=
  @pairwise_sortBy Rule (fun a b => a.key.precedes b.key) (fun _ _ => Key.precedes_asymm)
    (fun _ _ _ => Key.not_precedes_trans) settings.rules

/-- Rules with the same key stay in order. -/
theorem filter_rulesOf (settings : Settings) (key : Key) :
    (rulesOf settings).filter (·.key = key) = settings.rules.filter (·.key = key) := by
  refine filter_sortBy ?_ _
  intro a b ha hb
  rw [of_decide_eq_true ha, of_decide_eq_true hb]
  exact key.not_precedes_self

/-- The entries are the rules in order, each with a placeholder. -/
theorem entries_of_ofWords (h : ofWords settings words = .ok table) :
    List.Forall₂ (fun s rule => s = Symbol.ofRule s.placeholder rule) table.entries (rulesOf settings) := by
  have hzip : ∀ {placeholders : List Char} {rules : List Rule}, rules.length ≤ placeholders.length →
      List.Forall₂ (fun s rule => s = Symbol.ofRule s.placeholder rule)
        (List.zipWith Symbol.ofRule placeholders rules) rules := by
    intro placeholders rules hlength
    induction rules generalizing placeholders with
    | nil => simp
    | cons rule rules ih =>
      cases placeholders with
      | nil => simp at hlength
      | cons c placeholders => exact .cons rfl (ih (Nat.le_of_succ_le_succ hlength))
  unfold ofWords at h
  simp only at h
  split at h
  · rename_i placeholders hplaceholders
    obtain ⟨splitter, -, h⟩ := bind_eq_ok h
    obtain rfl := Except.ok.inj h
    have hlength := (nextChars?_spec hplaceholders).1
    exact hzip (by rw [hlength]; omega)
  · contradiction

/-- What placeholders are: characters of their own, each with one meaning. -/
structure Placed (table : SymbolTable) (settings : Settings) (words : List Text) : Prop where
  /-- Those of the specials come first, in order, then the left boundary and the right one. -/
  rising : (table.symbols.map (·.placeholder)).Pairwise (· < ·)
  above_words : ∀ s ∈ table.symbols, ∀ w ∈ words, ∀ c ∈ w, c < s.placeholder
  above_lowercase : ∀ s ∈ table.symbols, ∀ w ∈ words, ∀ c ∈ Unicode.lowercase w, c < s.placeholder
  above_keys : ∀ s ∈ table.symbols, ∀ rule ∈ settings.rules, ∀ key, rule.key = .literal key → ∀ c ∈ key,
    c < s.placeholder
  /-- The rules are rearranged so that no rule precedes one before it; rules with the same key stay in order. -/
  entries : ∃ rules, rules.Perm settings.rules ∧ rules.Pairwise (fun a b => b.key.precedes a.key = false) ∧
    (∀ key, rules.filter (·.key = key) = settings.rules.filter (·.key = key)) ∧
    List.Forall₂ (fun s rule => s = Symbol.ofRule s.placeholder rule) table.entries rules
  lookup : ∀ s ∈ table.symbols, table.lookup? s.placeholder = some s
  /-- What is literal in a word is no placeholder, whether or not case is ignored. -/
  literal : ∀ (ignoreCase : Bool), ∀ w ∈ words, ∀ pieces, table.cut w = .ok pieces → ∀ t, .literal t ∈ pieces →
    ∀ c ∈ { settings with ignoreCase }.pieceText (.literal t), table.isSymbol c = false
  /-- The placeholders in a word of the vocabulary are those of its specials, between the boundaries it has earned. -/
  vocabulary : ∀ (ignoreCase : Bool) vocabulary,
    Vocabulary.ofWords { settings with ignoreCase } table words = .ok vocabulary → ∀ x ∈ vocabulary.words,
      ∃ w ∈ words, ∃ pieces, table.cut w = .ok pieces ∧ ∃ bounded,
        { settings with ignoreCase }.boundedWord table pieces = bounded ∧ x = bounded.text ∧
          x.filter table.isSymbol =
            bounded.left.toList ++ pieces.filterMap Piece.placeholder? ++ bounded.right.toList

theorem le_ceiling_of_mem_key {rule : Rule} (hrule : rule ∈ settings.rules) {key : Text}
    (hkey : rule.key = .literal key) {c : Char} (hc : c ∈ key) : c.toNat ≤ ceiling settings words := by
  refine le_highest (List.mem_append_right _ (List.mem_flatMap.2 ⟨rule, hrule, ?_⟩))
  rw [hkey]
  exact hc

theorem le_ceiling_of_mem_lowercase {w : Text} (hw : w ∈ words) {t : Text} (ht : ∀ c ∈ t, c ∈ w) {c : Char}
    (hc : c ∈ Unicode.lowercase t) : c.toNat ≤ ceiling settings words := by
  obtain ⟨d, hd, e, he, hle⟩ := le_of_mem_lowerAfter hc
  exact hle.trans (le_ceiling hw (ht d hd) (List.mem_cons_of_mem _ he))

/-- The characters of a literal piece are below all placeholders, in lower case as well. -/
theorem le_ceiling_of_mem_literal {w : Text} (hw : w ∈ words) {pieces : List Piece} (hpieces : table.cut w = .ok pieces)
    {t : Text} (ht : .literal t ∈ pieces) {c : Char} (hc : c ∈ settings.pieceText (.literal t)) :
    c.toNat ≤ ceiling settings words := by
  obtain ⟨-, hmem⟩ : t ≠ [] ∧ ∀ c ∈ t, c ∈ w := of_cut hpieces _ ht
  unfold Settings.pieceText at hc
  simp only at hc
  split_ifs at hc
  · exact le_ceiling_of_mem_lowercase hw hmem hc
  · exact le_ceiling hw (hmem c hc) List.mem_cons_self

theorem isSymbol_of_mem (h : table.Holds settings words) {s : Symbol} (hs : s ∈ table.symbols) :
    table.isSymbol s.placeholder = true := by
  rw [isSymbol, h.lookup?_eq_some.2 ⟨hs, rfl⟩]
  rfl

theorem isSymbol_of_mem_literal (h : table.Holds settings words) {w : Text} (hw : w ∈ words) {pieces : List Piece}
    (hpieces : table.cut w = .ok pieces) {t : Text} (ht : .literal t ∈ pieces) {c : Char}
    (hc : c ∈ settings.pieceText (.literal t)) : table.isSymbol c = false := by
  have hle : c.toNat ≤ ceiling settings words := le_ceiling_of_mem_literal hw hpieces ht hc
  rw [isSymbol, h.lookup?_eq_none hle]
  rfl

/-- The placeholders in a word are those that were put there. -/
theorem filter_isSymbol (h : table.Holds settings words) {w : Text} (hw : w ∈ words) {pieces : List Piece}
    (hpieces : table.cut w = .ok pieces) : (settings.boundedWord table pieces).text.filter table.isSymbol =
      (settings.boundedWord table pieces).left.toList ++ pieces.filterMap Piece.placeholder? ++
        (settings.boundedWord table pieces).right.toList := by
  have hboundary : ∀ (earned : Bool) (boundary : Option Symbol), (∀ s ∈ boundary, s ∈ table.symbols) →
      (if earned then boundary.map (·.placeholder) else none).toList.filter table.isSymbol =
        (if earned then boundary.map (·.placeholder) else none).toList := by
    intro earned boundary hmem
    rw [List.filter_eq_self]
    intro c hc
    split_ifs at hc
    · obtain ⟨s, hs, rfl⟩ := Option.map_eq_some_iff.1 (Option.mem_toList.1 hc)
      exact isSymbol_of_mem h (hmem s hs)
    · simp at hc
  have hbody : ∀ ps : List Piece, (∀ piece ∈ ps, piece ∈ pieces) →
      (ps.flatMap settings.pieceText).filter table.isSymbol = ps.filterMap Piece.placeholder? := by
    intro ps hps
    induction ps with
    | nil => rfl
    | cons piece ps ih =>
      obtain ⟨hpiece, hrest⟩ := List.forall_mem_cons.1 hps
      rw [List.flatMap_cons, List.filter_append, ih hrest]
      cases piece with
      | literal t =>
        have hnone : (settings.pieceText (.literal t)).filter table.isSymbol = [] :=
          List.filter_eq_nil_iff.2 fun c hc => by simp [isSymbol_of_mem_literal h hw hpieces hpiece hc]
        rw [hnone]
        rfl
      | special s =>
        have hs : s ∈ table.entries := of_cut hpieces _ hpiece
        have hsome := isSymbol_of_mem h (mem_symbols.2 (.inl hs))
        simp [Settings.pieceText, Piece.placeholder?, hsome]
  rw [BoundedWord.text, List.filter_append, List.filter_append]
  congr 1
  · congr 1
    · exact hboundary _ _ fun s hs => mem_symbols.2 (.inr (.inl hs))
    · exact hbody pieces fun _ hpiece => hpiece
  · exact hboundary _ _ fun s hs => mem_symbols.2 (.inr (.inr hs))

theorem placed_of_ofWords (h : ofWords settings words = .ok table) : table.Placed settings words where
  rising := List.pairwise_map.2 ((holds_of_ofWords h).rising.imp fun hlt => hlt)
  above_words s hs w hw c hc := by
    have hle : c.toNat ≤ ceiling settings words := le_ceiling hw hc List.mem_cons_self
    exact hle.trans_lt ((holds_of_ofWords h).above s hs)
  above_lowercase s hs w hw c hc := by
    have hle : c.toNat ≤ ceiling settings words := le_ceiling_of_mem_lowercase hw (fun _ hd => hd) hc
    exact hle.trans_lt ((holds_of_ofWords h).above s hs)
  above_keys s hs rule hrule key hkey c hc := by
    have hle : c.toNat ≤ ceiling settings words := le_ceiling_of_mem_key hrule hkey hc
    exact hle.trans_lt ((holds_of_ofWords h).above s hs)
  entries := ⟨rulesOf settings, rulesOf_perm settings, pairwise_rulesOf settings, filter_rulesOf settings,
    entries_of_ofWords h⟩
  lookup s hs := (holds_of_ofWords h).lookup?_eq_some.2 ⟨hs, rfl⟩
  literal ignoreCase w hw pieces hpieces t ht c hc := by
    have hfolded : ofWords { settings with ignoreCase } words = .ok table := h
    exact isSymbol_of_mem_literal (holds_of_ofWords hfolded) hw hpieces ht hc
  vocabulary ignoreCase vocabulary hvocabulary x hx := by
    have hfolded : ofWords { settings with ignoreCase } words = .ok table := h
    obtain ⟨-, w, hw, pieces, hpieces, rfl⟩ := (Vocabulary.mem_words hvocabulary).1 hx
    exact ⟨w, hw, pieces, hpieces, _, rfl, rfl, filter_isSymbol (holds_of_ofWords hfolded) hw hpieces⟩

/-- Of a word that ends in a sigma, whose lower case there is a letter of its own, with a space and digits as specials.
-/
theorem placed_final_sigma : ∃ settings table,
    Settings.ofOptions
        { bound := .word .both
          specials := [(.regex "\\d".toList, {}), (.literal " ".toList, { pattern := some "_".toList })] } =
      .ok settings ∧
      ofWords settings ["ΟΣ 1".toList, "Σ".toList] = .ok table ∧
        table.Placed settings ["ΟΣ 1".toList, "Σ".toList] :=
  ⟨_, _, rfl, rfl, placed_of_ofWords rfl⟩

end SymbolTable

end WordPattern
