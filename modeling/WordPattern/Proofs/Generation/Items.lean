import Mathlib.Data.Set.Function
import WordPattern.Proofs.Generation.Pieces

/-! The words of a vocabulary stand for the items that they have been made from.

Where case counts and all keys are literal, no item is lost and no two are merged: the item can be read from its word.
Boundaries stand only at the ends of words, where the boundary has that side and the run of the item at that end earns
it. -/

namespace WordPattern

open SymbolTable

/-! ### Reading words back -/

section Reading

variable {settings : Settings} {items : List Text} {table : SymbolTable} {w : Text}

def SymbolTable.isBoundary (table : SymbolTable) (c : Char) : Bool :=
  table.left.any (·.placeholder = c) || table.right.any (·.placeholder = c)

def SymbolTable.bodyOf (table : SymbolTable) (x : Text) : Text := x.filter fun c => !table.isBoundary c

/-- A text with the key of each special for its placeholder. -/
def SymbolTable.spellOut (table : SymbolTable) (x : Text) : Text :=
  x.flatMap fun c => ((table.lookup? c).map (·.label)).getD [c]

/-- A run earns a boundary at one of its ends: a special by its flag, a literal by the character at that end. -/
def Settings.Earns (settings : Settings) (flag : Verbatim → Bool) (edge : Text → Option Char) : Piece → Prop
  | .literal t => ∃ boundary c, settings.boundary = some boundary ∧ edge t = some c ∧ boundary.test.holds c = true
  | .special s => flag s.verbatim = true

theorem passesTest_iff {c : Char} : settings.passesTest c = true ↔
    ∃ boundary, settings.boundary = some boundary ∧ boundary.test.holds c = true := by
  rw [Settings.passesTest, Option.any_eq_true]

/-- At one of its ends a literal that is not empty has a character to be tested. -/
theorem earns_literal {edge : Text → Option Char} {flag : Verbatim → Bool} {t : Text} {c : Char}
    (hc : edge t = some c) :
    (edge t).all settings.passesTest = true ↔ settings.Earns flag edge (.literal t) := by
  rw [hc, Option.all_some, passesTest_iff, Settings.Earns, hc]
  constructor
  · rintro ⟨boundary, hboundary, htest⟩
    exact ⟨boundary, c, hboundary, rfl, htest⟩
  · rintro ⟨boundary, d, hboundary, heq, htest⟩
    exact ⟨boundary, hboundary, Option.some.inj heq ▸ htest⟩

theorem admitsLeft_iff (hcase : settings.ignoreCase = false) {piece : Piece} (hpiece : piece.Of table w) :
    settings.admitsLeft piece = true ↔ settings.Earns (·.left) List.head? piece := by
  cases piece with
  | special s => rfl
  | literal t =>
    rw [Settings.admitsLeft, Settings.pieceText, hcase]
    exact earns_literal (List.head?_eq_some_head hpiece.1)

theorem admitsRight_iff (hcase : settings.ignoreCase = false) {piece : Piece} (hpiece : piece.Of table w) :
    settings.admitsRight piece = true ↔ settings.Earns (·.right) List.getLast? piece := by
  cases piece with
  | special s => rfl
  | literal t =>
    rw [Settings.admitsRight, Settings.pieceText, hcase]
    exact earns_literal (List.getLast?_eq_some_getLast hpiece.1)

/-- A piece is read back from what stands for it. -/
theorem spellOut_pieceText (ht : table.Holds settings items) (hcase : settings.ignoreCase = false) (hw : w ∈ items)
    {piece : Piece} (hpiece : piece.Of table w) : table.spellOut (settings.pieceText piece) = piece.source := by
  cases piece with
  | special s =>
    have hs : s ∈ table.symbols := mem_symbols.2 (.inl hpiece)
    simp [spellOut, Settings.pieceText, ht.lookup?_eq_some.2 ⟨hs, rfl⟩, Piece.source]
  | literal t =>
    have hliteral : ∀ c ∈ t, ((table.lookup? c).map (·.label)).getD [c] = [c] := fun c hc => by
      rw [ht.lookup?_eq_none (le_ceiling hw (hpiece.2 c hc) List.mem_cons_self)]
      rfl
    rw [Settings.pieceText, hcase]
    exact (List.flatMap_congr hliteral).trans (List.flatMap_singleton' t)

/-- An item is read back from the body of its word. -/
theorem spellOut_body (ht : table.Holds settings items) (hcase : settings.ignoreCase = false) (hw : w ∈ items)
    {pieces : List Piece} (hpieces : table.cut w = .ok pieces) :
    table.spellOut (settings.boundedWord table pieces).body = pieces.flatMap Piece.source := by
  have hof := of_cut hpieces
  change table.spellOut (pieces.flatMap settings.pieceText) = _
  rw [spellOut, List.flatMap_assoc]
  exact List.flatMap_congr fun piece hpiece => spellOut_pieceText ht hcase hw (hof piece hpiece)

/-- The body of a word is what is left of it without boundaries. -/
theorem bodyOf_text (ht : table.Holds settings items) (hw : w ∈ items) {pieces : List Piece}
    (hpieces : table.cut w = .ok pieces) :
    table.bodyOf (settings.boundedWord table pieces).text = (settings.boundedWord table pieces).body := by
  have hboundary : ∀ (earned : Bool) (boundary : Option Symbol),
      (∀ s, boundary = some s → table.isBoundary s.placeholder = true) →
        (if earned then boundary.map (·.placeholder) else none).toList.filter (fun c => !table.isBoundary c) = [] := by
    intro earned boundary h
    rw [List.filter_eq_nil_iff]
    intro c hc
    split_ifs at hc
    · obtain ⟨s, hs, rfl⟩ := Option.map_eq_some_iff.1 (Option.mem_toList.1 hc)
      simp [h s hs]
    · simp at hc
  have hbody : (settings.boundedWord table pieces).body.filter (fun c => !table.isBoundary c) =
      (settings.boundedWord table pieces).body := by
    refine List.filter_eq_self.2 fun c hc => ?_
    have hout := fun s hs => Vocabulary.placeholder_not_mem_body ht hw hpieces (s := s) hs
    simp only [isBoundary, Bool.not_eq_true', Bool.or_eq_false_iff, Option.any_eq_false, decide_eq_false_iff_not]
    exact ⟨fun s hs heq => hout s (.inl hs) (heq ▸ hc), fun s hs heq => hout s (.inr hs) (heq ▸ hc)⟩
  rw [bodyOf, BoundedWord.text, List.filter_append, List.filter_append, hbody]
  have hleft := hboundary (pieces.head?.any settings.admitsLeft) table.left fun s hs => by simp [isBoundary, hs]
  have hright := hboundary (pieces.getLast?.any settings.admitsRight) table.right fun s hs => by simp [isBoundary, hs]
  rw [Settings.boundedWord]
  simp only [hleft, hright, List.nil_append, List.append_nil]

end Reading

/-! ### The words of items -/

/-- What the words of a vocabulary are, for the items that they have been made from. -/
structure Vocabulary.Normal (vocabulary : Vocabulary) (settings : Settings) (table : SymbolTable) (items : List Text) :
    Prop where
  rising : vocabulary.words.Pairwise (· < ·)
  ne_nil : ∀ x ∈ vocabulary.words, x ≠ []
  /-- Read without its boundaries and with keys for placeholders, each word is an item, and each item is one word. -/
  bijective : Set.BijOn (fun x => table.spellOut (table.bodyOf x)) {x | x ∈ vocabulary.words} {w | w ∈ items ∧ w ≠ []}
  /-- Boundaries stand only at the ends, where the boundary has that side and the run at that end earns it. -/
  bounded : ∀ x ∈ vocabulary.words, ∃ (left right : Option Symbol) (pieces : List Piece),
    x = (left.map (·.placeholder)).toList ++ table.bodyOf x ++ (right.map (·.placeholder)).toList ∧
      table.bodyOf x ≠ [] ∧ table.cut (table.spellOut (table.bodyOf x)) = .ok pieces ∧
        (∀ s, left = some s → table.left = some s) ∧ (∀ s, right = some s → table.right = some s) ∧
          (left.isSome = true ↔ (∃ boundary pattern, settings.boundary = some boundary ∧ boundary.left = some pattern) ∧
            ∃ run, pieces.head? = some run ∧ settings.Earns (·.left) List.head? run) ∧
          (right.isSome = true ↔ (∃ boundary pattern, settings.boundary = some boundary ∧ boundary.right = some pattern) ∧
            ∃ run, pieces.getLast? = some run ∧ settings.Earns (·.right) List.getLast? run)
  leftUsed : vocabulary.leftUsed = true ↔
    ∃ x ∈ vocabulary.words, ∃ s, table.left = some s ∧ x.head? = some s.placeholder
  rightUsed : vocabulary.rightUsed = true ↔
    ∃ x ∈ vocabulary.words, ∃ s, table.right = some s ∧ x.getLast? = some s.placeholder

section Items

variable {settings : Settings} {items : List Text} {table : SymbolTable}

/-- A boundary has a symbol where it has a pattern. -/
theorem SymbolTable.Holds.left_isSome (ht : table.Holds settings items) : table.left.isSome = true ↔
    ∃ boundary pattern, settings.boundary = some boundary ∧ boundary.left = some pattern := by
  rw [← Option.isSome_map (f := (·.verbatim)), ht.left, Option.isSome_map, Option.isSome_iff_exists]
  simp only [Option.bind_eq_some_iff]
  exact ⟨fun ⟨p, b, hb, hp⟩ => ⟨b, p, hb, hp⟩, fun ⟨b, p, hb, hp⟩ => ⟨p, b, hb, hp⟩⟩

theorem SymbolTable.Holds.right_isSome (ht : table.Holds settings items) : table.right.isSome = true ↔
    ∃ boundary pattern, settings.boundary = some boundary ∧ boundary.right = some pattern := by
  rw [← Option.isSome_map (f := (·.verbatim)), ht.right, Option.isSome_map, Option.isSome_iff_exists]
  simp only [Option.bind_eq_some_iff]
  exact ⟨fun ⟨p, b, hb, hp⟩ => ⟨b, p, hb, hp⟩, fun ⟨b, p, hb, hp⟩ => ⟨p, b, hb, hp⟩⟩

/-- A boundary is there if it has been earned. -/
theorem earned_iff {boundary : Option Symbol} {run? : Option Piece} {admits : Piece → Bool} {P : Piece → Prop}
    (h : ∀ run, run? = some run → (admits run = true ↔ P run)) :
    (if run?.any admits then boundary else none).isSome = true ↔
      boundary.isSome = true ∧ ∃ run, run? = some run ∧ P run := by
  cases hrun : run? with
  | none => simp
  | some run =>
    have hrun := h run hrun
    rw [Option.any_some]
    split_ifs with hadmits
    · exact ⟨fun hsome => ⟨hsome, run, rfl, hrun.1 hadmits⟩, And.left⟩
    · refine ⟨fun hsome => absurd hsome (by simp), ?_⟩
      rintro ⟨-, run', heq, hearns⟩
      exact absurd (hrun.2 (Option.some.inj heq ▸ hearns)) hadmits

def Settings.wordOf (settings : Settings) (table : SymbolTable) (w : Text) : BoundedWord :=
  settings.boundedWord table (scan table.entries [] 0 w)

variable (hcase : settings.ignoreCase = false) (hrules : ∀ rule ∈ settings.rules, rule.IsLiteral)
  (ht : SymbolTable.ofWords settings items = .ok table)

include hrules ht

/-- Any list has a vocabulary, which consists of the words of its elements. -/
theorem ofWords_wordOf (xs : List Text) : Vocabulary.ofWords settings table xs = .ok
    { words := ascending (((xs.map (settings.wordOf table)).map (·.text)).filter (!·.isEmpty))
      leftUsed := (xs.map (settings.wordOf table)).any (·.left.isSome)
      rightUsed := (xs.map (settings.wordOf table)).any (·.right.isSome) } := by
  have hcut : (fun w => (table.cut w).map (settings.boundedWord table)) = fun w => pure (settings.wordOf table w) := by
    funext w
    rw [cut_eq_scan ht hrules]
    rfl
  rw [Vocabulary.ofWords, hcut, List.mapM_pure]
  rfl

theorem bodyOf_wordOf {w : Text} (hw : w ∈ items) :
    table.bodyOf (settings.wordOf table w).text = (settings.wordOf table w).body :=
  bodyOf_text (holds_of_ofWords ht) hw (cut_eq_scan ht hrules w)

include hcase

/-- The item is read back from its word. -/
theorem spellOut_wordOf {w : Text} (hw : w ∈ items) :
    table.spellOut (table.bodyOf (settings.wordOf table w).text) = w := by
  rw [bodyOf_wordOf hrules ht hw]
  refine (spellOut_body (holds_of_ofWords ht) hcase hw (cut_eq_scan ht hrules w)).trans ?_
  exact flatMap_source_scan (fun s hs => label_ne_nil ht hrules hs) w

theorem body_wordOf_ne_nil {w : Text} (hw : w ∈ items) (hne : w ≠ []) : (settings.wordOf table w).body ≠ [] := by
  intro hnil
  have hread := spellOut_wordOf hcase hrules ht hw
  rw [bodyOf_wordOf hrules ht hw, hnil] at hread
  exact hne hread.symm

omit hcase in
theorem exists_vocabulary_of_literal : ∃ vocabulary, Vocabulary.ofWords settings table items = .ok vocabulary ∧
    vocabulary.leftUsed = items.any (fun w => (settings.wordOf table w).left.isSome) ∧
      vocabulary.rightUsed = items.any (fun w => (settings.wordOf table w).right.isSome) :=
  ⟨_, ofWords_wordOf hrules ht items, List.any_map, List.any_map⟩

theorem mem_words_iff {vocabulary : Vocabulary} (h : Vocabulary.ofWords settings table items = .ok vocabulary)
    {x : Text} : x ∈ vocabulary.words ↔ ∃ w ∈ items, w ≠ [] ∧ x = (settings.wordOf table w).text := by
  rw [Vocabulary.mem_words h]
  constructor
  · rintro ⟨hne, w, hw, pieces, hpieces, rfl⟩
    rw [cut_eq_scan ht hrules] at hpieces
    obtain rfl := Except.ok.inj hpieces
    refine ⟨w, hw, ?_, rfl⟩
    rintro rfl
    exact hne rfl
  · rintro ⟨w, hw, hne, rfl⟩
    have hbody := body_wordOf_ne_nil hcase hrules ht hw hne
    exact ⟨by simp [BoundedWord.text, hbody], w, hw, _, cut_eq_scan ht hrules w, rfl⟩

omit hcase hrules ht in
/-- A word is made of its body and the boundaries that its runs earn. -/
theorem text_wordOf (w : Text) : (settings.wordOf table w).text =
    ((if (scan table.entries [] 0 w).head?.any settings.admitsLeft then table.left else none).map (·.placeholder)).toList ++
      (settings.wordOf table w).body ++
        ((if (scan table.entries [] 0 w).getLast?.any settings.admitsRight then table.right else none).map
          (·.placeholder)).toList := by
  rw [BoundedWord.text, Settings.wordOf, Settings.boundedWord]
  simp only [apply_ite (Option.map Symbol.placeholder), Option.map_none]

omit hcase hrules ht in
theorem left_wordOf {w : Text} {c : Char} (h : (settings.wordOf table w).left = some c) :
    ∃ s, table.left = some s ∧ s.placeholder = c := by
  simp only [Settings.wordOf, Settings.boundedWord] at h
  split_ifs at h
  exact Option.map_eq_some_iff.1 h

omit hcase hrules ht in
theorem right_wordOf {w : Text} {c : Char} (h : (settings.wordOf table w).right = some c) :
    ∃ s, table.right = some s ∧ s.placeholder = c := by
  simp only [Settings.wordOf, Settings.boundedWord] at h
  split_ifs at h
  exact Option.map_eq_some_iff.1 h

/-- A word begins with the left boundary if it has been put there. -/
theorem head?_wordOf {w : Text} (hw : w ∈ items) (hne : w ≠ []) : (settings.wordOf table w).left.isSome = true ↔
    ∃ s, table.left = some s ∧ (settings.wordOf table w).text.head? = some s.placeholder := by
  have hbody := body_wordOf_ne_nil hcase hrules ht hw hne
  rw [BoundedWord.text]
  cases hleft : (settings.wordOf table w).left with
  | none =>
    refine ⟨fun h => absurd h (by simp), ?_⟩
    rintro ⟨s, hs, hhead⟩
    rw [Option.toList_none, List.nil_append, List.head?_append_of_ne_nil _ hbody] at hhead
    exact absurd (List.mem_of_head? hhead)
      (Vocabulary.placeholder_not_mem_body (holds_of_ofWords ht) hw (cut_eq_scan ht hrules w) (.inl hs))
  | some c =>
    obtain ⟨s, hs, rfl⟩ := left_wordOf hleft
    exact ⟨fun _ => ⟨s, hs, rfl⟩, fun _ => rfl⟩

/-- A word ends with the right boundary if it has been put there. -/
theorem getLast?_wordOf {w : Text} (hw : w ∈ items) (hne : w ≠ []) : (settings.wordOf table w).right.isSome = true ↔
    ∃ s, table.right = some s ∧ (settings.wordOf table w).text.getLast? = some s.placeholder := by
  have hbody := body_wordOf_ne_nil hcase hrules ht hw hne
  rw [BoundedWord.text]
  cases hright : (settings.wordOf table w).right with
  | none =>
    refine ⟨fun h => absurd h (by simp), ?_⟩
    rintro ⟨s, hs, hlast⟩
    rw [Option.toList_none, List.append_nil, List.getLast?_append_of_ne_nil _ hbody] at hlast
    exact absurd (List.mem_of_getLast? hlast)
      (Vocabulary.placeholder_not_mem_body (holds_of_ofWords ht) hw (cut_eq_scan ht hrules w) (.inr hs))
  | some c =>
    obtain ⟨s, hs, rfl⟩ := right_wordOf hright
    exact ⟨fun _ => ⟨s, hs, by simp⟩, fun _ => rfl⟩

/-- What some word of the vocabulary has is what the word of some item has. -/
theorem any_wordOf_iff {vocabulary : Vocabulary} (h : Vocabulary.ofWords settings table items = .ok vocabulary)
    {side : BoundedWord → Option Char} {P : Text → Prop} (hnil : side (settings.wordOf table []) = none)
    (hside : ∀ w ∈ items, w ≠ [] →
      ((side (settings.wordOf table w)).isSome = true ↔ P (settings.wordOf table w).text)) :
    items.any (fun w => (side (settings.wordOf table w)).isSome) = true ↔ ∃ x ∈ vocabulary.words, P x := by
  rw [List.any_eq_true]
  constructor
  · rintro ⟨w, hw, hsome⟩
    have hne : w ≠ [] := by
      rintro rfl
      rw [hnil] at hsome
      contradiction
    exact ⟨_, (mem_words_iff hcase hrules ht h).2 ⟨w, hw, hne, rfl⟩, (hside w hw hne).1 hsome⟩
  · rintro ⟨x, hx, hP⟩
    obtain ⟨w, hw, hne, rfl⟩ := (mem_words_iff hcase hrules ht h).1 hx
    exact ⟨w, hw, (hside w hw hne).2 hP⟩

/-- Each item that is not empty has one word, from which it is read back. -/
theorem bijOn_spellOut {vocabulary : Vocabulary} (h : Vocabulary.ofWords settings table items = .ok vocabulary) :
    Set.BijOn (fun x => table.spellOut (table.bodyOf x)) {x | x ∈ vocabulary.words} {w | w ∈ items ∧ w ≠ []} := by
  have hwords := fun x => mem_words_iff hcase hrules ht h (x := x)
  have hread := fun w hw => spellOut_wordOf hcase hrules ht (w := w) hw
  refine ⟨?_, ?_, ?_⟩
  · intro x hx
    obtain ⟨w, hw, hne, rfl⟩ := (hwords x).1 hx
    change table.spellOut (table.bodyOf _) ∈ {v | v ∈ items ∧ v ≠ []}
    rw [hread w hw]
    exact ⟨hw, hne⟩
  · intro x hx y hy heq
    obtain ⟨w, hw, -, rfl⟩ := (hwords x).1 hx
    obtain ⟨v, hv, -, rfl⟩ := (hwords y).1 hy
    have heq : table.spellOut (table.bodyOf (settings.wordOf table w).text) =
      table.spellOut (table.bodyOf (settings.wordOf table v).text) := heq
    rw [hread w hw, hread v hv] at heq
    rw [heq]
  · rintro w ⟨hw, hne⟩
    exact ⟨_, (hwords _).2 ⟨w, hw, hne, rfl⟩, hread w hw⟩

/-- The word of an item is its body between the boundaries that the runs at its ends earn. -/
theorem bounded_wordOf {w : Text} : ∃ (left right : Option Symbol) (pieces : List Piece),
    (settings.wordOf table w).text = (left.map (·.placeholder)).toList ++ (settings.wordOf table w).body ++
        (right.map (·.placeholder)).toList ∧
      table.cut w = .ok pieces ∧ (∀ s, left = some s → table.left = some s) ∧
        (∀ s, right = some s → table.right = some s) ∧
          (left.isSome = true ↔ table.left.isSome = true ∧
            ∃ run, pieces.head? = some run ∧ settings.Earns (·.left) List.head? run) ∧
          (right.isSome = true ↔ table.right.isSome = true ∧
            ∃ run, pieces.getLast? = some run ∧ settings.Earns (·.right) List.getLast? run) := by
  have hof := of_cut (cut_eq_scan ht hrules w)
  refine ⟨_, _, _, text_wordOf w, cut_eq_scan ht hrules w, ?_, ?_, ?_, ?_⟩
  · intro s hs
    split_ifs at hs
    exact hs
  · intro s hs
    split_ifs at hs
    exact hs
  · exact earned_iff fun run hrun => admitsLeft_iff hcase (hof run (List.mem_of_head? hrun))
  · exact earned_iff fun run hrun => admitsRight_iff hcase (hof run (List.mem_of_getLast? hrun))

end Items

/-- No item is lost and no two items are merged; boundaries stand where they have been earned, at the ends of words. -/
theorem normal_ofWords {o : Options} {settings : Settings} {items : List Text} {table : SymbolTable}
    (hs : Settings.ofOptions o = .ok settings) (hcase : o.ignoreCase = false)
    (hliteral : ∀ entry ∈ o.specials, ∃ text, entry.1 = .literal text)
    (ht : SymbolTable.ofWords settings items = .ok table) :
    ∃ vocabulary, Vocabulary.ofWords settings table items = .ok vocabulary ∧ vocabulary.Normal settings table items := by
  have hrules := isLiteral_of_mem_rules hs hliteral
  have hholds := holds_of_ofWords ht
  have hcase : settings.ignoreCase = false := by
    obtain ⟨-, _, _, -, -, rfl⟩ := Settings.ofOptions_eq_ok hs
    exact hcase
  obtain ⟨vocabulary, hvocabulary, hleftUsed, hrightUsed⟩ := exists_vocabulary_of_literal hrules ht
  refine ⟨vocabulary, hvocabulary, ?_⟩
  constructor
  case rising => exact Vocabulary.pairwise_words hvocabulary
  case ne_nil => exact fun x hx => ((Vocabulary.mem_words hvocabulary).1 hx).1
  case bijective => exact bijOn_spellOut hcase hrules ht hvocabulary
  case bounded =>
    intro x hx
    obtain ⟨w, hw, hne, rfl⟩ := (mem_words_iff hcase hrules ht hvocabulary).1 hx
    rw [spellOut_wordOf hcase hrules ht hw, bodyOf_wordOf hrules ht hw, ← hholds.left_isSome, ← hholds.right_isSome]
    obtain ⟨left, right, pieces, htext, hpieces⟩ := bounded_wordOf hcase hrules ht (w := w)
    exact ⟨left, right, pieces, htext, body_wordOf_ne_nil hcase hrules ht hw hne, hpieces⟩
  case leftUsed =>
    rw [hleftUsed]
    exact @any_wordOf_iff _ _ _ hcase hrules ht _ hvocabulary (·.left) _
      (by simp [Settings.wordOf, Settings.boundedWord, scan, literalPiece]) fun w => head?_wordOf hcase hrules ht
  case rightUsed =>
    rw [hrightUsed]
    exact @any_wordOf_iff _ _ _ hcase hrules ht _ hvocabulary (·.right) _
      (by simp [Settings.wordOf, Settings.boundedWord, scan, literalPiece]) fun w => getLast?_wordOf hcase hrules ht

/-- Of items with a special that a left boundary may stand before, one empty and one twice. -/
theorem normal_numbers : ∃ settings table,
    Settings.ofOptions
        { bound := .word .both, specials := [(.literal "num".toList, { pattern := some "\\d++".toList, left := true })] } =
      .ok settings ∧
      SymbolTable.ofWords settings ["num x".toList, "x num".toList, [], "num x".toList] = .ok table ∧
        ∃ vocabulary,
          Vocabulary.ofWords settings table ["num x".toList, "x num".toList, [], "num x".toList] = .ok vocabulary ∧
            vocabulary.Normal settings table ["num x".toList, "x num".toList, [], "num x".toList] :=
  ⟨_, _, rfl, rfl, @normal_ofWords
    { bound := .word .both, specials := [(.literal "num".toList, { pattern := some "\\d++".toList, left := true })] }
    _ _ _ rfl rfl (List.forall_mem_singleton.2 ⟨_, rfl⟩) rfl⟩

end WordPattern
