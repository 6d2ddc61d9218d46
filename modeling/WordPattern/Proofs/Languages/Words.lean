import WordPattern.Proofs.Generation.Folded
import WordPattern.Proofs.Languages.Derivations
import WordPattern.Proofs.Search.Modes

/-! The language of the pattern of a list of words.

Cut at its specials, a word stands for the texts in which every special has been replaced by one that its pattern
stands for. The pattern of a list denotes the texts that its words stand for. -/

namespace WordPattern

open Regex

/-! ### Trees without gaps -/

section Shaped

variable {strict : Prop} {L : Language Char} {Ls : List (Language Char)}

theorem takes_languageIf (h : Takes L) (yes : Bool) : Takes (languageIf yes L) := by
  obtain ⟨t, ht, hne⟩ := h
  cases yes with
  | false => exact ⟨t, ht, hne⟩
  | true => exact ⟨t, .inr ht, hne⟩

theorem takes_prod (h : ∀ L ∈ Ls, Takes L) (hne : Ls ≠ []) : Takes Ls.prod := by
  have hsome : ∀ Ls : List (Language Char), (∀ L ∈ Ls, Takes L) → ∃ u, u ∈ Ls.prod := by
    intro Ls h
    induction Ls with
    | nil => exact ⟨[], rfl⟩
    | cons L Ls ih =>
      obtain ⟨t, ht, -⟩ := h L List.mem_cons_self
      obtain ⟨u, hu⟩ := ih fun M hM => h M (List.mem_cons_of_mem _ hM)
      exact ⟨t ++ u, Language.append_mem_mul ht hu⟩
  cases Ls with
  | nil => contradiction
  | cons L Ls =>
    obtain ⟨t, ht, htne⟩ := h L List.mem_cons_self
    obtain ⟨u, hu⟩ := hsome Ls fun M hM => h M (List.mem_cons_of_mem _ hM)
    exact ⟨t ++ u, Language.append_mem_mul ht hu, List.append_ne_nil_of_left_ne_nil htne u⟩

/-- What is taken as it is denotes a language, and takes something where the writing is strict. -/
structure Verbatim.Denotes (strict : Prop) (v : Verbatim) : Prop where
  regular : IsRegular v.pattern
  atom : v.atomic = true → IsAtom v.pattern
  takes : strict → Takes (sourceLanguage v.pattern)

namespace Node

variable {known : Verbatim → Prop}

mutual

/-- A tree without gaps takes something, if what it takes as it is does. -/
theorem Shaped.takes (hknown : ∀ v, known v → Takes (sourceLanguage v.pattern)) : {n : Node} → n.Shaped known →
    Takes n.language
  | .leaf _ _, h => takes_languageIf (takes_singleton h.1) _
  | .charClass _ cls, h => by
    obtain ⟨c, hc⟩ := List.exists_mem_of_ne_nil _ h
    have hclass : Takes cls.language := ⟨[c], ⟨c, decide_eq_true hc, rfl⟩, List.cons_ne_nil c []⟩
    exact takes_languageIf hclass _
  | .verbatim _ v, h => takes_languageIf (hknown v h) _
  | .sequence _ children, h => by
    have hitems := takes_prod (ShapedEach.takes hknown h.2.2) (by simpa using h.1)
    rw [← itemsLanguage_eq] at hitems
    exact takes_languageIf hitems _
  | .alternate _ (n :: rest), h => by
    obtain ⟨t, ht, hne⟩ := Shaped.takes hknown h.2.2.1
    exact takes_languageIf ⟨t, .inl ht, hne⟩ _

theorem ShapedEach.takes (hknown : ∀ v, known v → Takes (sourceLanguage v.pattern)) : {ns : List Node} →
    ShapedEach known ns → ∀ L ∈ ns.map language, Takes L
  | [], _, _, hL => by simp at hL
  | n :: rest, h, L, hL => by
    rcases List.mem_cons.1 hL with rfl | hL
    · exact Shaped.takes hknown h.1
    · exact ShapedEach.takes hknown h.2 L hL

end

mutual

/-- A tree without gaps can be written. -/
theorem Shaped.writable : {n : Node} → n.Shaped (Verbatim.Denotes strict) → n.Everywhere (Writable strict)
  | .leaf _ _, h =>
    { countable := h.2
      regular := trivial
      present := trivial
      worthwhile := fun hstrict _ => Shaped.takes (fun _ hv => hv.takes hstrict) h
      alternating := fun _ => trivial }
  | .charClass _ _, h =>
    { countable := trivial
      regular := trivial
      present := trivial
      worthwhile := fun hstrict _ => Shaped.takes (fun _ hv => hv.takes hstrict) h
      alternating := fun _ => trivial }
  | .verbatim _ _, h =>
    { countable := trivial
      regular := ⟨h.regular, h.atom⟩
      present := trivial
      worthwhile := fun hstrict _ => Shaped.takes (fun _ hv => hv.takes hstrict) h
      alternating := fun _ => trivial }
  | .sequence _ _, h => ⟨
    { countable := h.2.1
      regular := trivial
      present := trivial
      worthwhile := fun hstrict _ => Shaped.takes (fun _ hv => hv.takes hstrict) h
      alternating := fun hstrict => turns_of_forall (ShapedEach.takes (fun _ hv => hv.takes hstrict) h.2.2) },
    ShapedEach.writable h.2.2⟩
  | .alternate _ (_ :: _), h => ⟨
    { countable := trivial
      regular := trivial
      present := trivial
      worthwhile := fun hstrict _ => Shaped.takes (fun _ hv => hv.takes hstrict) h
      alternating := fun _ => trivial },
    ShapedEach.writable h.2.2⟩

theorem ShapedEach.writable : {ns : List Node} → ShapedEach (Verbatim.Denotes strict) ns →
    EverywhereEach (Writable strict) ns
  | [], _ => trivial
  | _ :: _, h => ⟨Shaped.writable h.1, ShapedEach.writable h.2⟩

end

end Node

end Shaped

/-! ### Around a tree -/

section Around

variable {strict solid : Prop} {φ : Flags} {t : Text} {L : Language Char}

theorem SpellsChoice.flagged {i m x : Bool} (h : SpellsChoice strict ⟨i, m, false⟩ t L solid)
    (hflags : flagsText i m x ≠ []) :
    SpellsChoice strict {} (['(', '?'] ++ flagsText i m x ++ ':' :: t ++ [')']) L False := by
  obtain ⟨hopens, ts, hlex, hdenotes⟩ := h
  have htext : ['(', '?'] ++ flagsText i m x ++ ':' :: t ++ [')'] =
      ['(', '?'] ++ flagsText i m x ++ [':'] ++ t ++ [')'] := by simp
  have happly : ({} : Flags).apply (flagsChange i m) = ⟨i, m, false⟩ := by
    cases i <;> cases m <;> rfl
  rw [← happly] at hdenotes
  rw [htext]
  exact ⟨opens_cons (by decide) _, _, ((lexes_flags hflags).append hlex hopens).append lexes_close (opens_cons (by decide) _),
    (hdenotes.plainGroup.many.weaken False.elim).choice⟩

theorem SpellsChoice.named {name : Text} (h : SpellsChoice strict φ t L solid) (hname : isGroupName name = true) :
    SpellsChoice strict φ (['(', '?', '<'] ++ name ++ '>' :: t ++ [')']) L False := by
  obtain ⟨hopens, ts, hlex, hdenotes⟩ := h
  have htext : ['(', '?', '<'] ++ name ++ '>' :: t ++ [')'] = ['(', '?', '<'] ++ name ++ ['>'] ++ t ++ [')'] := by simp
  rw [htext]
  exact ⟨opens_cons (by decide) _, _, ((lexes_named hname).append hlex hopens).append lexes_close (opens_cons (by decide) _),
    ((hdenotes.namedGroup name).many.weaken False.elim).choice⟩

/-- The text of a tree with everything that stands around it. -/
theorem spells_wholePattern {settings : Settings} {root : Node} (hmode : settings.mode = .backtracking)
    (hname : ∀ name, settings.name = some name → isGroupName name = true)
    (h : SpellsChoice strict settings.innerFlags (root.pattern settings.mode) L False) :
    SpellsChoice strict {} (settings.wholePattern root) L False := by
  refine wholePattern_induction (P := fun φ t => SpellsChoice strict φ t L False) hname (fun h => ?_)
    SpellsChoice.flagged SpellsChoice.named h
  rw [hmode]
  exact ((h.group true).many.weaken False.elim).choice

end Around

/-! ### Words -/

/-- The texts that a piece of a word stands for: a literal piece for itself, a special for what its pattern does. -/
def Piece.language : Piece → Language Char
  | literal t => {t}
  | special s => sourceLanguage s.verbatim.pattern

/-- The texts that the words of a list stand for, cut at their specials. -/
def SymbolTable.language (table : SymbolTable) (words : List Text) : Language Char :=
  {t | ∃ w ∈ words, ∃ pieces, table.cut w = .ok pieces ∧ t ∈ (pieces.map Piece.language).prod}

theorem SymbolTable.mem_language {table : SymbolTable} {words : List Text} {t : Text} : t ∈ table.language words ↔
    ∃ w ∈ words, ∃ pieces, table.cut w = .ok pieces ∧ t ∈ (pieces.map Piece.language).prod := Iff.rfl

section Words

variable {settings : Settings} {table : SymbolTable} {words : List Text} {strict : Prop}

/-- A piece is written in characters that stand for what it stands for. -/
theorem lettersLanguage_piece (hcase : settings.ignoreCase = false) (ht : table.Holds settings words) {w : Text}
    (hw : w ∈ words) {piece : Piece} (h : piece.Of table w) :
    lettersLanguage (spell table.meaning (settings.pieceText piece)) = piece.language := by
  cases piece with
  | literal t =>
    have hchars : spell table.meaning t = t.map .char := by
      refine List.map_congr_left fun c hc => ?_
      have hnone : table.lookup? c = none := ht.lookup?_eq_none (SymbolTable.le_ceiling hw (h.2 c hc) List.mem_cons_self)
      rw [Letter.ofChar, SymbolTable.meaning, hnone]
      rfl
    have htext : settings.pieceText (.literal t) = t := by
      rw [Settings.pieceText, if_neg (by simp [hcase])]
    rw [htext, hchars, lettersLanguage_text, Piece.language]
  | special s =>
    have hs : table.lookup? s.placeholder = some s := ht.lookup?_eq_some.2 ⟨SymbolTable.mem_symbols.2 (.inl h), rfl⟩
    have hletter : Letter.ofChar table.meaning s.placeholder = .special s.verbatim := by
      rw [Letter.ofChar, SymbolTable.meaning, hs]
      rfl
    have hspell : spell table.meaning (settings.pieceText (.special s)) = [.special s.verbatim] := by
      rw [← hletter]
      rfl
    rw [hspell, lettersLanguage_singleton, Letter.language, Piece.language]

theorem lettersLanguage_pieces (hcase : settings.ignoreCase = false) (ht : table.Holds settings words) {w : Text}
    (hw : w ∈ words) {pieces : List Piece} (h : ∀ piece ∈ pieces, piece.Of table w) :
    lettersLanguage (spell table.meaning (pieces.flatMap settings.pieceText)) = (pieces.map Piece.language).prod := by
  induction pieces with
  | nil => rfl
  | cons piece pieces ih =>
    have hspell : spell table.meaning ((piece :: pieces).flatMap settings.pieceText) =
        spell table.meaning (settings.pieceText piece) ++ spell table.meaning (pieces.flatMap settings.pieceText) := by
      rw [spell, List.flatMap_cons, List.map_append]
      rfl
    rw [hspell, lettersLanguage_append, lettersLanguage_piece hcase ht hw (h piece List.mem_cons_self),
      ih fun p hp => h p (List.mem_cons_of_mem _ hp), List.map_cons, List.prod_cons]

/-- Without boundaries a word consists of its pieces. -/
theorem text_boundedWord (hleft : table.left = none) (hright : table.right = none) (pieces : List Piece) :
    (settings.boundedWord table pieces).text = pieces.flatMap settings.pieceText := by
  simp [Settings.boundedWord, BoundedWord.text, hleft, hright]

/-- Without boundaries the words of the vocabulary are the given words, in their pieces. -/
theorem mem_words_of_cut (hboundary : settings.boundary = none)
    (ht : table.Holds settings words) (hne : ∀ w ∈ words, w ≠ []) {vocabulary : Vocabulary}
    (h : Vocabulary.ofWords settings table words = .ok vocabulary) {x : Text} : x ∈ vocabulary.words ↔
      ∃ w ∈ words, ∃ pieces, table.cut w = .ok pieces ∧ x = pieces.flatMap settings.pieceText := by
  have hleft : table.left = none := by simpa [hboundary] using ht.left
  have hright : table.right = none := by simpa [hboundary] using ht.right
  simp only [Vocabulary.mem_words h, text_boundedWord hleft hright]
  refine and_iff_right_of_imp ?_
  rintro ⟨w, hw, pieces, hpieces, rfl⟩ hnil
  exact body_ne_nil _ hpieces (hne w hw) hnil

/-- Without boundaries every symbol is a special. -/
theorem denotes_of_meaning (hboundary : settings.boundary = none) (ht : table.Holds settings words)
    (hspecial : ∀ rule ∈ settings.rules, Verbatim.Denotes strict ⟨rule.pattern, rule.atomic, rule.left, rule.right, .pattern⟩)
    {c : Char} {v : Verbatim} (hv : table.meaning c = some v) : v.Denotes strict := by
  obtain ⟨s, hs, -, rfl⟩ := ht.meaning_eq_some.1 hv
  rcases SymbolTable.mem_symbols.1 hs with hs | hs | hs
  · obtain ⟨rule, hrule, heq⟩ := ht.entry_verbatim hs
    rw [heq]
    exact hspecial rule hrule
  · obtain ⟨pattern, hpattern, -⟩ := ht.left_verbatim hs
    simp [hboundary] at hpattern
  · obtain ⟨pattern, hpattern, -⟩ := ht.right_verbatim hs
    simp [hboundary] at hpattern

/-- Without boundaries, the pattern of a list is written for what its words stand for. -/
theorem Generation.Made.spells {generation : Generation} (h : generation.Made settings words)
    (hcase : settings.ignoreCase = false) (hboundary : settings.boundary = none) (hmode : settings.mode = .backtracking)
    (hname : ∀ name, settings.name = some name → isGroupName name = true) (hne : ∀ w ∈ settings.filter words, w ≠ [])
    (hlen : ∀ x ∈ generation.vocabulary.words, x.length < boundLimit)
    (hspecial : ∀ rule ∈ settings.rules, Verbatim.Denotes strict ⟨rule.pattern, rule.atomic, rule.left, rule.right, .pattern⟩) :
    SpellsChoice strict {} generation.pattern (generation.table.language (settings.filter words)) False := by
  have ht := SymbolTable.holds_of_ofWords h.table
  have hmem := fun x => mem_words_of_cut (x := x) hboundary ht hne h.vocabulary
  have hlisted : Listed generation.vocabulary.words := by
    refine Vocabulary.listed_words h.vocabulary ?_
    obtain ⟨w, hw⟩ := List.exists_mem_of_ne_nil _ h.filtered
    obtain ⟨pieces, hpieces⟩ := Vocabulary.exists_cut h.vocabulary hw
    exact List.ne_nil_of_mem ((hmem _).2 ⟨w, hw, pieces, hpieces, rfl⟩)
  have hcount : generation.vocabulary.words.count [] ≤ 1 := by
    rw [List.count_eq_zero_of_not_mem fun hnil => hlisted.nonempty [] hnil rfl]
    exact Nat.zero_le 1
  have hroot : generation.root = (Node.ofWords generation.table.meaning settings.ignoreCase
      generation.vocabulary.words).flatten.place .root := h.root
  generalize htree : Node.ofWords generation.table.meaning settings.ignoreCase generation.vocabulary.words = tree at hroot
  have hfits : Fits (Verbatim.Denotes strict) generation.vocabulary.words tree := by
    rw [← htree]
    exact fits_ofWords (fun c v hv => denotes_of_meaning hboundary ht hspecial hv) hlisted hlen
  have hlanguage : tree.flatten.language = generation.table.language (settings.filter words) := by
    ext t
    rw [← htree, hcase, Node.mem_language_build hcount, SymbolTable.mem_language]
    simp only [hmem]
    constructor
    · rintro ⟨_, ⟨w, hw, pieces, hpieces, rfl⟩, hin⟩
      exact ⟨w, hw, pieces, hpieces, lettersLanguage_pieces hcase ht hw (of_cut hpieces) ▸ hin⟩
    · rintro ⟨w, hw, pieces, hpieces, hin⟩
      exact ⟨_, ⟨w, hw, pieces, hpieces, rfl⟩, (lettersLanguage_pieces hcase ht hw (of_cut hpieces)).symm ▸ hin⟩
  have hspells : SpellsChoice strict { multiline := settings.multiline } (generation.root.pattern .backtracking)
      tree.flatten.language False := by
    rw [hroot]
    exact spells_root hfits.shaped.writable
  rw [h.pattern]
  refine spells_wholePattern hmode hname ?_
  rwa [hmode, Settings.innerFlags, hcase, ← hlanguage]

end Words

/-! ### Options -/

section Options

variable {o : Options} {g : Generator} {words : List Text}

/-- Specials are put in for what stands for them and nothing else changes: case counts, choices stay open, and there are
no boundaries. The patterns are regular, and atoms if they are marked so. -/
structure Options.Substitutes (o : Options) : Prop where
  bound : o.bound = .none
  mode : o.mode = .backtracking
  ignoreCase : o.ignoreCase = false
  normalizeBlanks : o.normalizeBlanks = false
  specials : o.EachRule fun rule => IsRegular rule.pattern ∧ (rule.atomic = true → IsAtom rule.pattern)

/-- A character that is read as itself is a pattern for itself. -/
theorem isRegular_char {c : Char} (hlex : Lexes [c] [.char c]) (hc : c ≠ '\x7b') :
    IsRegular [c] ∧ sourceLanguage [c] = {[c]} := by
  have hparse : parse [c] = .ok ⟨.char c false, []⟩ := by
    rw [parse, hlex.tokens_eq]
    rfl
  constructor
  · refine { head := fun h => hc (Option.some.inj h), contained := ⟨_, hlex, rfl⟩, parses := ⟨_, hparse⟩, hasLanguage := ?_ }
    intro parsed h
    obtain rfl := Except.ok.inj (hparse.symm.trans h)
    trivial
  · ext t
    simp only [sourceLanguage, hparse, Expr.language, mem_oneOf, sameChar, Bool.false_eq_true, if_false, decide_eq_true_eq,
      exists_eq_left']
    exact Iff.rfl

/-- The patterns that options imply are single characters. -/
theorem isRegular_implied (hblanks : o.normalizeBlanks = false) {pattern : Text} (h : pattern ∈ o.impliedPatterns) :
    IsRegular pattern ∧ Takes (sourceLanguage pattern) := by
  have hchar : ∀ {c : Char}, Lexes [c] [.char c] → c ≠ '\x7b' → IsRegular [c] ∧ Takes (sourceLanguage [c]) := by
    intro c hlex hc
    obtain ⟨hregular, hlanguage⟩ := isRegular_char hlex hc
    exact ⟨hregular, hlanguage ▸ takes_singleton (List.cons_ne_nil c [])⟩
  simp only [Options.impliedPatterns, hblanks, Bool.false_eq_true, if_false, List.mem_cons, List.not_mem_nil,
    or_false] at h
  rcases h with rfl | rfl
  · exact hchar (lexes_token fun _ _ => rfl) (by decide)
  · exact hchar (lexes_token fun _ _ => rfl) (by decide)

/-- Every special denotes the language of its pattern. -/
theorem Options.Substitutes.denotes {strict : Prop} (ho : o.Substitutes) (hg : Generator.ofOptions o = .ok g)
    (htakes : strict → o.EachRule fun rule => Takes (sourceLanguage rule.pattern)) :
    ∀ rule ∈ g.settings.rules,
      Verbatim.Denotes strict ⟨rule.pattern, rule.atomic, rule.left, rule.right, .pattern⟩ := by
  obtain ⟨settings, hsettings, rfl⟩ := map_eq_ok hg
  intro rule hrule
  rcases Settings.mem_rules hsettings hrule with ⟨entry, hentry, heq⟩ | ⟨himplied, hatomic⟩
  · obtain ⟨hregular, hatom⟩ := ho.specials entry hentry rule heq
    exact ⟨hregular, hatom, fun hstrict => htakes hstrict entry hentry rule heq⟩
  · obtain ⟨hregular, htakes⟩ := isRegular_implied ho.normalizeBlanks himplied
    exact ⟨hregular, fun h => absurd (hatomic.symm.trans h) (by simp), fun _ => htakes⟩

theorem Options.Substitutes.spells {strict : Prop} (ho : o.Substitutes) (hg : Generator.ofOptions o = .ok g)
    (hstorable : g.Storable words) {generation : Generation} (h : generation.Made g.settings words)
    (htakes : strict → o.EachRule fun rule => Takes (sourceLanguage rule.pattern)) :
    SpellsChoice strict {} generation.pattern (generation.table.language (g.settings.filter words)) False := by
  have hdenotes := ho.denotes hg htakes
  obtain ⟨settings, hsettings, rfl⟩ := map_eq_ok hg
  obtain ⟨hname, boundary, rules, hboundary, -, rfl⟩ := Settings.ofOptions_eq_ok hsettings
  rw [ho.bound] at hboundary
  obtain rfl := Except.ok.inj hboundary
  refine h.spells ho.ignoreCase rfl ho.mode hname (fun w hw => (Settings.of_filter ho.normalizeBlanks hw).1) ?_ hdenotes
  intro x hx
  exact Nat.lt_of_le_of_lt (Nat.le_add_right _ 2) (hstorable generation h.generate x hx).length_lt

/-- The pattern of a list denotes the texts that the words of the list stand for, where it is a regular expression; and it
is one if every special can match some text that is not empty. -/
theorem language_eq_substituted (ho : o.Substitutes) (hg : Generator.ofOptions o = .ok g) (hstorable : g.Storable words)
    {source : Text} (hsource : g.pattern words = .ok (some source)) :
    ∃ table, SymbolTable.ofWords g.settings (g.settings.filter words) = .ok table ∧
      (∀ w ∈ g.settings.filter words, ∃ pieces, table.cut w = .ok pieces) ∧
      (∀ parsed, parse source = .ok parsed →
        parsed.expr.HasLanguage ∧ parsed.expr.language = table.language (g.settings.filter words)) ∧
      (o.EachRule (fun rule => Takes (sourceLanguage rule.pattern)) → (∃ parsed, parse source = .ok parsed) ∧
        ∀ x, compile source = .error x → x = .tooDeep ∨ x = .tooLarge) := by
  obtain ⟨generation?, hgenerate, hpattern⟩ := map_eq_ok hsource
  obtain ⟨generation, rfl, rfl⟩ := Option.map_eq_some_iff.1 hpattern
  have hmade := made_of_generate hgenerate
  refine ⟨generation.table, hmade.table, fun w hw => Vocabulary.exists_cut hmade.vocabulary hw, ?_, fun htakes => ?_⟩
  · obtain ⟨-, ts, hlex, hdenotes⟩ := @Options.Substitutes.spells _ _ _ False ho hg hstorable _ hmade False.elim
    exact (hdenotes.parse hlex.tokens_eq).1
  · obtain ⟨-, ts, hlex, hdenotes⟩ := @Options.Substitutes.spells _ _ _ True ho hg hstorable _ hmade fun _ => htakes
    obtain ⟨hlanguage, hparsed⟩ := hdenotes.parse hlex.tokens_eq
    obtain ⟨parsed, hparsed⟩ := hparsed trivial
    exact ⟨⟨parsed, hparsed⟩, fun x hx => compile_error hparsed (hlanguage parsed hparsed).1.tame hx⟩

theorem eachRule_withKey (pattern : Text) :
    (withKey pattern).EachRule fun rule => rule.pattern = pattern ∧ rule.atomic = false := by
  intro entry hentry rule hrule
  obtain rfl := List.mem_singleton.1 hentry
  exact ofSpecial_literal hrule

theorem substitutes_withKey {pattern : Text} (h : IsRegular pattern) : (withKey pattern).Substitutes := by
  refine ⟨rfl, rfl, rfl, rfl, fun entry hentry rule heq => ?_⟩
  obtain ⟨rfl, hatomic⟩ := eachRule_withKey pattern entry hentry rule heq
  exact ⟨h, fun hyes => absurd (hatomic.symm.trans hyes) (by decide)⟩

/-- Of a letter that a number may follow. -/
theorem language_eq_substituted_number : ∃ g table parsed, Generator.ofOptions (withKey ['\\', 'd', '+']) = .ok g ∧
    SymbolTable.ofWords g.settings (g.settings.filter [['a'], ['a', 'K']]) = .ok table ∧
      g.pattern [['a'], ['a', 'K']] = .ok (some ['(', '?', ':', 'a', '(', '?', ':', '\\', 'd', '+', ')', '?', ')']) ∧
      parse ['(', '?', ':', 'a', '(', '?', ':', '\\', 'd', '+', ')', '?', ')'] = .ok parsed ∧
      parsed.expr.language = table.language (g.settings.filter [['a'], ['a', 'K']]) := by
  have htakes : (withKey ['\\', 'd', '+']).EachRule fun rule => Takes (sourceLanguage rule.pattern) := by
    intro entry hentry rule heq
    rw [(eachRule_withKey _ entry hentry rule heq).1]
    exact takes_number
  obtain ⟨g, hg⟩ : ∃ g, Generator.ofOptions (withKey ['\\', 'd', '+']) = .ok g := ⟨_, rfl⟩
  have hpattern : g.pattern [['a'], ['a', 'K']] =
      .ok (some ['(', '?', ':', 'a', '(', '?', ':', '\\', 'd', '+', ')', '?', ')']) := by
    obtain rfl : Generator.mk .. = g := Except.ok.inj hg
    decide +kernel
  obtain ⟨table, htable, -, hlanguage, hparsed⟩ := language_eq_substituted
    (substitutes_withKey isRegular_number) hg (storable_of_all hg (by decide +kernel)) hpattern
  obtain ⟨parsed, hparsed⟩ := (hparsed htakes).1
  exact ⟨g, table, parsed, hg, htable, hpattern, hparsed, (hlanguage parsed hparsed).2⟩

def withHalves : Options :=
  { specials := [(.literal ['K'], { pattern := some ['a', '\x7b'] }), (.literal ['J'], { pattern := some ['2', '\x7d'] })] }

/-- After a letter the text of a repeat count does not stand for itself, be it one pattern or two; and what matches nothing
but the empty text cannot be made optional. -/
theorem language_substituted_fails :
    (∀ source ∈ [['\x7b', '2', '\x7d'], ['a', '\x7b'], ['2', '\x7d']],
      ∃ parsed, parse source = .ok parsed ∧ parsed.expr.HasLanguage) ∧
    (∃ parsed, parse ['(', '?', ':', 'a', '\x7b', '2', '\x7d', ')'] = .ok parsed ∧ ['a', 'a'] ∈ parsed.expr.language) ∧
    (∀ p ∈ [(withKey ['\x7b', '2', '\x7d'], ['a', 'K']), (withHalves, ['K', 'J'])],
      ∃ g table, Generator.ofOptions p.1 = .ok g ∧
        SymbolTable.ofWords g.settings (g.settings.filter [p.2]) = .ok table ∧
        g.pattern [p.2] = .ok (some ['(', '?', ':', 'a', '\x7b', '2', '\x7d', ')']) ∧
        ['a', 'a'] ∉ table.language (g.settings.filter [p.2])) ∧
    (withKey ['(', '?', ':', ')']).Substitutes ∧ ∃ g, Generator.ofOptions (withKey ['(', '?', ':', ')']) = .ok g ∧
      g.pattern [['a'], ['a', 'K']] = .ok (some ['(', '?', ':', 'a', '(', '?', ':', '(', '?', ':', ')', ')', '?', ')']) ∧
      parse ['(', '?', ':', 'a', '(', '?', ':', '(', '?', ':', ')', ')', '?', ')'] = .error .nothingToRepeat := by
  refine ⟨?_, ⟨_, rfl, mem_twice⟩, ?_, substitutes_withKey isRegular_emptyGroup, _, rfl, by decide +kernel, by decide +kernel⟩
  · simp only [List.forall_mem_cons, List.not_mem_nil, false_imp_iff, implies_true, and_true]
    exact ⟨⟨_, rfl, trivial, trivial, trivial, trivial⟩, ⟨_, rfl, trivial, trivial, trivial⟩, ⟨_, rfl, trivial, trivial, trivial⟩⟩
  · simp only [List.forall_mem_cons, List.not_mem_nil, false_imp_iff, implies_true, and_true]
    constructor
    · refine ⟨_, _, rfl, rfl, by decide +kernel, ?_⟩
      rintro ⟨w, hw, pieces, hpieces, hin⟩
      obtain rfl := List.mem_singleton.1 hw
      have hcut : pieces = [.literal ['a'], .special ⟨'l', ['K'], ⟨['\x7b', '2', '\x7d'], false, false, false, .pattern⟩⟩] :=
        Except.ok.inj (hpieces.symm.trans (by decide +kernel))
      rw [hcut] at hin
      exact notMem_counted hin
    · refine ⟨_, _, rfl, rfl, by decide +kernel, ?_⟩
      rintro ⟨w, hw, pieces, hpieces, hin⟩
      obtain rfl := List.mem_singleton.1 hw
      have hcut : pieces = [.special ⟨'l', ['K'], ⟨['a', '\x7b'], false, false, false, .pattern⟩⟩,
          .special ⟨'m', ['J'], ⟨['2', '\x7d'], false, false, false, .pattern⟩⟩] :=
        Except.ok.inj (hpieces.symm.trans (by decide +kernel))
      rw [hcut] at hin
      exact notMem_countedHalves hin

end Options

end WordPattern
