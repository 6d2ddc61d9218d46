import Mathlib.Data.Bool.AllAny
import WordPattern.Proofs.Generation.Vocabulary
import WordPattern.Proofs.Writing.Assembled
import WordPattern.Proofs.Writing.Whole

/-! The pattern of a list of words is read as what its tree stands for.

This takes boundaries that are written as one of the fixed assertions, and specials that can be read by themselves. -/

namespace WordPattern

open Regex

def leftAssertions : List Text := [['\\', 'b'], ['\\', 'A'], ['^']]

def rightAssertions : List Text := [['\\', 'b'], ['\\', 'z'], ['$']]

/-- The boundaries are written as fixed assertions. -/
def Settings.Fixed (settings : Settings) : Prop :=
  (∀ pattern, settings.boundary.bind (·.left) = some pattern → pattern ∈ leftAssertions) ∧
    ∀ pattern, settings.boundary.bind (·.right) = some pattern → pattern ∈ rightAssertions

/-- What a boundary asserts. -/
def Verbatim.anchor (multiline : Bool) (v : Verbatim) : Anchor :=
  if v.role = .finish then .textEnd
  else if v.pattern = ['\\', 'A'] then .textStart
  else if v.pattern = ['^'] then if multiline then .lineStart else .textStart
  else if v.pattern = ['$'] then if multiline then .lineEnd else .textEnd
  else .wordEdge

/-- What the parts of a tree stand for under some settings. -/
def Settings.sense (settings : Settings) (special : Bool → Verbatim → Reach) : Sense where
  folded := settings.ignoreCase
  holds v p := (v.anchor settings.multiline).holds p
  special := special

section Reading

variable {settings : Settings} {special : Bool → Verbatim → Reach} {table : SymbolTable} {words : List Text}
variable {strict : Prop} {A : Char → Prop}

/-- An assertion that is read as one token. -/
theorem readable_of_token {v : Verbatim} {t : Token} (hrole : v.role ≠ .pattern) (hatomic : v.atomic = true)
    (hne : v.pattern ≠ []) (hopens : Opens v.pattern) (hlex : Lexes v.pattern [t])
    (hstep : ∀ s : ParseState, s.flags = settings.innerFlags → s.step t = .ok (s.push (.anchor (v.anchor settings.multiline)))) :
    v.Readable (settings.sense special) strict settings.innerFlags := by
  refine ⟨fun _ => ⟨hatomic, hne, hopens, [t], hlex, ?_⟩, fun h => absurd h hrole⟩
  exact readsItem_of_step hstep ⟨⟨trivial, fun _ => trivial⟩, fun _ => rfl⟩

theorem readable_left {pattern : Text} (h : pattern ∈ leftAssertions) :
    Verbatim.Readable (settings.sense special) strict settings.innerFlags
      ⟨pattern, true, false, false, .leftBoundary⟩ := by
  simp only [leftAssertions, List.mem_cons, List.not_mem_nil, or_false] at h
  rcases h with rfl | rfl | rfl
  · exact readable_of_token (by simp) rfl (by simp) (opens_cons (by decide) _) lexes_wordEdge fun _ _ => rfl
  · exact readable_of_token (by simp) rfl (by simp) (opens_cons (by decide) _) lexes_textStart fun _ _ => rfl
  · refine readable_of_token (by simp) rfl (by simp) (opens_cons (by decide) _) lexes_caret fun s hs => ?_
    rw [ParseState.step, ParseState.anchorItem, hs]
    rfl

theorem readable_right {pattern : Text} (h : pattern ∈ rightAssertions) :
    Verbatim.Readable (settings.sense special) strict settings.innerFlags
      ⟨pattern, true, false, false, if pattern = ['\\', 'z'] then .finish else .rightBoundary⟩ := by
  simp only [rightAssertions, List.mem_cons, List.not_mem_nil, or_false] at h
  rcases h with rfl | rfl | rfl
  · exact readable_of_token (by simp) rfl (by simp) (opens_cons (by decide) _) lexes_wordEdge fun _ _ => rfl
  · exact readable_of_token (by simp) rfl (by simp) (opens_cons (by decide) _) lexes_textEnd fun _ _ => rfl
  · refine readable_of_token (by simp) rfl (by simp) (opens_cons (by decide) _) lexes_dollar fun s hs => ?_
    rw [ParseState.step, ParseState.anchorItem, hs]
    rfl

/-- Everything that a character can stand for can be read. -/
theorem readable_of_meaning (ht : table.Holds settings words) (hfixed : settings.Fixed)
    (hspecial : ∀ rule ∈ settings.rules, Verbatim.Readable (settings.sense special) strict settings.innerFlags
      ⟨rule.pattern, rule.atomic, rule.left, rule.right, .pattern⟩) {c : Char} {v : Verbatim}
    (hv : table.meaning c = some v) : v.Readable (settings.sense special) strict settings.innerFlags := by
  obtain ⟨s, hs, -, rfl⟩ := ht.meaning_eq_some.1 hv
  rcases SymbolTable.mem_symbols.1 hs with hs | hs | hs
  · obtain ⟨rule, hrule, heq⟩ := ht.entry_verbatim hs
    rw [heq]
    exact hspecial rule hrule
  · obtain ⟨pattern, hpattern, heq⟩ := ht.left_verbatim hs
    rw [heq]
    exact readable_left (hfixed.1 pattern hpattern)
  · obtain ⟨pattern, hpattern, heq⟩ := ht.right_verbatim hs
    rw [heq]
    exact readable_right (hfixed.2 pattern hpattern)

end Reading

/-! ### Spelling -/

section Spelling

variable {settings : Settings} {special : Bool → Verbatim → Reach} {A : Char → Prop}

theorem holds_finish {v : Verbatim} {p : Cursor} (hv : v.role = .finish) (hp : 0 < p.room .ahead) :
    (settings.sense special).holds v p = false := by
  simp only [Settings.sense, Verbatim.anchor, hv, if_true, Anchor.holds]
  exact List.isEmpty_eq_false_iff.2 (List.length_pos_iff.1 hp)

/-- Where case counts, all characters are different. -/
theorem lawful_of_case (h : settings.ignoreCase = false) : (settings.sense special).Lawful fun _ => True where
  apart {c c' d} _ _ hc hc' := by
    simp only [Sense.same, Settings.sense, h, sameChar, Bool.false_eq_true, if_false, decide_eq_true_eq] at hc hc'
    exact hc.trans hc'.symm
  finish := holds_finish

theorem spellsClasses_of_case :
    SpellsClasses (settings.sense special) (fun _ => True) settings.ignoreCase :=
  fun _ _ c hc => ⟨c, hc, trivial, fun _ hsame => hsame⟩

/-- Where case is ignored, characters are different if they fold to different ones. -/
theorem lawful_of_fold (h : settings.ignoreCase = true) (hA : ∀ c d, A c → A d → fold c = fold d → c = d) :
    (settings.sense special).Lawful A where
  apart {c c' d} hAc hAc' hc hc' := by
    simp only [Sense.same, Settings.sense, h, sameChar, if_true, decide_eq_true_eq] at hc hc'
    exact hA c c' hAc hAc' (hc.trans hc'.symm)
  finish := holds_finish

theorem spellsClasses_of_fold (h : settings.ignoreCase = true) :
    SpellsClasses (settings.sense special) A settings.ignoreCase := by
  intro cs hcs c hc
  rw [h] at hc ⊢
  obtain ⟨d, hd, hfold⟩ := CharClass.exists_fold_eq hc
  refine ⟨d, CharClass.mem_members_ofChars.2 (.inl hd), hcs d hd, fun e hsame => ?_⟩
  simp only [Sense.same, Settings.sense, h, sameChar, if_true, decide_eq_true_eq] at hsame ⊢
  rw [hfold, hsame]

end Spelling

/-! ### All stages -/

section Stages

variable {settings : Settings} {special : Bool → Verbatim → Reach} {words : List Text} {strict : Prop} {A : Char → Prop}

/-- What all stages have made of a list of words. -/
structure Generation.Made (generation : Generation) (settings : Settings) (words : List Text) : Prop where
  filtered : settings.filter words ≠ []
  table : SymbolTable.ofWords settings (settings.filter words) = .ok generation.table
  vocabulary : Vocabulary.ofWords settings generation.table (settings.filter words) = .ok generation.vocabulary
  root : generation.root = generation.table.tree settings generation.vocabulary.words
  pattern : generation.pattern = settings.wholePattern generation.root

theorem made_of_generate {generation : Generation} (h : settings.generate words = .ok (some generation)) :
    generation.Made settings words := by
  unfold Settings.generate at h
  simp only at h
  split_ifs at h with hempty
  · simp at h
  · obtain ⟨table, htable, h⟩ := bind_eq_ok h
    obtain ⟨vocabulary, hvocabulary, h⟩ := bind_eq_ok h
    obtain rfl := Option.some.inj (Except.ok.inj h)
    exact ⟨by simpa using hempty, htable, hvocabulary, rfl, rfl⟩

/-- The stages that lead to a pattern. -/
theorem generate_eq_ok {table : SymbolTable} {vocabulary : Vocabulary} (hne : settings.filter words ≠ [])
    (htable : SymbolTable.ofWords settings (settings.filter words) = .ok table)
    (hvocabulary : Vocabulary.ofWords settings table (settings.filter words) = .ok vocabulary) :
    settings.generate words = .ok (some ⟨table, vocabulary, table.tree settings vocabulary.words,
      settings.wholePattern (table.tree settings vocabulary.words)⟩) := by
  unfold Settings.generate
  simp only
  rw [if_neg (by simpa using hne), htable]
  change (Vocabulary.ofWords settings table (settings.filter words) >>= fun vocabulary => _) = _
  rw [hvocabulary]
  rfl

theorem optional_place_flatten (n : Node) (p : Position) : (n.flatten.place p).mark.optional = n.mark.optional := by
  cases n <;> rfl

/-- What the tree takes as it is comes from a rule or from the boundary. -/
theorem Generation.Made.mem_verbatims {generation : Generation} (h : generation.Made settings words) {v : Verbatim}
    (hv : v ∈ generation.root.verbatims) :
    (∃ rule ∈ settings.rules, v = ⟨rule.pattern, rule.atomic, rule.left, rule.right, .pattern⟩) ∨
      (∃ pattern, settings.boundary.bind (·.left) = some pattern ∧ v = ⟨pattern, true, false, false, .leftBoundary⟩) ∨
      ∃ pattern, settings.boundary.bind (·.right) = some pattern ∧
        v = ⟨pattern, true, false, false, if pattern = ['\\', 'z'] then .finish else .rightBoundary⟩ := by
  have ht := SymbolTable.holds_of_ofWords h.table
  rw [h.root] at hv
  obtain ⟨c, hc⟩ := Node.exists_symbol_of_mem_build (Vocabulary.listed_words h.vocabulary) hv
  obtain ⟨s, hs, -, rfl⟩ := ht.meaning_eq_some.1 hc
  rcases SymbolTable.mem_symbols.1 hs with hs | hs | hs
  · exact .inl (ht.entry_verbatim hs)
  · exact .inr (.inl (ht.left_verbatim hs))
  · exact .inr (.inr (ht.right_verbatim hs))

/-- The text of the tree is put together from what the rules and the boundary write, and from what they leave. -/
theorem Generation.Made.assembled {generation : Generation} (h : generation.Made settings words) {known : Text → Prop}
    (hrules : ∀ rule ∈ settings.rules, known rule.pattern)
    (hleft : ∀ pattern, settings.boundary.bind (·.left) = some pattern → known pattern)
    (hright : ∀ pattern, settings.boundary.bind (·.right) = some pattern → known pattern) (mode : Mode) :
    Assembled mode known (generation.root.pattern mode) := by
  apply Node.assembled_pattern
  intro v hv
  rcases h.mem_verbatims hv with ⟨rule, hrule, rfl⟩ | ⟨pattern, hpattern, rfl⟩ | ⟨pattern, hpattern, rfl⟩
  · exact hrules rule hrule
  · exact hleft pattern hpattern
  · exact hright pattern hpattern

/-- The text of the tree is read as what the words stand for. -/
theorem Generation.Made.source {generation : Generation} (h : generation.Made settings words)
    (hne : generation.vocabulary.words ≠ []) (hlen : ∀ x ∈ generation.vocabulary.words, x.length < boundLimit)
    (hfixed : settings.Fixed)
    (hspecial : ∀ rule ∈ settings.rules, Verbatim.Readable (settings.sense special) strict settings.innerFlags
      ⟨rule.pattern, rule.atomic, rule.left, rule.right, .pattern⟩)
    (mode : Mode) (hσ : mode = .possessive → (settings.sense special).Lawful A)
    (hclass : SpellsClasses (settings.sense special) A settings.ignoreCase)
    (hA : SpeltWith A generation.table.meaning generation.vocabulary.words) :
    SourceOf strict settings.innerFlags (generation.root.pattern mode)
      ((settings.sense special).reach
        (.ofWords generation.table.meaning settings.ignoreCase generation.vocabulary.words)) := by
  have ht := SymbolTable.holds_of_ofWords h.table
  have hlisted := Vocabulary.listed_words h.vocabulary hne
  have hroot : generation.root = (Node.ofWords generation.table.meaning settings.ignoreCase
      generation.vocabulary.words).flatten.place .root := h.root
  generalize htree : Node.ofWords generation.table.meaning settings.ignoreCase generation.vocabulary.words = tree at hroot
  have hfits : Fits (Verbatim.Readable (settings.sense special) strict settings.innerFlags)
      generation.vocabulary.words tree := by
    rw [← htree]
    exact fits_ofWords (fun c v hv => readable_of_meaning ht hfixed hspecial hv) hlisted hlen
  have hproper : (settings.sense special).Proper A true tree := by
    rw [← htree]
    exact proper_ofWords hclass hlisted (Vocabulary.leading_words ht h.vocabulary) hA
  have hmark : tree.mark = .plain := by
    rw [← htree]
    exact Node.mark_ofWords hlisted
  have hreach : (settings.sense special).reach generation.root = (settings.sense special).reach tree := by
    rw [hroot, Sense.reach_place, Sense.reach_flatten]
  rw [← hreach]
  refine (written_root hσ rfl ?_ ?_ (hroot ▸ hproper.flatten.place .root)).source
  · rw [hroot, optional_place_flatten, hmark]
    rfl
  · rw [hroot]
    exact Node.shapedRoot_place hfits.shaped

end Stages

end WordPattern
