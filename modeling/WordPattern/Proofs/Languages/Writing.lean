import Mathlib.Data.List.Chain
import WordPattern.Proofs.Languages.Specials
import WordPattern.Proofs.Writing.Abbreviation

/-! Writing for languages, with counts for repeats.

The fragments of a sequence are written for stretches of a list of languages. Equal blocks of fragments have the same
language, so a run of them can be written once with a count; that a block can be repeated at all follows if of two
neighbouring languages one takes something. -/

namespace WordPattern

open Regex

variable {strict solid : Prop} {φ : Flags} {t u : Text} {ts : List Token} {L M : Language Char} {closed : Bool}

def languageIf (yes : Bool) (L : Language Char) : Language Char := if yes then 1 + L else L

/-- A text is written for a language, and where the writing is strict it is accepted. -/
structure Spells (strict : Prop) (φ : Flags) (t : Text) (L : Language Char) (solid : Prop) : Prop where
  opens : Opens t
  denotes : ∃ ts, Lexes t ts ∧ DenotesMany strict φ ts L solid

/-- A text is written for a language, as one item. -/
structure SpellsOne (strict : Prop) (φ : Flags) (t : Text) (L : Language Char) (solid : Prop) : Prop where
  opens : Opens t
  denotes : ∃ ts, Lexes t ts ∧ DenotesOne strict φ ts L solid

structure SpellsChoice (strict : Prop) (φ : Flags) (t : Text) (L : Language Char) (solid : Prop) : Prop where
  opens : Opens t
  denotes : ∃ ts, Lexes t ts ∧ DenotesChoice strict φ ts L solid

theorem spells_nil : Spells strict φ [] 1 False := ⟨opens_nil, [], lexes_nil, denotesMany_nil⟩

theorem Spells.orTakes (h : Spells strict φ t L solid) : Spells strict φ t L (solid ∨ Takes L) := by
  obtain ⟨hopens, ts, hlex, hdenotes⟩ := h
  exact ⟨hopens, ts, hlex, hdenotes.orTakes⟩

theorem Spells.weaken {solid' : Prop} (h : Spells strict φ t L solid) (hs : solid' → solid) :
    Spells strict φ t L solid' := by
  obtain ⟨hopens, ts, hlex, hdenotes⟩ := h
  exact ⟨hopens, ts, hlex, hdenotes.weaken hs⟩

/-- What takes something is solid. -/
theorem Spells.takes (h : Spells strict φ t L solid) : Spells strict φ t L (Takes L) := h.orTakes.weaken .inr

theorem Spells.append {solid' : Prop} (h : Spells strict φ t L solid) (h' : Spells strict φ u M solid') :
    Spells strict φ (t ++ u) (L * M) (solid ∨ solid') := by
  obtain ⟨hopens, ts, hlex, hdenotes⟩ := h
  obtain ⟨hopens', us, hlex', hdenotes'⟩ := h'
  exact ⟨hopens.append hopens', ts ++ us, hlex.append hlex' hopens', hdenotes.append hdenotes'⟩

theorem SpellsOne.many (h : SpellsOne strict φ t L solid) : Spells strict φ t L solid := by
  obtain ⟨hopens, ts, hlex, hdenotes⟩ := h
  exact ⟨hopens, ts, hlex, hdenotes.many⟩

theorem Spells.choice (h : Spells strict φ t L solid) : SpellsChoice strict φ t L solid := by
  obtain ⟨hopens, ts, hlex, hdenotes⟩ := h
  exact ⟨hopens, ts, hlex, hdenotes.choice⟩

theorem SpellsChoice.bar {solid' : Prop} (h : SpellsChoice strict φ t L solid) (h' : SpellsChoice strict φ u M solid') :
    SpellsChoice strict φ (t ++ '|' :: u) (L + M) False := by
  obtain ⟨hopens, ts, hlex, hdenotes⟩ := h
  obtain ⟨hopens', us, hlex', hdenotes'⟩ := h'
  refine ⟨hopens.append (opens_cons (by decide) u), ts ++ .bar :: us, ?_, hdenotes.bar hdenotes'⟩
  exact hlex.append (lexes_bar.append hlex' hopens') (opens_cons (by decide) u)

theorem groupOpening_eq_plain {mode : Mode} (h : mode = .backtracking ∨ closed = false) :
    groupOpening mode closed = .plain {} := by
  rcases h with rfl | rfl <;> exact if_neg (by simp)

theorem groupOpening_backtracking (closed : Bool) : groupOpening .backtracking closed = .plain {} :=
  groupOpening_eq_plain (.inl rfl)

/-- A group where choices are left open. -/
theorem SpellsChoice.group (h : SpellsChoice strict φ t L solid) (closed : Bool) :
    SpellsOne strict φ (Mode.group .backtracking closed t) L (solid ∨ Takes L) := by
  obtain ⟨hopens, ts, hlex, hdenotes⟩ := h
  have hgroup := lexes_group hlex hopens .backtracking closed
  rw [groupOpening_backtracking] at hgroup
  exact ⟨opens_group .backtracking closed t, _, hgroup, hdenotes.plainGroup⟩

theorem SpellsOne.question {solid' : Prop} (h : SpellsOne strict φ t L solid) (hs : strict → solid) :
    Spells strict φ (t ++ ['?']) (1 + L) solid' := by
  obtain ⟨hopens, ts, hlex, hdenotes⟩ := h
  have hmark : Opens ['?'] := opens_cons (by decide) _
  exact ⟨hopens.append hmark, _, hlex.append lexes_question hmark, hdenotes.question hs⟩

/-- A character is one item. -/
theorem spellsOne_char (hφ : φ.ignoreCase = false) (c : Char) : SpellsOne strict φ (quoteChar c) {[c]} solid := by
  have hlanguage : (Expr.char c φ.ignoreCase).language = {[c]} := by
    ext t
    rw [hφ, Expr.language, mem_oneOf]
    simp only [sameChar, Bool.false_eq_true, if_false, decide_eq_true_eq, exists_eq_left']
    exact Iff.rfl
  refine ⟨opens_quoteChar c, [.char c], lexes_quoteChar c, ?_⟩
  rw [← hlanguage]
  exact denotesOne_of_step (fun s hs => by rw [ParseState.step, hs]) trivial rfl

/-! ### Stretches -/

/-- Texts are written for stretches of languages; a stretch is solid if one of its languages takes something. -/
inductive Pieces (strict : Prop) (φ : Flags) : List Text → List (Language Char) → Prop
  | nil : Pieces strict φ [] []
  | cons {t : Text} {ts : List Text} {Ls rest : List (Language Char)} :
    Ls ≠ [] → Spells strict φ t Ls.prod (∃ L ∈ Ls, Takes L) → Pieces strict φ ts rest →
    Pieces strict φ (t :: ts) (Ls ++ rest)

namespace Pieces

variable {fs gs : List Text} {Ls Ms : List (Language Char)}

/-- A text that is written for one language. -/
theorem cons_one (h : Spells strict φ t L (Takes L)) (hrest : Pieces strict φ fs Ls) :
    Pieces strict φ (t :: fs) (L :: Ls) := by
  have hone : Spells strict φ t [L].prod (∃ M ∈ [L], Takes M) := by
    rw [List.prod_singleton]
    exact h.weaken (by simp)
  exact .cons (List.cons_ne_nil L []) hone hrest

theorem append (h : Pieces strict φ fs Ls) (h' : Pieces strict φ gs Ms) : Pieces strict φ (fs ++ gs) (Ls ++ Ms) := by
  induction h with
  | nil => exact h'
  | cons hne hspells _ ih =>
    rw [List.cons_append, List.append_assoc]
    exact .cons hne hspells ih

theorem split (h : Pieces strict φ (fs ++ gs) Ls) :
    ∃ Ls₁ Ls₂, Ls = Ls₁ ++ Ls₂ ∧ Pieces strict φ fs Ls₁ ∧ Pieces strict φ gs Ls₂ := by
  induction fs generalizing Ls with
  | nil => exact ⟨[], Ls, rfl, .nil, h⟩
  | cons f fs ih =>
    cases h with
    | @cons _ _ Ls rest hne hspells hrest =>
      obtain ⟨Ls₁, Ls₂, rfl, h₁, h₂⟩ := ih hrest
      exact ⟨Ls ++ Ls₁, Ls₂, (List.append_assoc ..).symm, .cons hne hspells h₁, h₂⟩

theorem languages_ne_nil (h : Pieces strict φ fs Ls) (hne : fs ≠ []) : Ls ≠ [] := by
  cases h with
  | nil => contradiction
  | cons hLs _ _ => simp [hLs]

/-- All texts together are written for all languages. -/
theorem spells (h : Pieces strict φ fs Ls) : Spells strict φ fs.flatten Ls.prod (∃ L ∈ Ls, Takes L) := by
  induction h with
  | nil => exact spells_nil.weaken (by simp)
  | cons hne hspells _ ih =>
    rw [List.flatten_cons, List.prod_append]
    refine (hspells.append ih).weaken ?_
    rintro ⟨L, hL, htakes⟩
    exact (List.mem_append.1 hL).imp (⟨L, ·, htakes⟩) (⟨L, ·, htakes⟩)

end Pieces

/-! ### Blocks with a count -/

section Quantified

variable {block : List Text} {Ls : List (Language Char)} {n : Nat} {mode : Mode}

/-- Every copy of a block has the language that its text is read as. -/
theorem prod_eq_pow (hlex : Lexes block.flatten ts) (hdenotes : DenotesMany strict φ ts L solid)
    (hts : ¬ Refused strict φ ts) (h : Pieces strict φ (List.replicate n block).flatten Ls) : Ls.prod = L ^ n := by
  induction n generalizing Ls with
  | zero =>
    cases h
    exact (pow_zero L).symm
  | succ n ih =>
    rw [List.replicate_succ, List.flatten_cons] at h
    obtain ⟨Ls₁, Ls₂, rfl, h₁, h₂⟩ := h.split
    obtain ⟨-, us, hlex', hdenotes'⟩ := h₁.spells
    obtain rfl := hlex.unique hlex'
    rw [List.prod_append, ih h₂, ← hdenotes.unique hdenotes' hts, pow_succ']

def TakesByTurns (Ls : List (Language Char)) : Prop := Ls.IsChain fun L M => Takes L ∨ Takes M

theorem turns_of_forall {Ls : List (Language Char)} (h : ∀ L ∈ Ls, Takes L) : TakesByTurns Ls :=
  List.isChain_iff_getElem.2 fun _ _ => .inl (h _ (List.getElem_mem _))

theorem TakesByTurns.left {Ms : List (Language Char)} (h : TakesByTurns (Ls ++ Ms)) : TakesByTurns Ls :=
  h.left_of_append

theorem TakesByTurns.right {Ms : List (Language Char)} (h : TakesByTurns (Ls ++ Ms)) : TakesByTurns Ms :=
  h.right_of_append

/-- At the border of two stretches one of them takes something. -/
theorem TakesByTurns.border {Ms : List (Language Char)} (h : TakesByTurns (Ls ++ Ms)) (hL : Ls ≠ []) (hM : Ms ≠ []) :
    (∃ L ∈ Ls, Takes L) ∨ ∃ M ∈ Ms, Takes M := by
  have hborder := (List.isChain_append.1 h).2.2 _ (List.getLast?_eq_getLast_of_ne_nil hL) _ (List.head?_eq_some_head hM)
  exact hborder.imp (⟨_, List.getLast_mem hL, ·⟩) (⟨_, List.head_mem hM, ·⟩)

/-- Of two equal blocks one is solid. -/
theorem exists_solid (hne : block ≠ []) (h : Pieces strict φ (block ++ block) Ls) (hturns : strict → TakesByTurns Ls) :
    ∃ L, Spells strict φ block.flatten L strict := by
  obtain ⟨Ls₁, Ls₂, rfl, h₁, h₂⟩ := h.split
  by_cases hstrict : strict
  · rcases (hturns hstrict).border (h₁.languages_ne_nil hne) (h₂.languages_ne_nil hne) with htakes | htakes
    · exact ⟨_, h₁.spells.weaken fun _ => htakes⟩
    · exact ⟨_, h₂.spells.weaken fun _ => htakes⟩
  · exact ⟨_, h₁.spells.weaken fun h => absurd h hstrict⟩

/-- What can be repeated can be given a count, where groups leave choices open. -/
theorem spells_count (hopen : groupOpening mode closed = .plain {}) (h : Spells strict φ block.flatten L strict)
    (hlimit : n < boundLimit) : Spells strict φ (quantified mode closed block n) (L ^ n) solid := by
  obtain ⟨hopens, ts, hlex, hdenotes⟩ := h
  refine ⟨opens_quantified hopens hlimit closed, ?_⟩
  rw [quantified_eq]
  split_ifs with hatomic
  · obtain ⟨t, rfl⟩ := tokens_of_isAtomicText hatomic hlex.tokens_eq
    exact ⟨_, hlex.append (lexes_count hlimit) (opens_count hlimit), hdenotes.one_of_token.count id _ _⟩
  · have hgroup := lexes_group hlex hopens mode closed
    rw [hopen] at hgroup
    exact ⟨_, hgroup.append (lexes_count hlimit) (opens_count hlimit), hdenotes.choice.plainGroup.count .inl _ _⟩

/-- A run of equal blocks is written once with a count. -/
theorem spells_quantified (hopen : groupOpening mode closed = .plain {}) (hne : block ≠ []) (hn : 2 ≤ n)
    (hlimit : n < boundLimit) (h : Pieces strict φ (List.replicate n block).flatten Ls)
    (hturns : strict → TakesByTurns Ls) :
    Spells strict φ (quantified mode closed block n) Ls.prod (∃ L ∈ Ls, Takes L) := by
  obtain ⟨k, rfl⟩ := Nat.exists_eq_add_of_le' hn
  have hrun : (List.replicate (k + 2) block).flatten = (block ++ block) ++ (List.replicate k block).flatten := by
    rw [List.replicate_succ, List.replicate_succ, List.flatten_cons, List.flatten_cons, List.append_assoc]
  have hfirst := h
  rw [hrun] at hfirst
  obtain ⟨Ls₁, Ls₂, rfl, h₁, -⟩ := hfirst.split
  obtain ⟨L, hspells⟩ := exists_solid hne h₁ fun hstrict => (hturns hstrict).left
  have ⟨hopens, ts, hlex, hdenotes⟩ := hspells
  by_cases hts : Refused strict φ ts
  · obtain ⟨us, hlex', hus⟩ := refused_quantified mode closed hlex hopens hts hlimit
    exact ⟨opens_quantified hopens hlimit closed, us, hlex', hus.many⟩
  · rw [prod_eq_pow hlex hdenotes hts h]
    exact spells_count hopen hspells hlimit

end Quantified

/-! ### Rounds of abbreviation -/

theorem pieces_abbreviated {mode : Mode} (hopen : groupOpening mode closed = .plain {}) {fragments : List Text}
    {Ls : List (Language Char)} (h : Pieces strict φ fragments Ls) (hturns : strict → TakesByTurns Ls)
    (hlen : fragments.length < boundLimit) : Pieces strict φ (abbreviated mode closed fragments) Ls := by
  refine abbreviated_induction (P := (Pieces strict φ · Ls)) h fun before block n after hblock hn hle hpieces => ?_
  obtain ⟨Ls₁, Ls₂, rfl, h₁, h₂⟩ := hpieces.split
  obtain ⟨Ls₂, Ls₃, rfl, h₂, h₃⟩ := h₂.split
  have hrun : (List.replicate n block).flatten ≠ [] := by
    simpa [Nat.pos_iff_ne_zero.1 (Nat.lt_of_lt_of_le Nat.zero_lt_two hn)] using hblock
  refine h₁.append (.cons (h₂.languages_ne_nil hrun) ?_ h₃)
  exact spells_quantified hopen hblock hn (by omega) h₂ fun hstrict => (hturns hstrict).right.left

/-- A sequence written with counts is written for the product. -/
theorem spells_abbreviate {mode : Mode} (hopen : groupOpening mode closed = .plain {}) {fragments : List Text}
    {Ls : List (Language Char)} (h : Pieces strict φ fragments Ls) (hturns : strict → TakesByTurns Ls)
    (hlen : fragments.length < boundLimit) :
    Spells strict φ (abbreviate mode closed fragments) Ls.prod (∃ L ∈ Ls, Takes L) :=
  (pieces_abbreviated hopen h hturns hlen).spells

end WordPattern
