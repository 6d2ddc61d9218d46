import WordPattern.Proofs.Generation.Table
import WordPattern.Proofs.Matching.Within
import WordPattern.Proofs.Trees.Shape
import WordPattern.Vocabulary

/-! What the words of a pattern are made of: the characters of the given words, their lower case where case is ignored,
and placeholders. -/

namespace WordPattern

open Regex

/-! ### Pieces -/

/-- A literal piece of a word is not empty and has characters of the word; specials are those of the table. -/
def Piece.Of (table : SymbolTable) (w : Text) : Piece → Prop
  | .literal t => t ≠ [] ∧ ∀ c ∈ t, c ∈ w
  | .special s => s ∈ table.entries

section Pieces

variable {table : SymbolTable} {w : Text}

theorem of_literalPiece {t : Text} (h : ∀ c ∈ t, c ∈ w) : ∀ piece ∈ SymbolTable.literalPiece t, piece.Of table w := by
  intro piece hpiece
  unfold SymbolTable.literalPiece at hpiece
  split_ifs at hpiece with hempty
  · simp at hpiece
  · rw [List.mem_singleton.1 hpiece]
    exact ⟨by simpa using hempty, h⟩

theorem mem_of_claimant? {splitter : Regex} {m : Regex.Match} {i : Nat} {entries : List Symbol} {s : Symbol}
    (h : SymbolTable.claimant? splitter m i entries = some s) : s ∈ entries := by
  induction entries generalizing i with
  | nil => contradiction
  | cons e rest ih =>
    unfold SymbolTable.claimant? at h
    split_ifs at h
    · obtain rfl := Option.some.inj h
      exact List.mem_cons_self
    · exact List.mem_cons_of_mem _ (ih h)

theorem mem_of_mem_after {p : Cursor} {c : Char} (hp : p.text = w) (hc : c ∈ p.after) : c ∈ w := by
  rw [← hp]
  exact List.mem_append_right _ hc

theorem of_piecesFrom {splitter : Regex} {last : Cursor} {ms : List Regex.Match} {pieces : List Piece}
    (h : table.piecesFrom splitter last ms = .ok pieces) (hlast : last.text = w) (hms : ∀ m ∈ ms, m.stop.text = w) :
    ∀ piece ∈ pieces, piece.Of table w := by
  induction ms generalizing last pieces with
  | nil =>
    obtain rfl := Except.ok.inj h
    exact of_literalPiece fun c hc => mem_of_mem_after hlast hc
  | cons m rest ih =>
    have hrest := fun n hn => hms n (List.mem_cons_of_mem _ hn)
    unfold SymbolTable.piecesFrom at h
    split_ifs at h
    · exact ih h hlast hrest
    · split at h
      · contradiction
      · rename_i s hs
        obtain ⟨more, hmore, rfl⟩ := map_eq_ok h
        intro piece hpiece
        rcases List.mem_append.1 hpiece with hpiece | hpiece
        · exact of_literalPiece (fun c hc => mem_of_mem_after hlast (List.mem_of_mem_take hc)) piece hpiece
        · rcases List.mem_cons.1 hpiece with rfl | hpiece
          · exact mem_of_claimant? hs
          · exact ih hmore (hms m List.mem_cons_self) hrest piece hpiece

theorem of_cut {pieces : List Piece} (h : table.cut w = .ok pieces) : ∀ piece ∈ pieces, piece.Of table w := by
  unfold SymbolTable.cut at h
  split at h
  · obtain rfl := Except.ok.inj h
    exact of_literalPiece fun _ hc => hc
  · exact of_piecesFrom h rfl fun m hm => text_of_mem_matchesFrom hm

theorem after_of_piecesFrom {splitter : Regex} {last : Cursor} {ms : List Regex.Match}
    (h : table.piecesFrom splitter last ms = .ok []) : last.after = [] := by
  have hliteral : ∀ {t : Text}, SymbolTable.literalPiece t = [] → t = [] := by
    intro t ht
    unfold SymbolTable.literalPiece at ht
    split_ifs at ht with hempty
    exact List.isEmpty_iff.1 hempty
  induction ms generalizing last with
  | nil => exact hliteral (Except.ok.inj h)
  | cons m rest ih =>
    unfold SymbolTable.piecesFrom at h
    split_ifs at h
    · exact ih h
    · split at h
      · contradiction
      · obtain ⟨more, -, heq⟩ := map_eq_ok h
        simp at heq

/-- A word that is not empty has a piece. -/
theorem ne_nil_of_cut {pieces : List Piece} (h : table.cut w = .ok pieces) (hw : w ≠ []) : pieces ≠ [] := by
  rintro rfl
  unfold SymbolTable.cut at h
  split at h
  · rw [SymbolTable.literalPiece, if_neg (by simpa using hw)] at h
    exact absurd (Except.ok.inj h) (List.cons_ne_nil _ _)
  · exact hw (after_of_piecesFrom h)

end Pieces

/-! ### Lower case -/

/-- What a text becomes in lower case is no greater than the lower case of one of its characters. -/
theorem le_of_mem_lowerAfter {before t : Text} {d : Char} (h : d ∈ Unicode.lowerAfter before t) :
    ∃ c ∈ t, ∃ e ∈ Unicode.lowerChar c, d.toNat ≤ e.toNat := by
  induction t generalizing before with
  | nil => simp [Unicode.lowerAfter] at h
  | cons c t ih =>
    unfold Unicode.lowerAfter at h
    rcases List.mem_append.1 h with hd | hd
    · refine ⟨c, List.mem_cons_self, ?_⟩
      split_ifs at hd with hsigma
      · obtain rfl := List.mem_singleton.1 hd
        rw [hsigma]
        exact ⟨'σ', by decide, by decide⟩
      · obtain rfl := List.mem_singleton.1 hd
        rw [hsigma]
        exact ⟨'σ', by decide, le_refl _⟩
      · exact ⟨d, hd, le_refl _⟩
    · obtain ⟨c', hc', hle⟩ := ih hd
      exact ⟨c', List.mem_cons_of_mem _ hc', hle⟩

namespace Vocabulary

variable {settings : Settings} {table : SymbolTable} {words : List Text} {vocabulary : Vocabulary}

theorem mem_words (h : ofWords settings table words = .ok vocabulary) {x : Text} :
    x ∈ vocabulary.words ↔ x ≠ [] ∧ ∃ w ∈ words, ∃ pieces, table.cut w = .ok pieces ∧
      x = (settings.boundedWord table pieces).text := by
  obtain ⟨bounded, hbounded, h⟩ := bind_eq_ok h
  obtain rfl := Except.ok.inj h
  obtain ⟨hfrom, hto⟩ := mapM_eq_ok hbounded
  have htext : ∀ b, b ∈ bounded ↔ ∃ w ∈ words, ∃ pieces, table.cut w = .ok pieces ∧
      b = settings.boundedWord table pieces := by
    intro b
    constructor
    · intro hb
      obtain ⟨w, hw, hcut⟩ := hfrom b hb
      obtain ⟨pieces, hpieces, rfl⟩ := map_eq_ok hcut
      exact ⟨w, hw, pieces, hpieces, rfl⟩
    · rintro ⟨w, hw, pieces, hpieces, rfl⟩
      obtain ⟨b, hb, hcut⟩ := hto w hw
      rw [hpieces] at hcut
      obtain rfl := Except.ok.inj hcut
      exact hb
  simp only [mem_ascending, List.mem_filter, List.mem_map, htext, Bool.not_eq_true', List.isEmpty_eq_false_iff]
  constructor
  · rintro ⟨⟨_, ⟨w, hw, pieces, hpieces, rfl⟩, rfl⟩, hne⟩
    exact ⟨hne, w, hw, pieces, hpieces, rfl⟩
  · rintro ⟨hne, w, hw, pieces, hpieces, rfl⟩
    exact ⟨⟨_, ⟨w, hw, pieces, hpieces, rfl⟩, rfl⟩, hne⟩

/-- Every word can be cut. -/
theorem exists_cut (h : ofWords settings table words = .ok vocabulary) {w : Text} (hw : w ∈ words) :
    ∃ pieces, table.cut w = .ok pieces := by
  obtain ⟨bounded, hbounded, -⟩ := bind_eq_ok h
  obtain ⟨b, -, hb⟩ := (mapM_eq_ok hbounded).2 w hw
  obtain ⟨pieces, hpieces, -⟩ := map_eq_ok hb
  exact ⟨pieces, hpieces⟩

theorem pairwise_words (h : ofWords settings table words = .ok vocabulary) : vocabulary.words.Pairwise (· < ·) := by
  obtain ⟨bounded, -, h⟩ := bind_eq_ok h
  obtain rfl := Except.ok.inj h
  exact pairwise_ascending _

theorem listed_words (h : ofWords settings table words = .ok vocabulary) (hne : vocabulary.words ≠ []) :
    Listed vocabulary.words :=
  ⟨hne, pairwise_words h, fun _ hx => ((mem_words h).1 hx).1⟩

/-- A character of the body of a word is no placeholder, or it is that of a special. -/
theorem body_cases (ht : table.Holds settings words) {w : Text} (hw : w ∈ words) {pieces : List Piece}
    (hpieces : table.cut w = .ok pieces) {c : Char} (hc : c ∈ (settings.boundedWord table pieces).body) :
    table.lookup? c = none ∧ c.toNat ≤ SymbolTable.ceiling settings words ∨
      ∃ s ∈ table.entries, s.placeholder = c ∧ table.lookup? c = some s := by
  obtain ⟨piece, hpiece, hc⟩ := List.mem_flatMap.1 hc
  have hof := of_cut hpieces piece hpiece
  cases piece with
  | literal t =>
    left
    have hle : c.toNat ≤ SymbolTable.ceiling settings words := by
      unfold Settings.pieceText at hc
      simp only at hc
      split_ifs at hc
      · obtain ⟨d, hd, e, he, hle⟩ := le_of_mem_lowerAfter hc
        exact hle.trans (SymbolTable.le_ceiling hw (hof.2 d hd) (List.mem_cons_of_mem _ he))
      · exact SymbolTable.le_ceiling hw (hof.2 c hc) List.mem_cons_self
    exact ⟨ht.lookup?_eq_none hle, hle⟩
  | special s =>
    right
    have hs : s ∈ table.symbols := List.mem_append_left _ (List.mem_append_left _ hof)
    obtain rfl : c = s.placeholder := List.mem_singleton.1 hc
    exact ⟨s, hof, rfl, ht.lookup?_eq_some.2 ⟨hs, rfl⟩⟩

/-- Only the left boundary stands for one. -/
theorem left_of_isLeft (ht : table.Holds settings words) {c : Char} (hc : IsLeft table.meaning c) :
    ∃ s, table.left = some s ∧ s.placeholder = c := by
  obtain ⟨v, hv, hrole⟩ := hc
  obtain ⟨s, hs, rfl, rfl⟩ := ht.meaning_eq_some.1 hv
  rcases SymbolTable.mem_symbols.1 hs with hs | hs | hs
  · obtain ⟨rule, -, heq⟩ := ht.entry_verbatim hs
    rw [heq] at hrole
    contradiction
  · exact ⟨s, hs, rfl⟩
  · obtain ⟨pattern, -, heq⟩ := ht.right_verbatim hs
    rw [heq] at hrole
    simp only at hrole
    split_ifs at hrole

theorem placeholder_lt (ht : table.Holds settings words) {s t : Symbol} (hs : s ∈ table.entries ∨ table.left = some s)
    (hr : table.right = some t) : s.placeholder.toNat < t.placeholder.toNat := by
  have hrising := ht.rising
  rw [SymbolTable.symbols, List.pairwise_append] at hrising
  refine hrising.2.2 s ?_ t (by simp [hr])
  rw [List.mem_append]
  exact hs.imp id fun h => by simp [h]

/-- Boundaries do not stand inside words. -/
theorem placeholder_not_mem_body (ht : table.Holds settings words) {w : Text} (hw : w ∈ words) {pieces : List Piece}
    (hpieces : table.cut w = .ok pieces) {s : Symbol} (hs : table.left = some s ∨ table.right = some s) :
    s.placeholder ∉ (settings.boundedWord table pieces).body := by
  have hsym : s ∈ table.symbols := SymbolTable.mem_symbols.2 (.inr hs)
  have hrole : s.verbatim.role ≠ .pattern := by
    rcases hs with hs | hs
    · obtain ⟨pattern, -, hv⟩ := ht.left_verbatim hs
      rw [hv]
      simp
    · obtain ⟨pattern, -, hv⟩ := ht.right_verbatim hs
      rw [hv]
      simp only
      split_ifs <;> simp
  intro hmem
  rcases body_cases ht hw hpieces hmem with ⟨hnone, -⟩ | ⟨e, he, hp, -⟩
  · rw [ht.lookup?_eq_some.2 ⟨hsym, rfl⟩] at hnone
    contradiction
  · obtain rfl := ht.symbol_unique (SymbolTable.mem_symbols.2 (.inl he)) hsym hp
    obtain ⟨rule, -, hrule⟩ := ht.entry_verbatim he
    rw [hrule] at hrole
    exact hrole rfl

/-- A left boundary stands only at the start of a word. -/
theorem leading_words (ht : table.Holds settings words) (h : ofWords settings table words = .ok vocabulary) :
    Leading table.meaning true vocabulary.words := by
  intro x hx a c b heq hc
  obtain ⟨-, w, hw, pieces, hpieces, rfl⟩ := (mem_words h).1 hx
  obtain ⟨l, hl, rfl⟩ := left_of_isLeft ht hc
  have hbody := placeholder_not_mem_body ht hw hpieces (.inl hl)
  have hright : l.placeholder ∉ (settings.boundedWord table pieces).right.toList := by
    intro hmem
    unfold Settings.boundedWord at hmem
    simp only at hmem
    split_ifs at hmem
    · obtain ⟨r, hr, hp⟩ := Option.map_eq_some_iff.1 (Option.mem_toList.1 hmem)
      have := placeholder_lt ht (.inr hl) hr
      rw [hp] at this
      exact absurd this (Nat.lt_irrefl _)
    · simp at hmem
  refine ⟨?_, rfl⟩
  cases a with
  | nil => rfl
  | cons d a =>
    -- the boundary would stand beyond the first character
    exfalso
    rw [BoundedWord.text, List.append_assoc] at heq
    cases hleft : (settings.boundedWord table pieces).left with
    | none =>
      rw [hleft] at heq
      have : l.placeholder ∈ d :: a ++ l.placeholder :: b := by simp
      rw [← heq] at this
      simp [hbody, hright] at this
    | some e =>
      rw [hleft] at heq
      have htail : (settings.boundedWord table pieces).body ++ (settings.boundedWord table pieces).right.toList =
          a ++ l.placeholder :: b := (List.cons.inj heq).2
      have : l.placeholder ∈ a ++ l.placeholder :: b := by simp
      rw [← htail] at this
      simp [hbody, hright] at this

end Vocabulary

end WordPattern
