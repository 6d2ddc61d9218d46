import WordPattern.Proofs.Generation.Occurrence

/-! Lists without specials, where case is ignored.

Different words may match the same text then, so the tree says no more than where some word matches. The words of the
vocabulary are the lower case of given words. -/

namespace WordPattern

open Regex

/-! ### Trees -/

section Trees

variable {σ : Sense} {symbol : Char → Option Verbatim} {words ps ss : List Text} {n m : Node}

theorem mem_text_fold (hfolded : σ.folded = true) {w : Text} {p q : Cursor} : q ∈ σ.text w p ↔
    ∃ u, u.map fold = w.map fold ∧ p.after = u ++ q.after ∧ q.before = u.reverse ++ p.before := by
  induction w generalizing p with
  | nil =>
    rw [Sense.text, List.mem_singleton]
    constructor
    · rintro rfl
      exact ⟨[], rfl, rfl, rfl⟩
    · rintro ⟨u, hu, hafter, hbefore⟩
      obtain rfl := List.map_eq_nil_iff.1 hu
      cases p
      cases q
      simp_all
  | cons c w ih =>
    rw [Sense.text, Reach.andThen, List.mem_flatMap]
    constructor
    · rintro ⟨r, hr, hq⟩
      obtain ⟨d, hstep, hsame⟩ := Sense.mem_char.1 hr
      obtain ⟨u, hu, hafter, hbefore⟩ := ih.1 hq
      have hcd : fold c = fold d := by simpa [Sense.same, sameChar, hfolded] using hsame
      simp only [Cursor.step?] at hstep
      split at hstep
      · contradiction
      · rename_i d' rest hp
        obtain ⟨rfl, rfl⟩ := Prod.mk.inj (Option.some.inj hstep)
        exact ⟨d' :: u, by rw [List.map_cons, hu, ← hcd, List.map_cons], hp.trans (congrArg (List.cons d') hafter),
          by rw [hbefore]; simp⟩
    · rintro ⟨u, hu, hafter, hbefore⟩
      cases u with
      | nil => simp at hu
      | cons d u =>
        obtain ⟨hdc, hu⟩ := List.cons.inj hu
        refine ⟨⟨d :: p.before, u ++ q.after⟩, Sense.mem_char.2 ⟨d, ?_, ?_⟩, ih.2 ⟨u, hu, rfl, by simpa using hbefore⟩⟩
        · rw [Cursor.step?, hafter]
          rfl
        · simp [Sense.same, sameChar, hfolded, hdc]

/-- A class of characters matches what one of them matches, with the upper case that it has been given. -/
theorem classTest_ofChars_fold (hfolded : σ.folded = true) (chars : List Char) (d : Char) :
    σ.classTest (.ofChars chars true) d = true ↔ ∃ c ∈ chars, σ.same c d := by
  have hsame : ∀ c, σ.same c d ↔ fold c = fold d := fun c => by simp [Sense.same, sameChar, hfolded]
  have hmembers : σ.classTest (.ofChars chars true) d = true ↔
      ∃ c ∈ (CharClass.ofChars chars true).members, σ.same c d := by
    refine ⟨Sense.exists_same_of_classTest, ?_⟩
    rintro ⟨c, hc, hcd⟩
    unfold Sense.classTest
    split
    · rename_i c' hc'
      rw [hc', List.mem_singleton] at hc
      rwa [hc] at hcd
    · rw [hfolded]
      exact contains_classItems.2 ⟨c, hc, mem_foldClass.2 ((hsame c).1 hcd)⟩
  rw [hmembers]
  constructor
  · rintro ⟨c, hc, hcd⟩
    obtain ⟨e, he, hfold⟩ := CharClass.exists_fold_eq hc
    exact ⟨e, he, (hsame e).2 (hfold.trans ((hsame c).1 hcd))⟩
  · rintro ⟨c, hc, hcd⟩
    exact ⟨c, CharClass.mem_members_ofChars.2 (.inl hc), hcd⟩

def Sense.Reaches (σ : Sense) (symbol : Char → Option Verbatim) (words : List Text) (n : Node) : Prop :=
  ∀ p r, r ∈ σ.reach n p ↔ ∃ w ∈ words, r ∈ σ.word symbol w p

theorem reaches_product (hn : σ.Reaches symbol ps n) (hm : σ.Reaches symbol ss m)
    (hproduct : Factoring.IsProduct words ps ss) : σ.Reaches symbol words (.ofSequence [n, m]) := by
  intro p r
  rw [Sense.reach_ofSequence, Sense.items, Sense.items_singleton, Reach.andThen, List.mem_flatMap]
  simp only [hn p, hm _ r, hproduct.mem]
  constructor
  · rintro ⟨q, ⟨v, hv, hq⟩, w, hw, hr⟩
    exact ⟨v ++ w, ⟨v, hv, w, hw, rfl⟩, by rw [Sense.word_append]; exact List.mem_flatMap.2 ⟨q, hq, hr⟩⟩
  · rintro ⟨_, ⟨v, hv, w, hw, rfl⟩, hr⟩
    rw [Sense.word_append] at hr
    obtain ⟨q, hq, hr⟩ := List.mem_flatMap.1 hr
    exact ⟨q, ⟨v, hv, hq⟩, w, hw, hr⟩

/-- The empty word may be left out. -/
theorem reaches_optionalIf (hσ : σ.Uniform) (hmark : n.mark = .plain) (h : σ.Reaches symbol (nonemptyWords words) n) :
    σ.Reaches symbol words (n.optionalIf (words.any (·.isEmpty))) := by
  have hnil : ∀ p r, r ∈ σ.word symbol [] p ↔ r = p := fun p r => List.mem_singleton
  intro p r
  rw [Sense.reach_optionalIf hσ (by rw [hmark]; rfl), Reach.mem_optionalIf, h p r]
  simp only [mem_nonemptyWords, List.any_eq_true, List.isEmpty_iff, exists_eq_right]
  constructor
  · rintro (⟨w, ⟨hw, -⟩, hr⟩ | ⟨hin, rfl⟩)
    · exact ⟨w, hw, hr⟩
    · exact ⟨[], hin, (hnil _ _).2 rfl⟩
  · rintro ⟨w, hw, hr⟩
    by_cases hempty : w = []
    · subst hempty
      exact .inr ⟨hw, (hnil p r).1 hr⟩
    · exact .inl ⟨w, ⟨hw, hempty⟩, hr⟩

/-- The tree of a list of words matches where one of the words does, with or without folding. -/
theorem reaches_ofWords (hσ : σ.Uniform) (h : Listed words) :
    σ.Reaches symbol words (.ofWords symbol σ.folded words) := by
  have hmatches : ∀ (chars : List Char) (d : Char),
      σ.classTest (.ofChars chars σ.folded) d = true ↔ ∃ c ∈ chars, σ.same c d := by
    intro chars d
    cases hfolded : σ.folded with
    | true => exact classTest_ofChars_fold hfolded chars d
    | false =>
      rw [classTest_ofChars hfolded]
      simp [Sense.same, sameChar, hfolded]
  refine Node.ofWords_induction (P := fun words n => σ.Reaches symbol words n) ?_ ?_ ?_ ?_ words h
  · intro w _ p r
    rw [Sense.reach_ofSequence]
    simp [Sense.word]
  · intro words parts rests k _ hproduct _ _ _ hrests hn hm
    exact reaches_product hn (reaches_optionalIf hσ (Node.mark_ofWords hrests) hm) hproduct
  · intro words rests parts k _ hproduct _ _ _ hrests hn hm
    exact reaches_product (reaches_optionalIf hσ (Node.mark_ofWords hrests) hn) hm hproduct
  · intro words lone others _ hbranching hothers p r
    have hclass : r ∈ σ.branches (Node.classOf σ.folded lone) p ↔ ∃ c ∈ lone, r ∈ σ.word symbol [c] p := by
      have hword : ∀ c ∈ lone, (r ∈ σ.word symbol [c] p ↔ ∃ d, p.step? .ahead = some (d, r) ∧ σ.same c d) :=
        fun c hc => by rw [Sense.word_literal (hbranching.literal c hc), Sense.mem_char]
      unfold Node.classOf
      split_ifs with hlone
      · simp [hlone, Sense.branches]
      · rw [Sense.branches_singleton]
        change r ∈ p.past .ahead _ ↔ _
        simp only [Cursor.mem_past, hmatches]
        constructor
        · rintro ⟨d, hd, c, hc, hsame⟩
          exact ⟨c, hc, (hword c hc).2 ⟨d, hd, hsame⟩⟩
        · rintro ⟨c, hc, hr⟩
          obtain ⟨d, hd, hsame⟩ := (hword c hc).1 hr
          exact ⟨d, hd, c, hc, hsame⟩
    rw [Sense.reach_ofBranches, Sense.branches_append, Reach.orElse, List.mem_append, hclass, Sense.mem_branches]
    simp only [List.mem_map, exists_exists_and_eq_and, hbranching.mem]
    constructor
    · rintro (⟨c, hc, hr⟩ | ⟨g, hg, hr⟩)
      · exact ⟨[c], .inl ⟨c, hc, rfl⟩, hr⟩
      · obtain ⟨w, hw, hr⟩ := ((hothers g hg).2 p r).1 hr
        exact ⟨w, .inr ⟨g, hg, hw⟩, hr⟩
    · rintro ⟨w, ⟨c, hc, rfl⟩ | ⟨g, hg, hw⟩, hr⟩
      · exact .inl ⟨c, hc, hr⟩
      · exact .inr ⟨g, hg, ((hothers g hg).2 p r).2 ⟨w, hw, hr⟩⟩

end Trees

/-- The compiled pattern matches where one of the words of the vocabulary does. -/
theorem Generation.Made.isSome_matchAt? {settings : Settings} {special : Bool → Verbatim → Reach} {words : List Text}
    {generation : Generation} (h : generation.Made settings words) (hσ : (settings.sense special).Uniform)
    (hname : ∀ name, settings.name = some name → isGroupName name = true) (hfixed : settings.Fixed)
    (hne : generation.vocabulary.words ≠ []) (hlen : ∀ x ∈ generation.vocabulary.words, x.length < boundLimit)
    (hspecial : ∀ rule ∈ settings.rules, Verbatim.Readable (settings.sense special) True settings.innerFlags
      ⟨rule.pattern, rule.atomic, rule.left, rule.right, .pattern⟩)
    (hlawful : settings.mode = .possessive → (settings.sense special).Lawful fun _ => True) :
    (∀ r, compile generation.pattern = .ok r → ∀ p, (matchAt? r.plan p).isSome = true ↔
      ∃ x ∈ generation.vocabulary.words, ∃ q, q ∈ (settings.sense special).word generation.table.meaning x p) ∧
      ∀ x, compile generation.pattern = .error x → x = .tooDeep ∨ x = .tooLarge := by
  have hsource := h.source hne hlen hfixed hspecial settings.mode hlawful
    (fun _ _ c hc => ⟨c, hc, trivial, fun _ hsame => hsame⟩) fun _ _ _ _ _ => trivial
  have hcompile := compile_wholePattern hname hsource
  rw [← h.pattern] at hcompile
  refine ⟨fun r hr p => ?_, hcompile.2 trivial⟩
  have hspan := congrArg Option.isSome (hcompile.1 r hr p)
  rw [Option.isSome_map, Option.isSome_map] at hspan
  have hreach : ∀ q, _ ↔ ∃ x ∈ generation.vocabulary.words, q ∈ (settings.sense special).word generation.table.meaning x p :=
    reaches_ofWords hσ (Vocabulary.listed_words h.vocabulary hne) p
  rw [hspan, List.isSome_head?]
  constructor
  · intro hsome
    obtain ⟨q, hq⟩ := List.exists_mem_of_ne_nil _ hsome
    obtain ⟨x, hx, hq⟩ := (hreach q).1 hq
    exact ⟨x, hx, q, hq⟩
  · rintro ⟨x, hx, q, hq⟩
    exact List.ne_nil_of_mem ((hreach q).2 ⟨x, hx, hq⟩)

/-! ### Lower case -/

section Lower

theorem lowercaseMap_isAbove : (Unicode.lowercaseMap.all fun e =>
    Nat.blt 10 e.2 && Unicode.isCharRange e.2 (e.2 + (e.1.last - e.1.first))) = true := by decide

/-- A character gives some characters, no more than it has bytes, and no line feed but itself. -/
def LowersTo (c : Char) (cs : Text) : Prop := cs ≠ [] ∧ cs.length ≤ c.utf8Size ∧ ('\n' ∈ cs → c = '\n')

theorem lowersTo_singleton {c d : Char} (h : d = '\n' → c = '\n') : LowersTo c [d] :=
  ⟨List.cons_ne_nil d [], c.utf8Size_pos, fun hd => h (List.mem_singleton.1 hd).symm⟩

theorem lowersTo_lowerChar (c : Char) : LowersTo c (Unicode.lowerChar c) := by
  unfold Unicode.lowerChar
  split_ifs with hdot
  · rw [hdot]
    exact ⟨by simp, by decide, by decide⟩
  · cases hget : Unicode.lowercaseMap.get? c.toNat with
    | none => exact lowersTo_singleton id
    | some k =>
      refine lowersTo_singleton fun hk => absurd (congrArg Char.toNat hk) ?_
      obtain ⟨s, target, hmem, hs, rfl⟩ := Unicode.CodeMap.exists_mem_of_get? hget
      have habove := List.all_eq_true.1 lowercaseMap_isAbove _ hmem
      simp only [Bool.and_eq_true, Nat.blt_eq] at habove
      have hhigh := (Unicode.Stride.le_of_contains hs).2
      rw [Unicode.toNat_ofNat (Unicode.isValidChar_of_isCharRange habove.2 (Nat.le_add_right _ _) (by omega))]
      exact Nat.ne_of_gt (Nat.lt_add_right _ habove.1)

theorem lowerAfter_cons (before : Text) (c : Char) (t : Text) :
    ∃ cs, Unicode.lowerAfter before (c :: t) = cs ++ Unicode.lowerAfter (c :: before) t ∧ LowersTo c cs := by
  refine ⟨_, rfl, ?_⟩
  split_ifs with hsigma
  · exact lowersTo_singleton fun h => by simp at h
  · exact lowersTo_singleton fun h => by simp at h
  · exact lowersTo_lowerChar c

theorem lowerAfter_ne_nil {before t : Text} (h : t ≠ []) : Unicode.lowerAfter before t ≠ [] := by
  cases t with
  | nil => contradiction
  | cons c t =>
    obtain ⟨cs, heq, hne, -⟩ := lowerAfter_cons before c t
    simp [heq, hne]

theorem length_lowerAfter_le (before t : Text) : (Unicode.lowerAfter before t).length ≤ t.byteCount := by
  induction t generalizing before with
  | nil => exact Nat.le_refl 0
  | cons c t ih =>
    obtain ⟨cs, heq, -, hlength, -⟩ := lowerAfter_cons before c t
    rw [heq, List.length_append, Text.byteCount]
    exact Nat.add_le_add hlength (ih _)

theorem head?_lowerAfter (before : Text) {t : Text} (h : t.head? ≠ some '\n') :
    (Unicode.lowerAfter before t).head? ≠ some '\n' := by
  cases t with
  | nil => exact h
  | cons c t =>
    obtain ⟨cs, heq, hne, -, hfeed⟩ := lowerAfter_cons before c t
    rw [heq, List.head?_append_of_ne_nil _ hne]
    exact fun hd => h (congrArg some (hfeed (List.mem_of_mem_head? hd)))

theorem getLast?_lowerAfter (before : Text) {t : Text} (h : t.getLast? ≠ some '\n') :
    (Unicode.lowerAfter before t).getLast? ≠ some '\n' := by
  induction t generalizing before with
  | nil => exact h
  | cons c t ih =>
    obtain ⟨cs, heq, hne, -, hfeed⟩ := lowerAfter_cons before c t
    rw [heq]
    by_cases ht : t = []
    · subst ht
      rw [Unicode.lowerAfter, List.append_nil]
      exact fun hd => h (congrArg some (hfeed (List.mem_of_mem_getLast? hd)))
    · rw [List.getLast?_append_of_ne_nil _ (lowerAfter_ne_nil ht)]
      refine ih _ ?_
      rwa [← List.singleton_append, List.getLast?_append_of_ne_nil _ ht] at h

end Lower

/-! ### Bodies -/

section Bodies

variable {settings : Settings} {table : SymbolTable} {w : Text} {pieces : List Piece}

theorem pieceText_ne_nil (settings : Settings) {piece : Piece} (h : piece.Of table w) : settings.pieceText piece ≠ [] := by
  cases piece with
  | special s => exact List.cons_ne_nil _ _
  | literal t =>
    unfold Settings.pieceText
    simp only
    split_ifs
    · exact lowerAfter_ne_nil h.1
    · exact h.1

theorem body_ne_nil (settings : Settings) (hpieces : table.cut w = .ok pieces) (hw : w ≠ []) :
    (settings.boundedWord table pieces).body ≠ [] := by
  obtain ⟨piece, hpiece⟩ := List.exists_mem_of_ne_nil _ (ne_nil_of_cut hpieces hw)
  obtain ⟨c, hc⟩ := List.exists_mem_of_ne_nil _ (pieceText_ne_nil settings (of_cut hpieces piece hpiece))
  exact List.ne_nil_of_mem (List.mem_flatMap.2 ⟨piece, hpiece, hc⟩)

end Bodies

/-! ### Vocabulary -/

section Vocabulary

/-- Case is ignored, there are no specials, and whole texts are bound. -/
structure Settings.IsFolded (settings : Settings) : Prop where
  rules : settings.rules = []
  ignoreCase : settings.ignoreCase = true
  mode : settings.mode = .backtracking
  boundary : settings.boundary = some (.fixed .anyChar ['\\', 'A'] ['\\', 'z'] .both)
  normalizeBlanks : settings.normalizeBlanks = false

variable {settings : Settings} {table : SymbolTable} {words : List Text} {vocabulary : Vocabulary}

theorem body_lowered (hs : settings.IsFolded) (w : Text) : (settings.bounded table w).body = Unicode.lowercase w := by
  simp [Settings.bounded, Settings.boundedWord, Settings.pieceText, hs.ignoreCase]

theorem passesTest_lowered (hs : settings.IsFolded) (c : Char) : settings.passesTest c = (c != '\n') := by
  simp [Settings.passesTest, hs.boundary, Boundary.fixed, CharTest.holds]

/-- What does not begin or end with a line feed is bound at both ends. -/
theorem bounded_lowered (hs : settings.IsFolded) (table : SymbolTable) {w : Text}
    (hends : w.head? ≠ some '\n' ∧ w.getLast? ≠ some '\n') :
    (settings.bounded table w).left = table.left.map (·.placeholder) ∧
      (settings.bounded table w).right = table.right.map (·.placeholder) := by
  have hhead : (Unicode.lowercase w).head?.all settings.passesTest = true := by
    have := head?_lowerAfter [] hends.1
    rw [Option.all_eq_true]
    intro c hc
    rw [passesTest_lowered hs]
    exact bne_iff_ne.2 fun h => this (hc.trans (congrArg some h))
  have hlast : (Unicode.lowercase w).getLast?.all settings.passesTest = true := by
    have := getLast?_lowerAfter [] hends.2
    rw [Option.all_eq_true]
    intro c hc
    rw [passesTest_lowered hs]
    exact bne_iff_ne.2 fun h => this (hc.trans (congrArg some h))
  simp [Settings.bounded, Settings.boundedWord, Settings.admitsLeft, Settings.admitsRight, Settings.pieceText,
    hs.ignoreCase, hhead, hlast]

theorem mem_lowered_words (hs : settings.IsFolded) (ht : table.Holds settings words) (hne : ∀ w ∈ words, w ≠ [])
    (h : Vocabulary.ofWords settings table words = .ok vocabulary) {x : Text} :
    x ∈ vocabulary.words ↔ ∃ w ∈ words, x = (settings.bounded table w).text := by
  rw [Vocabulary.mem_words h]
  constructor
  · rintro ⟨-, w, hw, pieces, hpieces, rfl⟩
    rw [cut_eq hs.rules ht (hne w hw)] at hpieces
    obtain rfl := Except.ok.inj hpieces
    exact ⟨w, hw, rfl⟩
  · rintro ⟨w, hw, rfl⟩
    refine ⟨?_, w, hw, _, cut_eq hs.rules ht (hne w hw), rfl⟩
    have hbody : (settings.bounded table w).body ≠ [] := by
      rw [body_lowered hs]
      exact lowerAfter_ne_nil (hne w hw)
    simp [BoundedWord.text, hbody]

/-- A word of the vocabulary matches whole texts that fold as the lower case of the given word. -/
theorem mem_word_lowered (hs : settings.IsFolded) (ht : table.Holds settings words) {w : Text} (hw : w ∈ words)
    (hends : w.head? ≠ some '\n' ∧ w.getLast? ≠ some '\n') {p q : Cursor} :
    q ∈ settings.plainSense.word table.meaning (settings.bounded table w).text p ↔
      p.before = [] ∧ p.after.map fold = (Unicode.lowercase w).map fold ∧ q = ⟨p.after.reverse, []⟩ := by
  have hliteral : ∀ c ∈ Unicode.lowercase w, table.meaning c = none := fun c hc => by
    obtain ⟨d, hd, e, he, hle⟩ := le_of_mem_lowerAfter hc
    rw [SymbolTable.meaning,
      ht.lookup?_eq_none (hle.trans (SymbolTable.le_ceiling hw hd (List.mem_cons_of_mem _ he)))]
    rfl
  have hleft : table.left.map (fun s => s.verbatim.anchor settings.multiline) = some .textStart := by
    have h := congrArg (Option.map (Verbatim.anchor settings.multiline)) ht.left
    rw [Option.map_map, hs.boundary] at h
    exact h
  have hright : table.right.map (fun s => s.verbatim.anchor settings.multiline) = some .textEnd := by
    have h := congrArg (Option.map (Verbatim.anchor settings.multiline)) ht.right
    rw [Option.map_map, hs.boundary] at h
    exact h
  have hstart : ∀ p q : Cursor, q ∈ settings.plainSense.word table.meaning
      (if true then table.left.map (·.placeholder) else none).toList p ↔
        q = p ∧ ∀ a, some Anchor.textStart = some a → true = true → a.holds p = true :=
    fun _ _ => mem_word_boundary hleft fun s => meaning_left ht
  have hend : ∀ p q : Cursor, q ∈ settings.plainSense.word table.meaning
      (if true then table.right.map (·.placeholder) else none).toList p ↔
        q = p ∧ ∀ a, some Anchor.textEnd = some a → true = true → a.holds p = true :=
    fun _ _ => mem_word_boundary hright fun s => meaning_right ht
  have hfolded : settings.plainSense.folded = true := hs.ignoreCase
  simp only [if_true, Option.some.injEq, forall_eq', forall_const] at hstart hend
  obtain ⟨hl, hr⟩ := bounded_lowered hs table hends
  rw [BoundedWord.text, body_lowered hs, hl, hr, Sense.word_append, Sense.word_append, Sense.word_text hliteral]
  simp only [Reach.andThen, List.mem_flatMap, hstart, hend, mem_text_fold hfolded]
  constructor
  · rintro ⟨r, ⟨_, ⟨rfl, hp⟩, u, hu, hafter, hbefore⟩, rfl, hq⟩
    obtain hp := List.isEmpty_iff.1 hp
    obtain hq := List.isEmpty_iff.1 hq
    rw [hq, List.append_nil] at hafter
    rw [hp, List.append_nil] at hbefore
    refine ⟨hp, by rw [hafter, hu], ?_⟩
    cases q
    simp_all
  · rintro ⟨hp, hfold, rfl⟩
    refine ⟨_, ⟨p, ⟨rfl, List.isEmpty_iff.2 hp⟩, p.after, hfold, ?_, ?_⟩, rfl, rfl⟩
    · rw [List.append_nil]
    · rw [hp, List.append_nil]

end Vocabulary

end WordPattern
