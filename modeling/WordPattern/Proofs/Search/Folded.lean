import WordPattern.Proofs.Generation.Folded
import WordPattern.Proofs.Search.Exact

/-! Where case is ignored, a pattern that is bound to both ends of the text matches what folds as the lower case of an
item.

This is what folds as the item itself, unless the item has a character whose lower case does not match it. -/

namespace WordPattern

open Regex

/-! ### Generation -/

section Generation

variable {settings : Settings} {words : List Text} {generation : Generation}

/-- The pattern has a match at a place if one of the items folds to the whole text and the place is its start. -/
theorem Generation.Made.folded (h : generation.Made settings words) (hs : settings.IsFolded)
    (hname : ∀ name, settings.name = some name → isGroupName name = true)
    (hends : ∀ w ∈ settings.filter words, w.head? ≠ some '\n' ∧ w.getLast? ≠ some '\n')
    (hstorable : ∀ w ∈ settings.filter words, w.Storable) :
    (∀ r, compile generation.pattern = .ok r → ∀ p, (matchAt? r.plan p).isSome = true ↔
      p.before = [] ∧ ∃ w ∈ settings.filter words, p.after.map fold = (Unicode.lowercase w).map fold) ∧
      ∀ x, compile generation.pattern = .error x → x = .tooDeep ∨ x = .tooLarge := by
  have ht := SymbolTable.holds_of_ofWords h.table
  have hitems : ∀ w ∈ settings.filter words, w ≠ [] := fun w hw => (Settings.of_filter hs.normalizeBlanks hw).1
  have hwords := fun x => mem_lowered_words hs ht hitems h.vocabulary (x := x)
  have hne : generation.vocabulary.words ≠ [] := by
    obtain ⟨w, hw⟩ := List.exists_mem_of_ne_nil _ h.filtered
    exact List.ne_nil_of_mem ((hwords _).2 ⟨w, hw, rfl⟩)
  have hlen : ∀ x ∈ generation.vocabulary.words, x.length < boundLimit := by
    intro x hx
    obtain ⟨w, hw, rfl⟩ := (hwords x).1 hx
    have hlower := length_lowerAfter_le [] w
    have hword := hstorable w hw
    rw [BoundedWord.text, body_lowered hs, (bounded_lowered hs _ (hends w hw)).1, (bounded_lowered hs _ (hends w hw)).2]
    have hone : ∀ x : Option Char, x.toList.length ≤ 1 := fun x => by cases x <;> simp
    have hleft := hone (generation.table.left.map (·.placeholder))
    have hright := hone (generation.table.right.map (·.placeholder))
    rw [List.length_append, List.length_append, Unicode.lowercase]
    unfold Text.Storable at hword
    unfold boundLimit
    omega
  have hfixed : settings.Fixed := by
    simp [Settings.Fixed, hs.boundary, Boundary.fixed, leftAssertions, rightAssertions, Edges.hasLeft, Edges.hasRight]
  obtain ⟨hplace, herror⟩ := h.isSome_matchAt? uniform_plainSense hname hfixed hne hlen (by rw [hs.rules]; simp)
    fun hm => by rw [hs.mode] at hm; contradiction
  refine ⟨fun r hr p => (hplace r hr p).trans ⟨?_, ?_⟩, herror⟩
  · rintro ⟨x, hx, q, hq⟩
    obtain ⟨w, hw, rfl⟩ := (hwords x).1 hx
    obtain ⟨hp, hfold, -⟩ := (mem_word_lowered hs ht hw (hends w hw)).1 hq
    exact ⟨hp, w, hw, hfold⟩
  · rintro ⟨hp, w, hw, hfold⟩
    exact ⟨_, (hwords _).2 ⟨w, hw, rfl⟩, _, (mem_word_lowered hs ht hw (hends w hw)).2 ⟨hp, hfold, rfl⟩⟩

end Generation

/-! ### Options -/

section Options

/-- Case is ignored, there are no specials, and whole texts are bound, with all choices left open. -/
structure Options.IsFolded (o : Options) : Prop where
  name : ∀ name, o.name = some name → isGroupName name = true
  bound : o.bound = .text .both
  mode : o.mode = .backtracking
  ignoreCase : o.ignoreCase = true
  notExtended : o.notExtended = false
  normalizeBlanks : o.normalizeBlanks = false
  specials : o.specials = []

variable {o : Options} {g : Generator} {words : List Text}

/-- Nothing about such options is refused. -/
theorem Options.IsFolded.exists_generator (ho : o.IsFolded) : ∃ g, Generator.ofOptions o = .ok g := by
  have hall : o.allSpecials = [] := by simp [Options.allSpecials, ho.normalizeBlanks, ho.notExtended, ho.specials]
  have hbound : o.bound.IsFixed := by rw [ho.bound]; trivial
  obtain ⟨settings, hsettings⟩ := Settings.exists_ofOptions ho.name hbound (by rw [hall]; rfl)
    fun _ h => absurd h List.not_mem_nil
  exact ⟨⟨o, settings⟩, by rw [Generator.ofOptions, hsettings]; rfl⟩

theorem isFolded_settings (ho : o.IsFolded) (hg : Generator.ofOptions o = .ok g) :
    g.settings.IsFolded ∧ ∀ name, g.settings.name = some name → isGroupName name = true := by
  obtain ⟨settings, hsettings, rfl⟩ := map_eq_ok hg
  obtain ⟨hname, boundary, rules, hboundary, hrules, rfl⟩ := Settings.ofOptions_eq_ok hsettings
  have hall : o.allSpecials = [] := by simp [Options.allSpecials, ho.normalizeBlanks, ho.notExtended, ho.specials]
  rw [hall] at hrules
  rw [ho.bound] at hboundary
  obtain rfl := Except.ok.inj hrules
  obtain rfl := Except.ok.inj hboundary
  exact ⟨⟨rfl, ho.ignoreCase, ho.mode, rfl, ho.normalizeBlanks⟩, hname⟩

/-- Every text that folds as the lower case of an item is matched, and no other text. -/
theorem isMatch_lowercase (ho : o.IsFolded) (hstorable : ∀ w ∈ words, w.Storable) (hg : Generator.ofOptions o = .ok g)
    (hends : ∀ w ∈ g.settings.filter words, w.head? ≠ some '\n' ∧ w.getLast? ≠ some '\n')
    (htable : ∃ table, SymbolTable.ofWords g.settings (g.settings.filter words) = .ok table) :
    (∀ e, g.regex words = .error e → e = .compile (.syntaxError .tooDeep) ∨ e = .compile (.syntaxError .tooLarge)) ∧
      ∀ r, g.regex words = .ok r → ∀ t, r.isMatch t = true ↔
        ∃ w ∈ g.settings.filter words, t.map fold = (Unicode.lowercase w).map fold := by
  obtain ⟨hs, hname⟩ := isFolded_settings ho hg
  have hitems : ∀ w ∈ g.settings.filter words, w.Storable := by
    intro w hw
    obtain ⟨-, v, hv, hsub⟩ := Settings.of_filter hs.normalizeBlanks hw
    exact Nat.lt_of_le_of_lt (byteCount_le_of_sublist hsub) (hstorable v hv)
  refine ⟨fun e he => ?_, fun r hr t => ?_⟩
  · obtain ⟨table, htable⟩ := htable
    rcases Generator.regex_eq_error he with h | ⟨table, htable, h⟩ | ⟨generation, hmade, x, hx, rfl⟩
    · rw [htable] at h
      contradiction
    · obtain ⟨vocabulary, hvocabulary, -⟩ := exists_vocabulary_of_literal (by rw [hs.rules]; simp) htable
      rw [hvocabulary] at h
      contradiction
    · rcases (hmade.folded hs hname hends hitems).2 x hx with rfl | rfl
      · exact .inl rfl
      · exact .inr rfl
  · rw [isMatch_iff]
    rcases Generator.regex_eq_ok hr with ⟨hnone, hcompile⟩ | ⟨generation, hmade, hcompile⟩
    · obtain rfl := Except.ok.inj (Generator.compile_nothing.symm.trans hcompile)
      simp [hnone, Generator.matchAt?_nothing]
    · have hplace := (hmade.folded hs hname hends hitems).1 r hcompile
      simp only [hplace]
      constructor
      · rintro ⟨p, rfl, hp, hw⟩
        rwa [Cursor.text, hp]
      · exact fun hw => ⟨⟨[], t⟩, rfl, rfl, hw⟩

/-- The lower case of every character matches it: it is not `İ`, which becomes two characters, and no letter that came
later and has a lower case. -/
def Text.KeepsCase (t : Text) : Prop := ∀ c ∈ t, c ≠ 'İ' ∧ (knows c = true ∨ Unicode.lowerChar c = [c])

-- Decided over the text: the instance for all characters would go through every code point.
instance : DecidablePred Text.KeepsCase := fun t => List.decidableBAll _ t

/-- Every text that folds as an item is matched, and no other text, if the lower case of the items matches them. -/
theorem isMatch_iff_fold (ho : o.IsFolded) (hstorable : ∀ w ∈ words, w.Storable) :
    ∃ g, Generator.ofOptions o = .ok g ∧
      ((∀ w ∈ g.settings.filter words, w.head? ≠ some '\n' ∧ w.getLast? ≠ some '\n') →
        (∃ table, SymbolTable.ofWords g.settings (g.settings.filter words) = .ok table) →
          (∀ w ∈ g.settings.filter words, w.KeepsCase) →
            (∀ e, g.regex words = .error e →
              e = .compile (.syntaxError .tooDeep) ∨ e = .compile (.syntaxError .tooLarge)) ∧
            ∀ r, g.regex words = .ok r → ∀ t, r.isMatch t = true ↔
              ∃ w ∈ g.settings.filter words, t.map fold = w.map fold) := by
  obtain ⟨g, hg⟩ := ho.exists_generator
  refine ⟨g, hg, fun hends htable hkeeps => ?_⟩
  obtain ⟨herror, hmatch⟩ := isMatch_lowercase ho hstorable hg hends htable
  refine ⟨herror, fun r hr t => (hmatch r hr t).trans (exists_congr fun w => and_congr_right fun hw => ?_)⟩
  rw [map_fold_lowercase (hkeeps w hw)]

/-- Of `do` and `double` as whole texts, in any case. -/
theorem isMatch_fold_do_double : ∃ g r, Generator.ofOptions { bound := .text .both, ignoreCase := true } = .ok g ∧
    g.regex [['D', 'o'], ['d', 'O', 'u', 'b', 'l', 'e']] = .ok r ∧
      ∀ t, r.isMatch t = true ↔ ∃ w ∈ [['D', 'o'], ['d', 'O', 'u', 'b', 'l', 'e']], t.map fold = w.map fold := by
  have hfolded : Options.IsFolded { bound := .text .both, ignoreCase := true } :=
    ⟨fun _ h => by simp at h, rfl, rfl, rfl, rfl, rfl, rfl⟩
  obtain ⟨g, hg, hmatch⟩ := isMatch_iff_fold hfolded
    (show ∀ w ∈ [['D', 'o'], ['d', 'O', 'u', 'b', 'l', 'e']], Text.Storable w by decide +kernel)
  obtain ⟨r, hr⟩ : ∃ r, g.regex [['D', 'o'], ['d', 'O', 'u', 'b', 'l', 'e']] = .ok r :=
    exists_regex hg (by decide +kernel)
  obtain rfl : Generator.mk .. = g := Except.ok.inj hg
  have hends : ∀ w ∈ [['D', 'o'], ['d', 'O', 'u', 'b', 'l', 'e']], w.head? ≠ some '\n' ∧ w.getLast? ≠ some '\n' := by
    decide
  have hkeeps : ∀ w ∈ [['D', 'o'], ['d', 'O', 'u', 'b', 'l', 'e']], Text.KeepsCase w := by
    decide +kernel
  exact ⟨_, r, hg, hr, (hmatch hends ⟨_, rfl⟩ hkeeps).2 r hr⟩

/-- The pattern made from `İ` alone does not match `İ`. -/
theorem isMatch_dotted_i : ((Generator.ofOptions { bound := .text .both, ignoreCase := true }).bind fun g =>
    (g.regex [['İ']]).map fun r => (g.settings.filter [['İ']], r.isMatch ['İ'])) = .ok ([['İ']], false) := by
  decide +kernel

end Options

end WordPattern
