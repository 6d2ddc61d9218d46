import WordPattern.Proofs.Generation.Implied
import WordPattern.Proofs.Search.Modes

/-! Patterns that can be embedded in extended ones, where blanks and `#` have a meaning of their own.

They find what other patterns find, unless an item begins or ends with a space or `#` next to which the bound asserts
something: the specials that stand for these characters let no boundary stand next to them. -/

namespace WordPattern

open Regex

/-- No space or `#` stands at an end of a word where the bound asserts something next to it. A bound by words never
does: neither is a character of words. -/
def Bound.EndsClear (bound : Bound) (w : Text) : Prop :=
  ∀ c ∈ [' ', '#'], bound.admits c = true →
    (bound.leftAssertion ≠ .none → w.head? ≠ some c) ∧ (bound.rightAssertion ≠ .none → w.getLast? ≠ some c)

-- Decided over the two characters: the instance for all characters would go through every code point.
instance (bound : Bound) : DecidablePred bound.EndsClear := fun _ => List.decidableBAll _ _

section Settings

variable {settings : Settings} {bound : Bound}

def extendedRules : List Rule := [.implied ' ' [' '], .implied '#' ['#']]

theorem mem_extendedRules {rule : Rule} (h : rule ∈ extendedRules) : ∃ c ∈ [' ', '#'], rule = .implied c [c] := by
  simp only [extendedRules, List.mem_cons, List.not_mem_nil, or_false] at h
  rcases h with rfl | rfl
  · exact ⟨' ', by simp, rfl⟩
  · exact ⟨'#', by simp, rfl⟩

theorem readsLiterally_of_extendedRules (h : settings.rules = extendedRules) :
    settings.ReadsLiterally settings.impliedSpecial where
  toLettered := lettered_of_implied fun rule hrule => by
    obtain ⟨c, -, rfl⟩ := mem_extendedRules (h ▸ hrule)
    exact ⟨c, [c], rfl⟩
  uniform := uniform_impliedSpecial
  readable rule hrule := by
    obtain ⟨c, hc, rfl⟩ := mem_extendedRules (h ▸ hrule)
    refine @readable_implied {} settings c [c] ?_
    simp only [List.mem_cons, List.not_mem_nil, or_false] at hc
    rcases hc with rfl | rfl <;> simp [Options.impliedPatterns]
  same rule hrule c hkey := by
    obtain ⟨d, hd, rfl⟩ := mem_extendedRules (h ▸ hrule)
    obtain rfl : d = c := by simpa [Rule.implied] using hkey
    refine impliedSpecial_char ?_
    simp only [List.mem_cons, List.not_mem_nil, or_false] at hd
    rcases hd with rfl | rfl <;> rfl

theorem clear_of_extendedRules (h : settings.rules = extendedRules) {w : Text} (hw : bound.EndsClear w) :
    settings.Clear bound w := by
  intro rule hrule c hkey hadmits
  obtain ⟨d, hd, rfl⟩ := mem_extendedRules (h ▸ hrule)
  obtain rfl : d = c := by simpa [Rule.implied] using hkey
  exact hw d hd hadmits

end Settings

section Options

variable {o : Options} {g g' : Generator} {words : List Text}

def Options.embedded (o : Options) : Options := { o with notExtended := true }

theorem Options.IsPlain.rules_embedded (ho : o.IsPlain) :
    o.embedded.allSpecials.mapM (fun (key, special) => Rule.ofSpecial key special) = .ok extendedRules := by
  have hall : o.embedded.allSpecials =
      [(.literal [' '], { pattern := some [' '] }), (.literal ['#'], { pattern := some ['#'] })] := by
    simp [Options.allSpecials, Options.embedded, ho.normalizeBlanks, ho.specials, putSpecial]
  rw [hall]
  rfl

theorem Options.IsPlain.exists_embedded (ho : o.IsPlain) : ∃ g, Generator.ofOptions o.embedded = .ok g := by
  obtain ⟨settings, hsettings⟩ := @Settings.exists_ofOptions o.embedded _ ho.name ho.bound ho.rules_embedded
    fun rule hrule => by
      simp only [extendedRules, List.mem_cons, List.not_mem_nil, or_false] at hrule
      rcases hrule with rfl | rfl <;> exact ⟨_, rfl⟩
  exact ⟨⟨o.embedded, settings⟩, by rw [Generator.ofOptions, hsettings]; rfl⟩

theorem asserts_embedded (ho : o.IsPlain) (hg : Generator.ofOptions o.embedded = .ok g) :
    g.settings.Asserts o.bound ∧ g.settings.rules = extendedRules := by
  obtain ⟨settings, hsettings, rfl⟩ := map_eq_ok hg
  refine ⟨@Settings.asserts_of_ofOptions o.embedded settings hsettings ho.bound ho.ignoreCase, ?_⟩
  obtain ⟨-, boundary, rules, -, hrules, rfl⟩ := Settings.ofOptions_eq_ok hsettings
  exact Except.ok.inj (hrules.symm.trans ho.rules_embedded)

/-- The items are the same. -/
theorem filter_embedded (hg : Generator.ofOptions o = .ok g) (hg' : Generator.ofOptions o.embedded = .ok g') :
    g'.settings.filter words = g.settings.filter words := by
  obtain ⟨settings, hsettings, rfl⟩ := map_eq_ok hg
  obtain ⟨settings', hsettings', rfl⟩ := map_eq_ok hg'
  obtain ⟨-, _, _, -, -, rfl⟩ := Settings.ofOptions_eq_ok hsettings
  obtain ⟨-, _, _, -, -, rfl⟩ := Settings.ofOptions_eq_ok hsettings'
  rfl

/-- What can be embedded finds matches with the same spans, if the items are clear at their ends. -/
theorem spans_embedded (ho : o.IsPlain) (hstorable : ∀ w ∈ words, w.Storable) :
    ∃ g g', Generator.ofOptions o = .ok g ∧ Generator.ofOptions o.embedded = .ok g' ∧
      ((∀ w ∈ g.settings.filter words, o.bound.EndsClear w) →
        (∀ e, g.regex words = .error e → e.IsLimit) ∧ (∀ e, g'.regex words = .error e → e.IsLimit) ∧
          ∀ r r', g.regex words = .ok r → g'.regex words = .ok r' → ∀ t,
            (r.findAll t).map Match.span = (r'.findAll t).map Match.span) := by
  obtain ⟨g, hg⟩ := ho.exists_generator
  obtain ⟨g', hg'⟩ := ho.exists_embedded
  have hfilter := @filter_embedded _ _ _ words hg hg'
  have hitems := storable_filter ho hg hstorable
  obtain ⟨hs, hrules⟩ := asserts_embedded ho hg'
  have hl := readsLiterally_of_extendedRules hrules
  refine ⟨g, g', hg, hg', fun hclear => ?_⟩
  have hitems' : ∀ w ∈ g'.settings.filter words, w ≠ [] ∧ w.Storable ∧ g'.settings.Clear o.bound w := by
    intro w hw
    rw [hfilter] at hw
    exact ⟨(isPlain_settings ho hg).filter words w hw, hitems w hw, clear_of_extendedRules hrules (hclear w hw)⟩
  obtain ⟨splitter, hsplitter⟩ :
      ∃ splitter, SymbolTable.splitterOf (SymbolTable.rulesOf g'.settings) = .ok splitter := by
    rw [SymbolTable.rulesOf, hrules]
    exact ⟨_, rfl⟩
  refine ⟨fun e he => (isLimit_of_regex ho hg hitems he).1,
    fun e he => (g'.isLimit_of_regex hs hl hsplitter hitems' he).1, fun r r' hr hr' t => ?_⟩
  refine spans_matchesFrom (fun p => ?_) [] t 0 false
  have hplace := longestAt_regex ho hg hitems hr p
  have hplace' := g'.longestAt_regex hs hl hitems' hr' p
  rw [hfilter] at hplace'
  exact hplace.span_eq hplace'

/-- Of texts with a space and a `#` inside, as whole texts. -/
theorem spans_embedded_inner : ∃ g g' r r', Generator.ofOptions { bound := .text .both } = .ok g ∧
    Generator.ofOptions { bound := .text .both, notExtended := true } = .ok g' ∧
      g.regex [['a', ' ', 'b'], ['a', '#', 'b']] = .ok r ∧ g'.regex [['a', ' ', 'b'], ['a', '#', 'b']] = .ok r' ∧
      ∀ t, (r.findAll t).map Match.span = (r'.findAll t).map Match.span := by
  have hplain : Options.IsPlain { bound := .text .both } := ⟨fun _ h => by simp at h, trivial, rfl, rfl, rfl, rfl⟩
  obtain ⟨g, g', hg, hg', hspans⟩ := spans_embedded hplain
    (show ∀ w ∈ [['a', ' ', 'b'], ['a', '#', 'b']], Text.Storable w by decide +kernel)
  obtain ⟨r, hr⟩ : ∃ r, g.regex [['a', ' ', 'b'], ['a', '#', 'b']] = .ok r := exists_regex hg (by decide +kernel)
  obtain ⟨r', hr'⟩ : ∃ r', g'.regex [['a', ' ', 'b'], ['a', '#', 'b']] = .ok r' := exists_regex hg' (by decide +kernel)
  obtain rfl : Generator.mk .. = g := Except.ok.inj hg
  have hclear : ∀ w ∈ [['a', ' ', 'b'], ['a', '#', 'b']], (Bound.text .both).EndsClear w := by decide
  exact ⟨_, g', r, r', hg, hg', hr, hr', (hspans hclear).2.2 r r' hr hr'⟩

/-- An item that begins with a space loses what the bound asserts before it: its pattern is found inside a longer text.
-/
theorem spans_embedded_leading_space :
    Options.spans { bound := .text .both } [[' ', 'a']] ['x', ' ', 'a'] = .ok [] ∧
      Options.spans { bound := .text .both, notExtended := true } [[' ', 'a']] ['x', ' ', 'a'] =
        .ok [(⟨['x'], [' ', 'a']⟩, ⟨['a', ' ', 'x'], []⟩)] := by
  decide +kernel

end Options

end WordPattern
