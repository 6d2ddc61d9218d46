import WordPattern.Proofs.Generation.Specials
import WordPattern.Proofs.Search.Longest

/-! Possessive patterns find what backtracking ones find. -/

namespace WordPattern

open Regex

section Modes

variable {settings : Settings} {special : Bool → Verbatim → Reach} {words : List Text} {strict : Prop} {A : Char → Prop}
variable {generation generation' : Generation} {mode : Mode}

def Options.inMode (o : Options) (mode : Mode) : Options := { o with mode := mode }

def Settings.inMode (settings : Settings) (mode : Mode) : Settings := { settings with mode := mode }

/-- Settings that ask for it have had their specials checked. -/
theorem checkSpecials_of_ofOptions {o : Options} (h : Settings.ofOptions o = .ok settings) (hvet : o.vet = true) :
    settings.checkSpecials = .ok () := by
  have hname := (Settings.ofOptions_eq_ok h).1
  unfold Settings.ofOptions at h
  rcases hn : o.name with _ | name
  on_goal 2 => have hvalid := hname name hn
  all_goals
    simp only [if_true, *] at h
    obtain ⟨boundary, -, h⟩ := bind_eq_ok h
    obtain ⟨rules, -, h⟩ := bind_eq_ok h
    obtain ⟨_, hcheck, h⟩ := bind_eq_ok h
    rw [← Except.ok.inj h]
    exact hcheck

/-- The mode is not checked. -/
theorem ofOptions_inMode {o : Options} (h : Settings.ofOptions o = .ok settings) (mode : Mode) :
    Settings.ofOptions (o.inMode mode) = .ok (settings.inMode mode) := by
  have hcheck := checkSpecials_of_ofOptions h
  obtain ⟨hname, boundary, rules, hboundary, hrules, rfl⟩ := Settings.ofOptions_eq_ok h
  unfold Settings.ofOptions
  have hspecials : (o.inMode mode).allSpecials = o.allSpecials := rfl
  rw [hspecials, hrules]
  rcases hn : o.name with _ | name
  on_goal 2 => have hvalid := hname name hn
  all_goals
    simp only [Options.inMode, if_true, *]
    cases hvet : o.vet with
    | false => rfl
    | true =>
      have hcheck := hcheck hvet
      unfold Settings.checkSpecials at hcheck ⊢
      simp only [bind, Except.bind, pure, Except.pure, if_true] at hcheck ⊢
      rw [hcheck]
      rfl

/-- All stages but the last are the same in all modes. -/
theorem Generation.Made.same (h : generation.Made settings words) (h' : generation'.Made (settings.inMode mode) words) :
    generation'.table = generation.table ∧ generation'.vocabulary = generation.vocabulary ∧
      generation'.root = generation.root := by
  have htable : generation'.table = generation.table := Except.ok.inj (h'.table.symm.trans h.table)
  have hvocabulary : generation'.vocabulary = generation.vocabulary := by
    have hv := h'.vocabulary
    rw [htable] at hv
    exact Except.ok.inj (hv.symm.trans h.vocabulary)
  refine ⟨htable, hvocabulary, ?_⟩
  rw [h'.root, htable, hvocabulary]
  exact h.root.symm

/-- Without words in the vocabulary the pattern is the same in all modes. -/
theorem wholePattern_nothing (h : generation.Made settings words) (h' : generation'.Made (settings.inMode mode) words)
    (hempty : generation.vocabulary.words = []) : generation'.pattern = generation.pattern := by
  obtain ⟨-, -, hroot⟩ := h.same h'
  have htree : generation.root = .alternate ⟨false, .root⟩ [] := by
    rw [h.root, SymbolTable.tree, Node.build, hempty, Node.ofWords]
    rfl
  have htext : ∀ mode : Mode, (Node.alternate ⟨false, .root⟩ []).pattern mode = nothingText := fun _ => rfl
  have hatomic : (Node.alternate ⟨false, .root⟩ []).isAtomic = true := rfl
  rw [h.pattern, h'.pattern, hroot, htree]
  simp only [Settings.wholePattern, htext, hatomic, Bool.not_true, Bool.and_false, Bool.false_eq_true, if_false]
  rfl

/-- In both modes the compiled pattern finds matches with the same spans if whatever the specials match can be read and
no two characters of the vocabulary match the same character. -/
theorem spans_of_made (hname : ∀ name, settings.name = some name → isGroupName name = true) (hfixed : settings.Fixed)
    (hspecial : ∀ rule ∈ settings.rules, Verbatim.Readable (settings.sense special) strict settings.innerFlags
      ⟨rule.pattern, rule.atomic, rule.left, rule.right, .pattern⟩)
    (hσ : (settings.sense special).Lawful A) (hclass : SpellsClasses (settings.sense special) A settings.ignoreCase)
    (h : generation.Made settings words) (h' : generation'.Made (settings.inMode mode) words)
    (hlen : ∀ x ∈ generation.vocabulary.words, x.length < boundLimit)
    (hA : SpeltWith A generation.table.meaning generation.vocabulary.words) {r r' : Regex}
    (hr : compile generation.pattern = .ok r) (hr' : compile generation'.pattern = .ok r') (t : Text) :
    (r.findAll t).map Match.span = (r'.findAll t).map Match.span := by
  obtain ⟨htable, hvocabulary, hroot⟩ := h.same h'
  by_cases hne : generation.vocabulary.words = []
  · rw [wholePattern_nothing h h' hne, hr] at hr'
    rw [Except.ok.inj hr']
  · rw [h.pattern] at hr
    rw [h'.pattern] at hr'
    have hplace := compile_wholePattern hname
      (h.source hne hlen hfixed hspecial settings.mode (fun _ => hσ) hclass hA)
    have hname' : ∀ name, (settings.inMode mode).name = some name → isGroupName name = true := hname
    have hplace' := compile_wholePattern hname'
      (h'.source (hvocabulary ▸ hne) (hvocabulary ▸ hlen) hfixed hspecial mode (fun _ => hσ) hclass
        (by rw [htable, hvocabulary]; exact hA))
    refine spans_matchesFrom (fun p => ?_) [] t 0 false
    rw [hplace.1 r hr p, hplace'.1 r' hr' p, htable, hvocabulary]
    rfl

/-- The stages before the pattern fail in all modes or in none. -/
theorem generate_inMode (settings : Settings) (words : List Text) (mode : Mode) :
    (settings.inMode mode).generate words = (settings.generate words).map (Option.map fun generation =>
      { generation with pattern := (settings.inMode mode).wholePattern generation.root }) := by
  have hfilter : (settings.inMode mode).filter words = settings.filter words := rfl
  have htable : SymbolTable.ofWords (settings.inMode mode) (settings.filter words) =
      SymbolTable.ofWords settings (settings.filter words) := rfl
  unfold Settings.generate
  simp only [hfilter, htable]
  split_ifs
  · rfl
  · cases SymbolTable.ofWords settings (settings.filter words) with
    | error e => rfl
    | ok table =>
      have hvocabulary : Vocabulary.ofWords (settings.inMode mode) table (settings.filter words) =
          Vocabulary.ofWords settings table (settings.filter words) := rfl
      simp only [bind, Except.bind, hvocabulary]
      cases Vocabulary.ofWords settings table (settings.filter words) <;> rfl

theorem Generation.Made.generate (h : generation.Made settings words) :
    settings.generate words = .ok (some generation) := by
  obtain ⟨table, vocabulary, root, pattern⟩ := generation
  obtain ⟨hfiltered, htable, hvocabulary, hroot, hpattern⟩ := h
  simp only at htable hvocabulary hroot hpattern
  unfold Settings.generate
  simp only [List.isEmpty_iff, hfiltered, if_false, htable, hvocabulary, bind, Except.bind, hroot, hpattern]
  rfl

end Modes

/-! ### Options -/

section Options

variable {o : Options} {g : Generator} {words : List Text}

/-- The words of the vocabulary can be held in memory. -/
def Generator.Storable (g : Generator) (words : List Text) : Prop :=
  ∀ generation, g.settings.generate words = .ok (some generation) → ∀ x ∈ generation.vocabulary.words, x.Storable

/-- Words of the vocabulary are spelled with the character, which is no placeholder. -/
def Generation.Spells (generation : Generation) (c : Char) : Prop :=
  generation.table.meaning c = none ∧ ∃ x ∈ generation.vocabulary.words, c ∈ x

/-- No two different characters in the words of the vocabulary match the same characters where case is ignored. -/
def Generator.TellsApart (g : Generator) (words : List Text) : Prop :=
  ∀ generation, g.settings.generate words = .ok (some generation) → ∀ c d, generation.Spells c → generation.Spells d →
    fold c = fold d → c = d

/-- The patterns of the specials read the same wherever they stand, and nothing in them that may be empty is repeated
without a bound. -/
def Options.SpecialsStandAlone (o : Options) : Prop :=
  ∀ entry ∈ o.specials, ∀ rule, Rule.ofSpecial entry.1 entry.2 = .ok rule →
    SelfContained rule.pattern ∧ ∀ parsed, parse rule.pattern = .ok parsed → parsed.expr.Plain

theorem readable_rules {settings : Settings} (h : Settings.ofOptions o = .ok settings) (hspecials : o.SpecialsStandAlone) :
    ∀ rule ∈ settings.rules, Verbatim.Readable (settings.sense (Verbatim.readAlone settings.innerFlags)) False
      settings.innerFlags ⟨rule.pattern, rule.atomic, rule.left, rule.right, .pattern⟩ := by
  intro rule hrule
  rcases Settings.mem_rules h hrule with ⟨entry, hentry, heq⟩ | ⟨himplied, -⟩
  · obtain ⟨hcontained, hplain⟩ := hspecials entry hentry rule heq
    obtain ⟨ts, hlex, hfirm⟩ := hcontained.firmAlone hplain
    exact readable_of_firmAlone rfl rfl hcontained.opens hlex hfirm False.elim False.elim
  · obtain ⟨-, hopens, ts, hlex, hfirm⟩ := firmAlone_implied himplied False
    exact readable_of_firmAlone rfl rfl hopens hlex hfirm False.elim False.elim

/-- Patterns can be generated in both modes or in none, and what compiles in both finds matches with the same spans. -/
theorem spans_inMode (hbound : o.bound.IsFixed) (hspecials : o.SpecialsStandAlone)
    (hg : Generator.ofOptions (o.inMode .backtracking) = .ok g) (hstorable : g.Storable words)
    (hfold : o.ignoreCase = true → g.TellsApart words) :
    ∃ g', Generator.ofOptions (o.inMode .possessive) = .ok g' ∧
      (∀ e, g.pattern words = .error e ↔ g'.pattern words = .error e) ∧
      ∀ r r', g.regex words = .ok r → g'.regex words = .ok r' → ∀ t,
        (r.findAll t).map Match.span = (r'.findAll t).map Match.span := by
  obtain ⟨settings, hsettings, rfl⟩ := map_eq_ok hg
  have hsettings' : Settings.ofOptions (o.inMode .possessive) = .ok (settings.inMode .possessive) :=
    ofOptions_inMode hsettings .possessive
  refine ⟨⟨_, settings.inMode .possessive⟩, by rw [Generator.ofOptions, hsettings']; rfl, fun e => ?_, ?_⟩
  · simp only [Generator.pattern, generate_inMode]
    cases settings.generate words <;> simp [Except.map]
  · intro r r' hr hr' t
    rcases Generator.regex_eq_ok hr with ⟨hnone, hcompile⟩ | ⟨generation, hmade, hcompile⟩ <;>
      rcases Generator.regex_eq_ok hr' with ⟨hnone', hcompile'⟩ | ⟨generation', hmade', hcompile'⟩
    · rw [Except.ok.inj (hcompile.symm.trans hcompile')]
    · exact absurd hnone hmade'.filtered
    · exact absurd hnone' hmade.filtered
    · have hcase : settings.ignoreCase = o.ignoreCase := by
        obtain ⟨-, _, _, -, -, rfl⟩ := Settings.ofOptions_eq_ok hsettings
        rfl
      have hname : ∀ name, settings.name = some name → isGroupName name = true := by
        obtain ⟨hname, _, _, -, -, rfl⟩ := Settings.ofOptions_eq_ok hsettings
        exact hname
      have hfixed := Settings.fixed_of_isFixed hsettings hbound
      have hrules := readable_rules hsettings hspecials
      have hlen : ∀ x ∈ generation.vocabulary.words, x.length < boundLimit := fun x hx =>
        Nat.lt_of_le_of_lt (Nat.le_add_right _ 2) (hstorable generation hmade.generate x hx).length_lt
      cases hc : settings.ignoreCase with
      | false =>
        exact spans_of_made hname hfixed hrules (lawful_of_case hc) spellsClasses_of_case hmade hmade' hlen
          (fun _ _ _ _ _ => trivial) hcompile hcompile' t
      | true =>
        refine spans_of_made (A := generation.Spells) hname hfixed hrules
          (lawful_of_fold hc fun c d hA hA' => ?_) (spellsClasses_of_fold hc) hmade hmade' hlen
          (fun x hx c hcx hnone => ⟨hnone, x, hx, hcx⟩) hcompile hcompile' t
        exact hfold (hcase ▸ hc) generation hmade.generate c d hA hA'

/-- Where case counts, both modes find the same. -/
theorem spans_possessive (hbound : o.bound.IsFixed) (hspecials : o.SpecialsStandAlone) (hcase : o.ignoreCase = false)
    (hg : Generator.ofOptions (o.inMode .backtracking) = .ok g) (hstorable : g.Storable words) :
    ∃ g', Generator.ofOptions (o.inMode .possessive) = .ok g' ∧
      (∀ e, g.pattern words = .error e ↔ g'.pattern words = .error e) ∧
      ∀ r r', g.regex words = .ok r → g'.regex words = .ok r' → ∀ t,
        (r.findAll t).map Match.span = (r'.findAll t).map Match.span :=
  spans_inMode hbound hspecials hg hstorable fun h => by simp [hcase] at h

/-- The spans of the matches that the pattern of some words finds in a text. -/
def Options.spans (o : Options) (words : List Text) (t : Text) : Except Error (List (Cursor × Cursor)) := do
  let g ← Generator.ofOptions o
  let r ← g.regex words
  return (r.findAll t).map Match.span

def withKey (pattern : Text) : Options := { specials := [(.literal ['K'], { pattern := some pattern })] }

theorem standAlone_withKey {pattern : Text} (h : SelfContained pattern)
    (hplain : ∀ parsed, parse pattern = .ok parsed → parsed.expr.Plain) : (withKey pattern).SpecialsStandAlone := by
  intro entry hentry rule hrule
  obtain rfl := List.mem_singleton.1 hentry
  obtain ⟨rfl, -⟩ := ofSpecial_literal hrule
  exact ⟨h, hplain⟩

/-- The words of a vocabulary that has been made of given options. -/
theorem storable_of_all (hg : Generator.ofOptions o = .ok g)
    (h : (Generator.ofOptions o).toOption.all (fun g => (g.settings.generate words).toOption.all
      (·.all fun generation => generation.vocabulary.words.all (Text.Storable ·))) = true) : g.Storable words := by
  intro generation hgeneration x hx
  rw [hg] at h
  change (g.settings.generate words).toOption.all _ = true at h
  rw [hgeneration] at h
  exact of_decide_eq_true (List.all_eq_true.1 h x hx)

/-- Of a number that a letter may follow. -/
theorem spans_possessive_number : ∃ g g' r r', Generator.ofOptions (withKey ['\\', 'd', '+']) = .ok g ∧
    Generator.ofOptions ((withKey ['\\', 'd', '+']).inMode .possessive) = .ok g' ∧ g.regex [['K'], ['K', 'c']] = .ok r ∧
      g'.regex [['K'], ['K', 'c']] = .ok r' ∧ ∀ t, (r.findAll t).map Match.span = (r'.findAll t).map Match.span := by
  have hlex : Lexes ['\\', 'd', '+'] [.named .digit false, .plus] :=
    Lexes.append (f := ['\\', 'd']) (lexes_token fun _ _ => rfl) lexes_plus (opens_cons (by decide) _)
  have hplain : ∀ parsed, parse ['\\', 'd', '+'] = .ok parsed → parsed.expr.Plain := by
    intro parsed hparsed
    obtain rfl := Except.ok.inj hparsed
    exact ⟨fun _ => by decide, trivial⟩
  have hspecials := standAlone_withKey ⟨by decide, ⟨_, hlex, rfl⟩, ⟨_, rfl⟩⟩ hplain
  obtain ⟨g, hg⟩ : ∃ g, Generator.ofOptions ((withKey ['\\', 'd', '+']).inMode .backtracking) = .ok g := ⟨_, rfl⟩
  obtain ⟨g', hg', -, hspans⟩ := spans_possessive (show Bound.IsFixed .none from trivial) hspecials rfl hg
    (@storable_of_all _ _ [['K'], ['K', 'c']] hg (by decide +kernel))
  obtain ⟨r, hr⟩ : ∃ r, g.regex [['K'], ['K', 'c']] = .ok r := exists_regex hg (by decide +kernel)
  obtain ⟨r', hr'⟩ : ∃ r', g'.regex [['K'], ['K', 'c']] = .ok r' := exists_regex hg' (by decide +kernel)
  exact ⟨g, g', r, r', hg, hg', hr, hr', hspans r r' hr hr'⟩

/-- Where a round that may take nothing is repeated without a bound, a sweep goes on after such a round, and a step by
step match does not. -/
theorem spans_possessive_empty_round : SelfContained ['(', '?', ':', 'a', '|', '|', 'b', ')', '*'] ∧
    ((withKey ['(', '?', ':', 'a', '|', '|', 'b', ')', '*']).inMode .backtracking).spans [['K'], ['K', 'c']] ['a', 'b'] =
      .ok [(⟨[], ['a', 'b']⟩, ⟨['b', 'a'], []⟩)] ∧
    ((withKey ['(', '?', ':', 'a', '|', '|', 'b', ')', '*']).inMode .possessive).spans [['K'], ['K', 'c']] ['a', 'b'] =
      .ok [(⟨[], ['a', 'b']⟩, ⟨['a'], ['b']⟩), (⟨['b', 'a'], []⟩, ⟨['b', 'a'], []⟩)] := by
  have hchar : ∀ c : Char, isSyntaxChar c = false → Lexes [c] [.char c] :=
    fun c hc => lexes_token fun rest _ => token_plain hc _
  have hlex : Lexes (['(', '?', ':'] ++ (['a'] ++ (['|'] ++ (['|'] ++ (['b'] ++ ([')'] ++ ['*']))))))
      ([.opening (.plain {})] ++ ([.char 'a'] ++ ([.bar] ++ ([.bar] ++ ([.char 'b'] ++ ([.close] ++ [.star])))))) := by
    refine lexes_plainGroup.append ((hchar 'a' (by decide)).append (lexes_bar.append (lexes_bar.append
      ((hchar 'b' (by decide)).append (lexes_close.append (lexes_token fun _ _ => rfl) ?_) ?_) ?_) ?_) ?_) ?_
    all_goals exact opens_cons (by decide) _
  exact ⟨⟨by decide, ⟨_, hlex, rfl⟩, ⟨_, rfl⟩⟩, by decide +kernel, by decide +kernel⟩

/-- Where case is ignored, both modes find the same for words that have no two different characters with the same
representative. -/
theorem spans_possessive_of_tellsApart (hbound : o.bound.IsFixed) (hspecials : o.specials = [])
    (hg : Generator.ofOptions (o.inMode .backtracking) = .ok g) (hstorable : g.Storable words)
    (happart : g.TellsApart words) :
    ∃ g', Generator.ofOptions (o.inMode .possessive) = .ok g' ∧
      (∀ e, g.pattern words = .error e ↔ g'.pattern words = .error e) ∧
      ∀ r r', g.regex words = .ok r → g'.regex words = .ok r' → ∀ t,
        (r.findAll t).map Match.span = (r'.findAll t).map Match.span :=
  spans_inMode hbound (fun entry hentry => by simp [hspecials] at hentry) hg hstorable fun _ => happart

theorem tellsApart_of_all (hg : Generator.ofOptions o = .ok g)
    (h : (Generator.ofOptions o).toOption.all (fun g => (g.settings.generate words).toOption.all
      (·.all fun generation => generation.vocabulary.words.flatten.all fun c =>
        generation.vocabulary.words.flatten.all fun d => decide (fold c = fold d → c = d))) = true) :
    g.TellsApart words := by
  rintro generation hgeneration c d ⟨-, x, hx, hc⟩ ⟨-, y, hy, hd⟩
  rw [hg] at h
  change (g.settings.generate words).toOption.all _ = true at h
  rw [hgeneration] at h
  have hall := List.all_eq_true.1 h c (List.mem_flatten.2 ⟨x, hx, hc⟩)
  exact of_decide_eq_true (List.all_eq_true.1 hall d (List.mem_flatten.2 ⟨y, hy, hd⟩))

/-- Of `do` and `double`, where case is ignored. -/
theorem spans_possessive_do_double : ∃ g g' r r', Generator.ofOptions { ignoreCase := true } = .ok g ∧
    Generator.ofOptions { ignoreCase := true, mode := .possessive } = .ok g' ∧
      g.regex [['d', 'o'], ['d', 'o', 'u', 'b', 'l', 'e']] = .ok r ∧
      g'.regex [['d', 'o'], ['d', 'o', 'u', 'b', 'l', 'e']] = .ok r' ∧
      ∀ t, (r.findAll t).map Match.span = (r'.findAll t).map Match.span := by
  obtain ⟨g, hg⟩ : ∃ g, Generator.ofOptions { ignoreCase := true } = .ok g := ⟨_, rfl⟩
  obtain ⟨g', hg', -, hspans⟩ := @spans_possessive_of_tellsApart { ignoreCase := true } g
    [['d', 'o'], ['d', 'o', 'u', 'b', 'l', 'e']] trivial rfl hg (storable_of_all hg (by decide +kernel))
    (tellsApart_of_all hg (by decide +kernel))
  obtain ⟨r, hr⟩ : ∃ r, g.regex [['d', 'o'], ['d', 'o', 'u', 'b', 'l', 'e']] = .ok r :=
    exists_regex hg (by decide +kernel)
  obtain ⟨r', hr'⟩ : ∃ r', g'.regex [['d', 'o'], ['d', 'o', 'u', 'b', 'l', 'e']] = .ok r' :=
    exists_regex hg' (by decide +kernel)
  exact ⟨g, g', r, r', hg, hg', hr, hr', hspans r r' hr hr'⟩

/-- The long s is told apart from `s` in the choice of what to close, but matches it where case is ignored: a word of the
list is missed. -/
theorem spans_possessive_long_s :
    Options.spans { ignoreCase := true } [['ſ'], ['s', 'ſ']] ['ſ'] = .ok [(⟨[], ['ſ']⟩, ⟨['ſ'], []⟩)] ∧
      Options.spans { ignoreCase := true, mode := .possessive } [['ſ'], ['s', 'ſ']] ['ſ'] = .ok [] := by
  decide +kernel

end Options

end WordPattern
