import WordPattern.Proofs.Fields
import WordPattern.Proofs.Generation.Folded
import WordPattern.Proofs.Generation.Implied
import WordPattern.Proofs.Search.Longest

/-! Where blanks are normalized, a pattern that is bound to both ends of the text matches the fields of an item with any
ASCII blanks between them. -/

namespace WordPattern

open Regex SymbolTable

/-- Fields one after the other, with ASCII blanks between them. -/
inductive Spaced : List Text → Text → Prop
  | one (w : Text) : Spaced [w] w
  | more {ws : List Text} {s t : Text} (w : Text) (hne : s ≠ []) (hs : ∀ b ∈ s, isAsciiBlank b = true)
      (ht : Spaced ws t) : Spaced (w :: ws) (w ++ s ++ t)

theorem spaced_singleton {w t : Text} : Spaced [w] t ↔ t = w := by
  constructor
  · intro h
    cases h with
    | one => rfl
    | more _ _ _ ht => nomatch ht
  · rintro rfl
    exact .one t

theorem spaced_cons {v w t : Text} {ws : List Text} : Spaced (v :: w :: ws) t ↔
    ∃ s u, s ≠ [] ∧ (∀ b ∈ s, isAsciiBlank b = true) ∧ Spaced (w :: ws) u ∧ t = v ++ s ++ u := by
  constructor
  · intro h
    cases h with
    | more _ hne hs ht => exact ⟨_, _, hne, hs, ht, rfl⟩
  · rintro ⟨s, u, hne, hs, hu, rfl⟩
    exact .more v hne hs hu

theorem Spaced.head? {v t : Text} {ws : List Text} (h : Spaced (v :: ws) t) (hv : v ≠ []) : t.head? = v.head? := by
  cases h with
  | one => rfl
  | more => rw [List.append_assoc, List.head?_append_of_ne_nil _ hv]

theorem isBlank_of_isAsciiBlank {c : Char} (h : isAsciiBlank c = true) : Unicode.isBlank c = true := by
  have hall : ∀ d ∈ ['\t', '\n', '\x0B', '\x0C', '\r', ' '], Unicode.isBlank d = true :=
    List.all_eq_true.1 (by decide)
  exact hall c (of_decide_eq_true h)

/-! ### Words -/

structure Settings.NormalizesBlanks (settings : Settings) : Prop extends settings.Asserts (.text .both) where
  rules : settings.rules = [.implied ' ' blankRunPattern]
  trim : settings.trim = true
  normalizeBlanks : settings.normalizeBlanks = true

def AreFields (ws : List Text) : Prop := ∀ w ∈ ws, w ≠ [] ∧ ∀ c ∈ w, Unicode.isBlank c = false

section Words

variable {settings : Settings} {items : List Text} {table : SymbolTable} {ws : List Text}

theorem Settings.NormalizesBlanks.lettered (hs : settings.NormalizesBlanks) : settings.Lettered :=
  lettered_of_implied fun rule hrule => by
    rw [hs.rules, List.mem_singleton] at hrule
    exact ⟨_, _, hrule⟩

theorem ne_space {c : Char} (h : Unicode.isBlank c = false) : c ≠ ' ' := by
  rintro rfl
  contradiction

theorem keyed?_eq_none (hs : settings.NormalizesBlanks) (ht : ofWords settings items = .ok table) {c : Char}
    (hc : c ≠ ' ') : table.keyed? c = none := by
  cases h : table.keyed? c with
  | none => rfl
  | some s =>
    obtain ⟨-, -, rule, hrule, hkey, -⟩ := keyed?_spec hs.lettered ht h
    rw [hs.rules, List.mem_singleton] at hrule
    rw [hrule] at hkey
    exact absurd (by simpa [Rule.implied] using hkey.symm) hc

/-- The space stands for a run of blanks. -/
theorem word_space (hs : settings.NormalizesBlanks) (ht : ofWords settings items = .ok table) :
    (settings.sense settings.impliedSpecial).word table.meaning [table.letter ' '] =
      settings.impliedSpecial false (Rule.implied ' ' blankRunPattern).verbatim := by
  have hrule : Rule.implied ' ' blankRunPattern ∈ settings.rules := by simp [hs.rules]
  obtain ⟨s, h⟩ := Option.isSome_iff_exists.1 (keyed?_isSome ht hrule rfl)
  obtain ⟨-, -, rule, hrule, -, hverbatim⟩ := keyed?_spec hs.lettered ht h
  rw [hs.rules, List.mem_singleton] at hrule
  rw [word_letter_of_keyed? hs.lettered ht h, hverbatim, hrule]

/-- A field matches itself. -/
theorem word_field (hs : settings.NormalizesBlanks) (ht : ofWords settings items = .ok table) {w v : Text}
    (hv : v ∈ items) (hsub : ∀ c ∈ w, c ∈ v) (hw : ∀ c ∈ w, Unicode.isBlank c = false) :
    (settings.sense settings.impliedSpecial).word table.meaning (w.map table.letter) =
      (settings.sense settings.impliedSpecial).text w := by
  have hkeyed := fun c hc => keyed?_eq_none hs ht (ne_space (hw c hc))
  rw [map_letter_of_none hkeyed]
  refine Sense.word_text fun c hc => ?_
  rw [SymbolTable.meaning, (holds_of_ofWords ht).lookup?_eq_none (le_ceiling hv (hsub c hc) List.mem_cons_self)]
  rfl

/-- Fields that are one space apart match what they are with any ASCII blanks between them. -/
theorem mem_word_join (hs : settings.NormalizesBlanks) (ht : ofWords settings items = .ok table) {v : Text}
    (hv : v ∈ items) (hne : ws ≠ []) (hws : AreFields ws) (hsub : ∀ w ∈ ws, ∀ c ∈ w, c ∈ v) {p q : Cursor} :
    q ∈ (settings.sense settings.impliedSpecial).word table.meaning ((Text.join [' '] ws).map table.letter) p ↔
      ∃ t, Spaced ws t ∧ p.after = t ++ q.after ∧ q.before = t.reverse ++ p.before := by
  have hfolded : (settings.sense settings.impliedSpecial).folded = false := hs.ignoreCase
  induction ws generalizing p with
  | nil => contradiction
  | cons w ws ih =>
    have hw := word_field hs ht hv (hsub w List.mem_cons_self) (hws w List.mem_cons_self).2
    cases ws with
    | nil =>
      simp only [Text.join, hw, Sense.mem_text hfolded, spaced_singleton, exists_eq_left]
    | cons u us =>
      have hothers := @ih (List.cons_ne_nil u us) (fun x hx => hws x (List.mem_cons_of_mem _ hx))
        fun x hx => hsub x (List.mem_cons_of_mem _ hx)
      obtain ⟨hu, hublank⟩ := hws u (by simp)
      rw [Text.join_cons_cons, List.map_append, List.map_append, List.map_singleton, Sense.word_append,
        Sense.word_append, hw, word_space hs ht]
      simp only [Reach.andThen, List.mem_flatMap, Sense.mem_text hfolded, mem_impliedSpecial_blanks hs.ignoreCase,
        hothers]
      constructor
      · rintro ⟨r, ⟨p', ⟨hafter, hbefore⟩, s, hne, hblank, hafter', hbefore', -⟩, t, ht, hafter'', hbefore''⟩
        refine ⟨w ++ s ++ t, .more w hne hblank ht, ?_, ?_⟩
        · rw [hafter, hafter', hafter'', List.append_assoc, List.append_assoc]
        · rw [hbefore'', hbefore', hbefore]
          simp
      · rintro ⟨_, hspaced, hafter, hbefore⟩
        obtain ⟨s, t, hne, hblank, hrest, rfl⟩ := spaced_cons.1 hspaced
        refine ⟨⟨s.reverse ++ (w.reverse ++ p.before), t ++ q.after⟩,
          ⟨⟨w.reverse ++ p.before, s ++ (t ++ q.after)⟩, ⟨by simpa using hafter, rfl⟩, s, hne, hblank, rfl, rfl, ?_⟩,
          t, hrest, rfl, by simpa using hbefore⟩
        -- what follows the blanks begins with a field
        intro d hd
        have htne : t ≠ [] := fun hnil => hu (List.head?_eq_none_iff.1 (by rw [← hrest.head? hu, hnil]; rfl))
        rw [List.head?_append_of_ne_nil _ htne, hrest.head? hu] at hd
        by_contra hblank
        have := isBlank_of_isAsciiBlank (Bool.of_not_eq_false hblank)
        rw [hublank d (List.mem_of_head? hd)] at this
        contradiction

/-- Fields do not begin or end with a blank, so boundaries stand next to them. -/
theorem earned_join (hs : settings.NormalizesBlanks) (ht : ofWords settings items = .ok table) (hne : ws ≠ [])
    (hws : AreFields ws) : (Text.join [' '] ws).head?.any (table.admits settings) = true ∧
      (Text.join [' '] ws).getLast?.any (table.admits settings) = true := by
  have hadmits : ∀ c, Unicode.isBlank c = false → table.admits settings c = true := by
    intro c hc
    have hfeed : c ≠ '\n' := by
      rintro rfl
      contradiction
    rw [SymbolTable.admits, keyed?_eq_none hs ht (ne_space hc), passesTest_eq hs.toAsserts (.inl rfl)]
    simp [Bound.admits, hfeed]
  obtain ⟨⟨v, hv, c, hc, hhead⟩, w, hw, d, hd, hlast⟩ := Text.ends_join [' '] hne fun w hw => (hws w hw).1
  rw [hhead, hlast]
  exact ⟨hadmits c ((hws v hv).2 c hc), hadmits d ((hws w hw).2 d hd)⟩

/-- The word of an item matches whole texts, in which any ASCII blanks stand between the fields. -/
theorem exists_mem_word_join (hs : settings.NormalizesBlanks) (ht : ofWords settings items = .ok table)
    (hitem : Text.join [' '] ws ∈ items) (hne : ws ≠ []) (hws : AreFields ws) {p : Cursor} :
    (∃ q, q ∈ (settings.sense settings.impliedSpecial).word table.meaning
      (settings.wordOf table (Text.join [' '] ws)).text p) ↔ p.before = [] ∧ Spaced ws p.after := by
  obtain ⟨hstart, hstop⟩ := earned_join hs ht hne hws
  have hjoin := fun q => @mem_word_join _ _ _ _ hs ht _ hitem hne hws (fun _ => Text.mem_join) p q
  simp only [mem_word_wordOf hs.toAsserts hs.lettered ht, hstart, hstop, hjoin, forall_const]
  constructor
  · rintro ⟨q, hp, ⟨t, hspaced, hafter, -⟩, hq⟩
    have hq : q.after = [] := List.isEmpty_iff.1 (hq .textEnd rfl)
    rw [hafter, hq, List.append_nil]
    exact ⟨List.isEmpty_iff.1 (hp .textStart rfl), hspaced⟩
  · rintro ⟨hp, hspaced⟩
    refine ⟨⟨p.after.reverse ++ p.before, []⟩, fun a ha => ?_, ⟨p.after, hspaced, (List.append_nil _).symm, rfl⟩,
      fun a ha => ?_⟩
    · obtain rfl := Option.some.inj ha
      exact List.isEmpty_iff.2 hp
    · obtain rfl := Option.some.inj ha
      rfl

end Words

/-! ### Generation -/

section Generation

variable {settings : Settings} {words : List Text} {generation : Generation}

/-- The items are the fields of given words, one space apart. -/
theorem mem_filter_normalized (hs : settings.NormalizesBlanks) {x : Text} :
    x ∈ settings.filter words ↔ ∃ w ∈ words, w.fields ≠ [] ∧ x = Text.join [' '] w.fields := by
  rw [Settings.filter, List.mem_filterMap]
  refine exists_congr fun w => and_congr_right fun _ => ?_
  simp only [hs.trim, hs.normalizeBlanks, if_true, Text.fields_trim, List.isEmpty_iff, Text.trim_eq_nil_iff]
  by_cases hfields : w.fields = []
  · simp [hfields]
  · simp [hfields, eq_comm]

theorem areFields (w : Text) : AreFields w.fields := fun _ => Text.of_mem_fields

/-- The words of the vocabulary are made of the fields of given words. -/
theorem mem_words_normalized (hs : settings.NormalizesBlanks) {table : SymbolTable} {vocabulary : Vocabulary}
    (ht : ofWords settings (settings.filter words) = .ok table)
    (hvocabulary : Vocabulary.ofWords settings table (settings.filter words) = .ok vocabulary) {x : Text} :
    x ∈ vocabulary.words ↔
      ∃ w ∈ words, w.fields ≠ [] ∧ x = (settings.wordOf table (Text.join [' '] w.fields)).text := by
  rw [mem_words_iff hs.ignoreCase hs.lettered.isLiteral ht hvocabulary]
  constructor
  · rintro ⟨v, hv, -, rfl⟩
    obtain ⟨w, hw, hfields, rfl⟩ := (mem_filter_normalized hs).1 hv
    exact ⟨w, hw, hfields, rfl⟩
  · rintro ⟨w, hw, hfields, rfl⟩
    obtain ⟨⟨f, hf, c, hc, -⟩, -⟩ := Text.ends_join [' '] hfields fun f hf => (areFields w f hf).1
    exact ⟨_, (mem_filter_normalized hs).2 ⟨w, hw, hfields, rfl⟩, List.ne_nil_of_mem (Text.mem_join hf hc), rfl⟩

/-- The pattern has a match at a place if it is the start of the fields of a given word, with ASCII blanks between
them. -/
theorem Generation.Made.spaced (h : generation.Made settings words) (hs : settings.NormalizesBlanks)
    (hstorable : ∀ w ∈ words, w.Storable) :
    (∀ r, compile generation.pattern = .ok r → ∀ p, (matchAt? r.plan p).isSome = true ↔
      p.before = [] ∧ ∃ w ∈ words, w.fields ≠ [] ∧ Spaced w.fields p.after) ∧
      ∀ x, compile generation.pattern = .error x → x = .tooDeep ∨ x = .tooLarge := by
  have hwords := fun x => mem_words_normalized hs h.table h.vocabulary (x := x)
  have hne : generation.vocabulary.words ≠ [] := by
    obtain ⟨x, hx⟩ := List.exists_mem_of_ne_nil _ h.filtered
    obtain ⟨w, hw, hfields, rfl⟩ := (mem_filter_normalized hs).1 hx
    exact List.ne_nil_of_mem ((hwords _).2 ⟨w, hw, hfields, rfl⟩)
  have hlen : ∀ x ∈ generation.vocabulary.words, x.length < boundLimit := by
    intro x hx
    obtain ⟨w, hw, -, rfl⟩ := (hwords x).1 hx
    have hword := length_wordOf_le hs.ignoreCase hs.lettered h.table (Text.join [' '] w.fields)
    have hfields := Text.length_join_fields_le w
    have hlimit := (hstorable w hw).length_lt
    omega
  have hspecial : ∀ rule ∈ settings.rules, rule.verbatim.Readable (settings.sense settings.impliedSpecial) True
      settings.innerFlags := by
    intro rule hrule
    rw [hs.rules, List.mem_singleton] at hrule
    rw [hrule]
    exact @readable_implied { normalizeBlanks := true } _ _ _ List.mem_cons_self
  obtain ⟨hplace, herror⟩ := h.isSome_matchAt? uniform_impliedSpecial hs.name hs.fixed hne hlen hspecial
    fun _ => lawful_of_case hs.ignoreCase
  refine ⟨fun r hr p => (hplace r hr p).trans ?_, herror⟩
  have hitem : ∀ w ∈ words, w.fields ≠ [] → Text.join [' '] w.fields ∈ settings.filter words :=
    fun w hw hfields => (mem_filter_normalized hs).2 ⟨w, hw, hfields, rfl⟩
  constructor
  · rintro ⟨x, hx, hq⟩
    obtain ⟨w, hw, hfields, rfl⟩ := (hwords x).1 hx
    obtain ⟨hp, hspaced⟩ := (exists_mem_word_join hs h.table (hitem w hw hfields) hfields (areFields w)).1 hq
    exact ⟨hp, w, hw, hfields, hspaced⟩
  · rintro ⟨hp, w, hw, hfields, hspaced⟩
    exact ⟨_, (hwords _).2 ⟨w, hw, hfields, rfl⟩,
      (exists_mem_word_join hs h.table (hitem w hw hfields) hfields (areFields w)).2 ⟨hp, hspaced⟩⟩

end Generation

/-! ### Options -/

section Options

/-- Case counts, blanks are normalized, there are no specials, and whole texts are bound. -/
structure Options.NormalizesBlanks (o : Options) : Prop where
  name : ∀ name, o.name = some name → isGroupName name = true
  bound : o.bound = .text .both
  ignoreCase : o.ignoreCase = false
  notExtended : o.notExtended = false
  normalizeBlanks : o.normalizeBlanks = true
  specials : o.specials = []

variable {o : Options} {g : Generator} {words : List Text}

theorem Options.NormalizesBlanks.rules (ho : o.NormalizesBlanks) :
    o.allSpecials.mapM (fun (key, special) => Rule.ofSpecial key special) = .ok [.implied ' ' blankRunPattern] := by
  have hall : o.allSpecials = [(.literal [' '], { pattern := some blankRunPattern })] := by
    simp [Options.allSpecials, ho.normalizeBlanks, ho.notExtended, ho.specials, putSpecial]
  rw [hall]
  rfl

/-- Nothing about such options is refused. -/
theorem Options.NormalizesBlanks.exists_generator (ho : o.NormalizesBlanks) : ∃ g, Generator.ofOptions o = .ok g := by
  have hbound : o.bound.IsFixed := by rw [ho.bound]; trivial
  obtain ⟨settings, hsettings⟩ := Settings.exists_ofOptions ho.name hbound ho.rules
    (by simpa [Rule.implied] using ⟨_, rfl⟩)
  exact ⟨⟨o, settings⟩, by rw [Generator.ofOptions, hsettings]; rfl⟩

theorem normalizesBlanks_settings (ho : o.NormalizesBlanks) (hg : Generator.ofOptions o = .ok g) :
    g.settings.NormalizesBlanks := by
  obtain ⟨settings, hsettings, rfl⟩ := map_eq_ok hg
  have hasserts := Settings.asserts_of_ofOptions hsettings (by rw [ho.bound]; trivial) ho.ignoreCase
  rw [ho.bound] at hasserts
  refine ⟨hasserts, ?_, ?_, ?_⟩
  all_goals obtain ⟨-, boundary, rules, -, hrules, rfl⟩ := Settings.ofOptions_eq_ok hsettings
  · exact Except.ok.inj (hrules.symm.trans ho.rules)
  · exact Bool.or_eq_true_iff.2 (.inr ho.normalizeBlanks)
  · exact ho.normalizeBlanks

/-- Such a pattern has a match in the texts that have the fields of a given word, with ASCII blanks between them, and in
no other text. Of the limits only those on the compiled pattern are left if there are enough placeholders. -/
theorem isMatch_iff_spaced (ho : o.NormalizesBlanks) (hstorable : ∀ w ∈ words, w.Storable) :
    ∃ g, Generator.ofOptions o = .ok g ∧
      ((∃ table, SymbolTable.ofWords g.settings (g.settings.filter words) = .ok table) →
        (∀ e, g.regex words = .error e → e = .compile (.syntaxError .tooDeep) ∨ e = .compile (.syntaxError .tooLarge)) ∧
        ∀ r, g.regex words = .ok r → ∀ t, r.isMatch t = true ↔
          ∃ w ∈ words, (∃ c ∈ w, Unicode.isBlank c = false) ∧ Spaced w.fields t) := by
  obtain ⟨g, hg⟩ := ho.exists_generator
  have hs := normalizesBlanks_settings ho hg
  refine ⟨g, hg, fun ⟨table, htable⟩ => ⟨fun e he => ?_, fun r hr t => ?_⟩⟩
  · rcases Generator.regex_eq_error he with h | ⟨table, htable, h⟩ | ⟨generation, hmade, x, hx, rfl⟩
    · rw [htable] at h
      contradiction
    · obtain ⟨vocabulary, hvocabulary, -⟩ := exists_vocabulary_of_literal hs.lettered.isLiteral htable
      rw [hvocabulary] at h
      contradiction
    · rcases (hmade.spaced hs hstorable).2 x hx with rfl | rfl
      · exact .inl rfl
      · exact .inr rfl
  · simp only [← Text.fields_ne_nil_iff]
    rw [isMatch_iff]
    rcases Generator.regex_eq_ok hr with ⟨hnone, hcompile⟩ | ⟨generation, hmade, hcompile⟩
    · obtain rfl := Except.ok.inj (Generator.compile_nothing.symm.trans hcompile)
      have hnothing : ∀ w ∈ words, ¬ w.fields ≠ [] := by
        intro w hw hfields
        have hitem := (mem_filter_normalized hs).2 ⟨w, hw, hfields, rfl⟩
        rw [hnone] at hitem
        simp at hitem
      simp only [Generator.matchAt?_nothing, Option.isSome_none, Bool.false_eq_true, and_false, exists_false, false_iff]
      rintro ⟨w, hw, hfields, -⟩
      exact hnothing w hw hfields
    · simp only [(hmade.spaced hs hstorable).1 r hcompile]
      constructor
      · rintro ⟨p, rfl, hp, hw⟩
        rwa [Cursor.text, hp]
      · exact fun hw => ⟨⟨[], t⟩, rfl, rfl, hw⟩

/-- Of words with a no-break space, blanks at the ends, and nothing but blanks. -/
theorem isMatch_spaced_do_double : ∃ g r,
    Generator.ofOptions { bound := .text .both, mode := .possessive, normalizeBlanks := true } = .ok g ∧
      g.regex ["do\u00A0it".toList, " double\t".toList, " ".toList] = .ok r ∧
        ∀ t, r.isMatch t = true ↔ ∃ w ∈ ["do\u00A0it".toList, " double\t".toList, " ".toList],
          (∃ c ∈ w, Unicode.isBlank c = false) ∧ Spaced (Text.fields w) t := by
  have hblanks : Options.NormalizesBlanks { bound := .text .both, mode := .possessive, normalizeBlanks := true } :=
    ⟨fun _ h => by simp at h, rfl, rfl, rfl, rfl, rfl⟩
  obtain ⟨g, hg, hmatch⟩ := isMatch_iff_spaced hblanks
    (show ∀ w ∈ ["do\u00A0it".toList, " double\t".toList, " ".toList], Text.Storable w by decide +kernel)
  obtain ⟨r, hr⟩ : ∃ r, g.regex ["do\u00A0it".toList, " double\t".toList, " ".toList] = .ok r :=
    exists_regex hg (by decide +kernel)
  obtain rfl : Generator.mk .. = g := Except.ok.inj hg
  exact ⟨_, r, hg, hr, (hmatch ⟨_, rfl⟩).2 r hr⟩

end Options

end WordPattern
