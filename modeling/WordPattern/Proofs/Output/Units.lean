import WordPattern.Proofs.Output.Compiles
import WordPattern.Proofs.Reading.Enclosed
import WordPattern.Proofs.Search.Modes

/-! Patterns that are one item.

Where the options ask for it, or write a group around the pattern, a repeat after the pattern applies to all of it. -/

namespace WordPattern

open Regex

/-! ### Texts -/

section Texts

variable {mode : Mode} {known : Text → Prop} {t : Text}

theorem paired_quoteChar (c : Char) : Paired (quoteChar c) := paired_of_lexes (lexes_quoteChar c) rfl

theorem paired_class (cls : CharClass) : Paired cls.pattern := by
  rcases pattern_cases cls with ⟨-, hp⟩ | ⟨c, -, hp⟩ | ⟨-, hlex, -⟩
  · rw [hp]
    exact paired_of_lexes lexes_nothing rfl
  · rw [hp]
    exact paired_quoteChar c
  · exact paired_of_lexes hlex rfl

theorem paired_group (h : Paired t) (closed : Bool) : Paired (mode.group closed t) :=
  (beginsGroup_groupStart mode closed).paired h

theorem paired_count (n : Nat) : Paired (countText n) := by
  apply paired_of_inert
  intro c hc
  simp only [countText, List.cons_append, List.mem_cons, List.mem_append, List.not_mem_nil, or_false] at hc
  rcases hc with rfl | hc | rfl
  · decide
  · exact IsCountChar.inert (.inl (Nat.isDigit_of_mem_toDigits (by decide) (by decide) hc))
  · decide

/-- What is put together from paired texts is paired. -/
theorem paired_assembled (hknown : ∀ {t}, known t → Paired t) (h : Assembled mode known t) : Paired t := by
  induction h with
  | empty => exact paired_nil
  | char c => exact paired_quoteChar c
  | set cls => exact paired_class cls
  | verbatim h => exact hknown h
  | append _ _ ihs iht => exact ihs.append iht
  | group closed _ ih => exact paired_group ih closed
  | bar => exact paired_of_lexes lexes_bar rfl
  | nothing => exact paired_of_lexes lexes_nothing rfl
  | mark closed =>
    apply paired_of_inert
    cases mode <;> cases closed <;> decide
  | count n => exact paired_count n

end Texts

/-! ### Whole patterns -/

section Patterns

variable {settings : Settings} {root : Node} {source : Text} {ts : List Token}

theorem singleUnit_of_tokens (h : IsSingleUnit source) (hts : tokens source = .ok ts) : SingleUnit ts := by
  obtain ⟨us, hus, hunit⟩ := h
  exact Except.ok.inj (hus.symm.trans hts) ▸ hunit

theorem isSingleUnit_quoteChar (c : Char) : IsSingleUnit (quoteChar c) :=
  ⟨_, (lexes_quoteChar c).tokens_eq, .item rfl⟩

theorem isSingleUnit_nothing : IsSingleUnit nothingText :=
  ⟨_, lexes_nothing.tokens_eq, .group _ (show Balanced [] from rfl)⟩

theorem isSingleUnit_class (cls : CharClass) : IsSingleUnit cls.pattern := by
  rcases pattern_cases cls with ⟨-, hp⟩ | ⟨c, -, hp⟩ | ⟨-, hlex, -⟩
  · exact hp ▸ isSingleUnit_nothing
  · exact hp ▸ isSingleUnit_quoteChar c
  · exact ⟨_, hlex.tokens_eq, .item rfl⟩

/-- A tree that needs no group is a unit, if the pattern that it may be is one. -/
theorem isSingleUnit_root (hmark : root.mark = ⟨false, .root⟩) (hatomic : root.isAtomic = true)
    (hverbatim : ∀ m v, root = .verbatim m v → v.atomic = true → IsSingleUnit v.pattern) (mode : Mode) :
    IsSingleUnit (root.pattern mode) := by
  have hfinish : ∀ closed t, root.finish mode closed t = t := by
    intro closed t
    rw [Node.finish, hmark]
    rfl
  cases root with
  | leaf m t =>
    obtain ⟨c, rfl⟩ := List.length_eq_one_iff.1 (of_decide_eq_true hatomic)
    rw [Node.pattern, Node.patternBefore, hfinish, List.map_singleton, abbreviate_singleton]
    exact isSingleUnit_quoteChar c
  | charClass m cls =>
    obtain rfl : m = ⟨false, .root⟩ := hmark
    rw [Node.pattern, Node.patternBefore]
    simp only [Bool.false_eq_true, if_false, List.append_nil]
    exact isSingleUnit_class cls
  | verbatim m v =>
    rw [Node.pattern, Node.patternBefore, hfinish]
    exact hverbatim m v rfl hatomic
  | sequence => contradiction
  | alternate m children =>
    obtain rfl : m = ⟨false, .root⟩ := hmark
    have hempty : children.isEmpty = true := by simpa [Node.isAtomic] using hatomic
    rw [Node.pattern, Node.patternBefore, if_pos hempty]
    exact isSingleUnit_nothing

/-- There is a group around the text of a tree, or the text is the whole pattern. -/
theorem wholePattern_cases (hname : ∀ name, settings.name = some name → isGroupName name = true)
    (hpaired : Paired (root.pattern settings.mode)) :
    (∃ start o t, BeginsGroup start o ∧ Paired t ∧ settings.wholePattern root = start ++ t ++ [')']) ∨
      settings.name = none ∧ settings.flags = none ∧ (settings.atomic = true → root.isAtomic = true) ∧
        settings.wholePattern root = root.pattern settings.mode := by
  have hcolon : ∀ (start t : Text) (c : Char), start ++ c :: t ++ [')'] = start ++ [c] ++ t ++ [')'] := by simp
  have hflags : ∀ flags, settings.flags = some flags → ∃ o, BeginsGroup (['(', '?'] ++ flags ++ [':']) o := by
    intro flags hflags
    rw [Settings.flags_eq] at hflags
    split_ifs at hflags with hempty
    obtain rfl := Option.some.inj hflags
    exact ⟨_, beginsGroup_flags (by simpa using hempty)⟩
  unfold Settings.wholePattern
  cases hn : settings.name with
  | some name =>
    refine .inl ⟨_, _, _, beginsGroup_named (hname name hn), ?_, hcolon _ _ _⟩
    cases hf : settings.flags with
    | none => exact hpaired
    | some flags =>
      obtain ⟨o, ho⟩ := hflags flags hf
      have hinner := ho.paired hpaired
      rw [← hcolon] at hinner
      exact hinner
  | none =>
    cases hf : settings.flags with
    | some flags =>
      obtain ⟨o, ho⟩ := hflags flags hf
      exact .inl ⟨_, o, _, ho, hpaired, hcolon _ _ _⟩
    | none =>
      by_cases hgroup : settings.atomic = true ∧ root.isAtomic = false
      · refine .inl ⟨_, _, _, beginsGroup_groupStart settings.mode true, hpaired, ?_⟩
        simp only [hgroup]
        rfl
      · refine .inr ⟨rfl, rfl, fun hatomic => ?_, ?_⟩
        · by_contra hroot
          exact hgroup ⟨hatomic, by simpa using hroot⟩
        · refine if_neg fun hboth => hgroup ?_
          simpa using hboth

end Patterns

/-! ### Specials and boundaries -/

section Options

variable {o : Options} {settings : Settings} {g : Generator} {words : List Text} {t : Text}

/-- A repeat after the pattern is to apply to all of it: the options ask for a unit, or for a group with a name or with
flags around the pattern. -/
def Options.AsksForUnit (o : Options) : Prop :=
  o.atomic = true ∨ o.name ≠ none ∨ o.ignoreCase = true ∨ o.multiline = true ∨ (∃ edges, o.bound = .line edges) ∨
    o.notExtended = true

/-- Every special can be compiled alone, and one that is marked as a unit is one. -/
def Options.VouchesForUnits (o : Options) : Prop :=
  ∀ entry ∈ o.specials, ∀ rule, Rule.ofSpecial entry.1 entry.2 = .ok rule →
    (∃ r, compile rule.pattern = .ok r) ∧ (entry.2.atomic = some true → IsSingleUnit rule.pattern)

/-- The pattern neither begins with a brace nor ends inside an unfinished repeat count. -/
def IsSeparate (pattern : Text) : Prop := pattern.head? ≠ some '\x7b' ∧ ∃ ts, Lexes pattern ts

/-- Patterns that stand side by side do not merge, and every special has something that can be repeated. -/
structure Options.KeepsApart (o : Options) : Prop where
  bound : ∀ test left right, o.bound = .custom test left right → ∀ pattern ∈ left.toList ++ right.toList, IsSeparate pattern
  specials : o.EachRule fun rule =>
    IsSeparate rule.pattern ∧ ∃ parsed, parse rule.pattern = .ok parsed ∧ parsed.expr.isRepeatable = true

theorem exists_parse_of_compile {r : Regex} (h : compile t = .ok r) : ∃ parsed, parse t = .ok parsed := by
  obtain ⟨ts, -, h⟩ := bind_eq_ok h
  split_ifs at h
  · contradiction
  · obtain ⟨parsed, hparsed, -⟩ := bind_eq_ok h
    exact ⟨parsed, hparsed⟩

/-- A key without a pattern is put in a group that makes it a unit. -/
theorem isSingleUnit_of_ofSpecial {key : Key} {special : Special} {rule : Rule}
    (h : Rule.ofSpecial key special = .ok rule) (hcompile : ∃ r, compile rule.pattern = .ok r)
    (hmarked : special.atomic = some true → IsSingleUnit rule.pattern) (hatomic : rule.atomic = true) :
    IsSingleUnit rule.pattern := by
  have hgiven : special.atomic.getD false = true → IsSingleUnit rule.pattern := by
    cases hs : special.atomic with
    | none => simp
    | some marked =>
      rintro rfl
      exact hmarked hs
  unfold Rule.ofSpecial at h
  cases key with
  | literal text =>
    cases hp : special.pattern with
    | none =>
      rw [hp] at h
      contradiction
    | some pattern =>
      simp only [hp] at h
      split_ifs at h
      · contradiction
      · obtain rfl := Except.ok.inj h
        exact hgiven hatomic
  | regex source =>
    obtain ⟨u, hsource, h⟩ := bind_eq_ok h
    cases hp : special.pattern with
    | some pattern =>
      simp only [hp] at h
      obtain rfl := Except.ok.inj h
      exact hgiven hatomic
    | none =>
      simp only [hp] at h
      obtain rfl := Except.ok.inj h
      obtain ⟨r, hr, -⟩ := map_eq_ok (show (compileOr _ source).map _ = .ok u from hsource)
      obtain ⟨inner, hinner⟩ := exists_parse_of_compile (compileOr_eq_ok hr)
      obtain ⟨r', hr'⟩ := hcompile
      obtain ⟨parsed, hparsed⟩ := exists_parse_of_compile hr'
      obtain ⟨ts, hts⟩ := exists_tokens_of_parse hparsed
      have hbegins := beginsGroup_groupStart .backtracking true
      exact ⟨ts, hts, hbegins.singleUnit (paired_of_parse hinner) hts⟩

theorem compile_assertion {pattern : Text} (h : pattern ∈ leftAssertions ++ rightAssertions) :
    ∃ r, compile pattern = .ok r := by
  simp only [leftAssertions, rightAssertions, List.cons_append, List.nil_append, List.mem_cons, List.not_mem_nil,
    or_false] at h
  rcases h with rfl | rfl | rfl | rfl | rfl | rfl <;> exact ⟨_, rfl⟩

theorem exists_parse_boundary (h : Settings.ofOptions o = .ok settings) {pattern : Text}
    (hpattern : settings.boundary.bind (·.left) = some pattern ∨ settings.boundary.bind (·.right) = some pattern) :
    ∃ parsed, parse pattern = .ok parsed := by
  obtain ⟨r, hr⟩ : ∃ r, compile pattern = .ok r := by
    rcases boundary_cases h hpattern with hfixed | ⟨-, -, -, -, -, hgiven⟩
    · exact compile_assertion hfixed
    · exact hgiven
  exact exists_parse_of_compile hr

theorem exists_parse_rule (h : Settings.ofOptions o = .ok settings) (ho : o.VouchesForUnits) {rule : Rule}
    (hrule : rule ∈ settings.rules) : ∃ parsed, parse rule.pattern = .ok parsed := by
  rcases Settings.mem_rules h hrule with ⟨entry, hentry, heq⟩ | ⟨himplied, -⟩
  · obtain ⟨r, hr⟩ := (ho entry hentry rule heq).1
    exact exists_parse_of_compile hr
  · obtain ⟨parsed, hparsed, -⟩ := (@standing_implied _ True _ himplied).exists_parse
    exact ⟨parsed, hparsed⟩

theorem isSingleUnit_rule (h : Settings.ofOptions o = .ok settings) (ho : o.VouchesForUnits) {rule : Rule}
    (hrule : rule ∈ settings.rules) (hatomic : rule.atomic = true) : IsSingleUnit rule.pattern := by
  rcases Settings.mem_rules h hrule with ⟨entry, hentry, heq⟩ | ⟨-, hplain⟩
  · obtain ⟨hcompile, hmarked⟩ := ho entry hentry rule heq
    exact isSingleUnit_of_ofSpecial heq hcompile hmarked hatomic
  · rw [hplain] at hatomic
    contradiction

/-- Flags make a group, and so does a name. -/
theorem Options.AsksForUnit.grouped (ho : o.AsksForUnit) (h : Settings.ofOptions o = .ok settings) :
    settings.atomic = true ∨ settings.name ≠ none ∨ settings.flags ≠ none := by
  have hflags : settings.ignoreCase = true ∨ settings.multiline = true ∨ settings.notExtended = true →
      settings.flags ≠ none := by
    intro hon
    rw [Settings.flags_eq, if_neg]
    · exact Option.some_ne_none _
    · rcases hon with hon | hon | hon <;> simp [flagsText, hon]
  obtain ⟨-, boundary, rules, -, -, rfl⟩ := Settings.ofOptions_eq_ok h
  rcases ho with hatomic | hname | hcase | hlines | ⟨edges, hbound⟩ | hextended
  · exact .inl hatomic
  · exact .inr (.inl hname)
  · exact .inr (.inr (hflags (.inl hcase)))
  · exact .inr (.inr (hflags (.inr (.inl (by simp [hlines])))))
  · exact .inr (.inr (hflags (.inr (.inl (by simp [hbound])))))
  · exact .inr (.inr (hflags (.inr (.inr hextended))))

/-- The pattern of a list is a unit if it can be cut into tokens at all. -/
theorem singleUnit_of_made (h : Settings.ofOptions o = .ok settings) (hask : o.AsksForUnit) (ho : o.VouchesForUnits)
    {generation : Generation} (hmade : generation.Made settings words) {ts : List Token}
    (hts : tokens generation.pattern = .ok ts) : SingleUnit ts := by
  have hpaired : Paired (generation.root.pattern settings.mode) := by
    have hread : ∀ pattern, (∃ parsed, parse pattern = .ok parsed) → Paired pattern :=
      fun pattern hpattern => paired_of_parse hpattern.choose_spec
    have hassembled : Assembled settings.mode Paired (generation.root.pattern settings.mode) := by
      refine hmade.assembled ?_ ?_ ?_ settings.mode
      · exact fun rule hrule => hread _ (exists_parse_rule h ho hrule)
      · exact fun pattern hpattern => hread _ (exists_parse_boundary h (.inl hpattern))
      · exact fun pattern hpattern => hread _ (exists_parse_boundary h (.inr hpattern))
    exact paired_assembled id hassembled
  obtain ⟨hmark, -, hboundary⟩ := hmade.root_spec (Settings.filter_ne_nil h words)
  rw [hmade.pattern] at hts
  rcases wholePattern_cases (Settings.isGroupName_of_ofOptions h) hpaired with
    ⟨start, o', t, hstart, ht, heq⟩ | ⟨hname, hflags, hroot, heq⟩
  · rw [heq] at hts
    exact hstart.singleUnit ht hts
  · rw [heq] at hts
    have hatomic : settings.atomic = true := by
      rcases hask.grouped h with hatomic | hname' | hflags'
      · exact hatomic
      · exact absurd hname hname'
      · exact absurd hflags hflags'
    refine singleUnit_of_tokens (isSingleUnit_root hmark (hroot hatomic) ?_ settings.mode) hts
    intro m v hverbatim hv
    rw [hverbatim] at hboundary
    have hmem : v ∈ generation.root.verbatims := hverbatim ▸ List.mem_singleton_self v
    rcases hmade.mem_verbatims hmem with ⟨rule, hrule, rfl⟩ | ⟨pattern, -, rfl⟩ | ⟨pattern, -, rfl⟩
    · exact isSingleUnit_rule h ho hrule hv
    · contradiction
    · split_ifs at hboundary <;> contradiction

theorem standing_boundary_of_keepsApart (h : Settings.ofOptions o = .ok settings) (hapart : o.KeepsApart) {pattern : Text}
    (hpattern : settings.boundary.bind (·.left) = some pattern ∨ settings.boundary.bind (·.right) = some pattern) :
    Standing False False pattern := by
  rcases boundary_cases h hpattern with hfixed | ⟨test, left, right, hbound, hmem, r, hr⟩
  · exact standing_assertion hfixed
  · obtain ⟨hhead, ts, hlex⟩ := hapart.bound test left right hbound pattern hmem
    obtain ⟨parsed, hparsed⟩ := exists_parse_of_compile hr
    exact (standing_of_parse hlex hhead hparsed False.elim).mono False.elim

/-- Specials and boundaries that are kept apart can be read wherever they stand. -/
theorem standing_of_keepsApart (h : Settings.ofOptions o = .ok settings) (ho : o.VouchesForUnits) (hapart : o.KeepsApart) :
    settings.Standing False where
  rule rule hrule := by
    rcases Settings.mem_rules h hrule with ⟨entry, hentry, heq⟩ | ⟨himplied, hplain⟩
    · obtain ⟨⟨hhead, ts, hlex⟩, parsed, hparsed, hrepeat⟩ := hapart.specials entry hentry rule heq
      refine ⟨(standing_of_parse hlex hhead hparsed False.elim).mono fun _ => hrepeat, fun _ hatomic => ?_⟩
      have hunit := singleUnit_of_tokens (isSingleUnit_rule h ho hrule hatomic) hlex.tokens_eq
      exact ⟨opens_of_head hhead, ts, hlex, hunit.standsAsOne hlex.tokens_eq hhead hparsed hrepeat, False.elim⟩
    · exact standing_impliedRule himplied hplain
  left pattern hpattern := standing_boundary_of_keepsApart h hapart (.inl hpattern)
  right pattern hpattern := standing_boundary_of_keepsApart h hapart (.inr hpattern)

/-- Where it can be read, the pattern of a list is one item or one group, and a repeat after it applies to all of it if it
has something that can be repeated. It can be read and repeated if patterns are kept apart. -/
theorem isSingleUnit_pattern (hg : Generator.ofOptions o = .ok g) (hask : o.AsksForUnit) (ho : o.VouchesForUnits)
    (ht : g.pattern words = .ok (some t)) :
    (∀ parsed, parse t = .ok parsed → IsSingleUnit t ∧ (parsed.expr.isRepeatable = true →
      ∀ q us f, tokens q = .ok us → Quantifies us f → parse (t ++ q) = .ok ⟨f parsed.expr, parsed.names⟩)) ∧
      (o.KeepsApart → g.Storable words → ∃ parsed, parse t = .ok parsed ∧ parsed.expr.isRepeatable = true) := by
  obtain ⟨settings, hsettings, rfl⟩ := map_eq_ok hg
  obtain ⟨generation?, hgenerate, hpattern⟩ := map_eq_ok ht
  obtain ⟨generation, rfl, rfl⟩ := Option.map_eq_some_iff.1 hpattern
  have hmade := made_of_generate hgenerate
  have hname := Settings.isGroupName_of_ofOptions hsettings
  have hitems := Settings.filter_ne_nil hsettings words
  refine ⟨fun parsed hparsed => ?_, fun hapart hstorable => ?_⟩
  · obtain ⟨ts, hts⟩ := exists_tokens_of_parse hparsed
    have hunit := singleUnit_of_made hsettings hask ho hmade hts
    exact ⟨⟨ts, hts, hunit⟩, fun hrepeat q us f hq hf => hunit.parse_append hts hparsed hrepeat hq hf⟩
  · have hlength : ∀ x ∈ generation.vocabulary.words, x.length < boundLimit := fun x hx =>
      (Nat.le_add_right _ 2).trans_lt (hstorable generation hgenerate x hx).length_lt
    obtain ⟨parsed, hparsed, hrepeat, -⟩ :=
      (hmade.standing hname (standing_of_keepsApart hsettings ho hapart) hitems hlength).exists_parse
    exact ⟨parsed, hparsed, hrepeat⟩

def withDigit : Options where
  specials := [(.literal ['K'], { pattern := some ['\\', 'd'], atomic := some true })]

/-- Of a digit, which needs no group. -/
theorem isSingleUnit_pattern_digit : ∃ g parsed, Generator.ofOptions withDigit = .ok g ∧
    g.pattern [['K']] = .ok (some ['\\', 'd']) ∧ IsSingleUnit ['\\', 'd'] ∧ parse ['\\', 'd'] = .ok parsed ∧
      parse (['\\', 'd'] ++ ['+']) = .ok ⟨.rounds 1 none true parsed.expr, parsed.names⟩ := by
  have hlex : Lexes ['\\', 'd'] [.named .digit false] := lexes_token fun _ _ => rfl
  have ho : withDigit.VouchesForUnits := by
    intro entry hentry rule heq
    obtain rfl := List.mem_singleton.1 hentry
    obtain rfl := Except.ok.inj heq
    exact ⟨⟨_, rfl⟩, fun _ => ⟨_, hlex.tokens_eq, .item rfl⟩⟩
  have hapart : withDigit.KeepsApart := by
    refine ⟨nofun, fun entry hentry rule heq => ?_⟩
    obtain rfl := List.mem_singleton.1 hentry
    obtain rfl := Except.ok.inj heq
    exact ⟨⟨by decide, _, hlex⟩, _, rfl, rfl⟩
  obtain ⟨g, hg⟩ : ∃ g, Generator.ofOptions withDigit = .ok g := ⟨_, rfl⟩
  have hpattern : g.pattern [['K']] = .ok (some ['\\', 'd']) := by
    obtain rfl : Generator.mk .. = g := Except.ok.inj hg
    decide +kernel
  obtain ⟨hread, hrepeatable⟩ := isSingleUnit_pattern hg (.inl rfl) ho hpattern
  obtain ⟨parsed, hparsed, hrepeat⟩ := hrepeatable hapart (storable_of_all hg (by decide +kernel))
  obtain ⟨hunit, hquantified⟩ := hread parsed hparsed
  exact ⟨g, parsed, hg, hpattern, hunit, hparsed, hquantified hrepeat ['+'] [.plus] _ rfl (.greedy rfl)⟩

/-- The options in which `K` ends with a change of flags and `J` stands for the text of a repeat count. -/
def flagsAndCount : Options where
  specials := [(.literal ['K'], { pattern := some ['x', '(', '?', 'i', ')'] }),
    (.literal ['J'], { pattern := some ['\x7b', '2', '\x7d'] })]

/-- Patterns that can be read alone may leave nothing to repeat: an empty group that is optional, or a change of flags
before the text of a count. -/
theorem isSingleUnit_pattern_fails :
    ((withKey ['(', '?', ':', ')']).AsksForUnit ∧ (withKey ['(', '?', ':', ')']).VouchesForUnits ∧
      ∃ g, Generator.ofOptions (withKey ['(', '?', ':', ')']) = .ok g ∧
        g.pattern [['a'], ['a', 'K']] = .ok (some ['(', '?', ':', 'a', '(', '?', ':', '(', '?', ':', ')', ')', '?', ')']) ∧
        parse ['(', '?', ':', 'a', '(', '?', ':', '(', '?', ':', ')', ')', '?', ')'] = .error .nothingToRepeat) ∧
    (flagsAndCount.AsksForUnit ∧ flagsAndCount.VouchesForUnits ∧
      flagsAndCount.EachRule (fun rule => ∃ parsed, parse rule.pattern = .ok parsed ∧ parsed.expr.isRepeatable = true) ∧
      ∃ g, Generator.ofOptions flagsAndCount = .ok g ∧
        g.pattern [['K', 'J']] = .ok (some ['(', '?', ':', 'x', '(', '?', 'i', ')', '\x7b', '2', '\x7d', ')']) ∧
        parse ['(', '?', ':', 'x', '(', '?', 'i', ')', '\x7b', '2', '\x7d', ')'] = .error .nothingToRepeat) := by
  have hcompile : ∀ pattern ∈ [['(', '?', ':', ')'], ['x', '(', '?', 'i', ')'], ['\x7b', '2', '\x7d']],
      ∃ r, compile pattern = .ok r := by
    simp only [List.forall_mem_cons, List.not_mem_nil, false_imp_iff, implies_true, and_true]
    exact ⟨⟨_, rfl⟩, ⟨_, rfl⟩, ⟨_, rfl⟩⟩
  refine ⟨⟨.inl rfl, fun entry hentry rule heq => ?_, _, rfl, by decide +kernel, by decide +kernel⟩,
    .inl rfl, fun entry hentry rule heq => ?_, fun entry hentry rule heq => ?_, _, rfl, by decide +kernel,
    by decide +kernel⟩
  · obtain rfl := List.mem_singleton.1 hentry
    rw [(ofSpecial_literal heq).1]
    exact ⟨hcompile _ (by simp), by simp⟩
  · simp only [flagsAndCount, List.mem_cons, List.not_mem_nil, or_false] at hentry
    rcases hentry with rfl | rfl
    all_goals
      rw [(ofSpecial_literal heq).1]
      exact ⟨hcompile _ (by simp), by simp⟩
  · simp only [flagsAndCount, List.mem_cons, List.not_mem_nil, or_false] at hentry
    rcases hentry with rfl | rfl
    all_goals
      rw [(ofSpecial_literal heq).1]
      exact ⟨_, rfl, rfl⟩

end Options

end WordPattern
