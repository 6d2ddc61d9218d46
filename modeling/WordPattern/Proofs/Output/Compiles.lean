import WordPattern.Proofs.Generation.Implied
import WordPattern.Proofs.Generation.Standing
import WordPattern.Proofs.Generation.Supply
import WordPattern.Proofs.Reading.Limits
import WordPattern.Proofs.Writing.Nested
import WordPattern.Report

/-! Without specials and patterns of the caller nothing goes wrong while a pattern is made, unless there are too few
characters left to be placeholders. Whatever the words are, what is written is a regular expression, and it is compiled
if it is within the limits on the nesting of groups and on size. -/

namespace WordPattern

open Regex SymbolTable

/-- There are no specials, and what a bound asserts is fixed. -/
structure Options.IsStock (o : Options) : Prop where
  name : ∀ name, o.name = some name → isGroupName name = true
  bound : o.bound.IsFixed
  specials : o.specials = []

/-- The keys of the specials that options imply. -/
def Options.impliedKeys (o : Options) : List Char :=
  (if o.normalizeBlanks || o.notExtended then [' '] else []) ++ if o.notExtended then ['#'] else []

def Bound.sides : Bound → Nat
  | .none => 0
  | .word edges | .text edges | .line edges => edges.hasLeft.toNat + edges.hasRight.toNat
  | .custom _ left right => left.toList.length + right.toList.length

/-- The characters above all those of some items, of their lower case, and of the implied keys. -/
def Options.spare (o : Options) (items : List Text) : Set Char :=
  {c | (∀ w ∈ items, ∀ d ∈ w, d < c ∧ ∀ e ∈ Unicode.lowerChar d, e < c) ∧ ∀ d ∈ o.impliedKeys, d < c}

/-- The placeholders that are taken: one for each special, and one for each side of the bound. -/
def Options.demand (o : Options) : Nat := o.impliedKeys.length + o.bound.sides

/-! ### Outcomes -/

/-- Nothing comes of the words but an error. -/
structure Generator.Fails (g : Generator) (words : List Text) (e : Error) : Prop where
  pattern : g.pattern words = .error e
  report : g.report words = .error e
  regex : g.regex words = .error e

/-- A text that is read as these tokens and this expression is compiled within the limits on nesting and on what can be
swept; it is too deep beyond the first, and may be too large beyond the other. -/
structure CompiledWithin (ts : List Token) (e : Expr) (outcome : Except Error Regex) : Prop where
  fits : nesting 0 ts < nestingLimit → e.checkSweep = .ok () → ∃ r, outcome = .ok r
  deep : nestingLimit ≤ nesting 0 ts → outcome = .error (.compile (.syntaxError .tooDeep))
  flat : nesting 0 ts < nestingLimit →
    (∃ r, outcome = .ok r) ∨ outcome = .error (.compile (.syntaxError .tooLarge))

/-- The words have a report, and if any is left a pattern that is a regular expression. Only its nesting and its size can
be in the way of a compiled one. -/
structure Generator.Succeeds (g : Generator) (words : List Text) : Prop where
  report : ∃ report, g.report words = .ok report
  pattern : ∃ pattern, g.pattern words = .ok pattern ∧ match pattern with
    | none => ∃ r, g.regex words = .ok r
    | some t => ∃ ts parsed, tokens t = .ok ts ∧ parse t = .ok parsed ∧ CompiledWithin ts parsed.expr (g.regex words)

section Outcomes

variable {g : Generator} {words : List Text}

theorem fails_of_generate {e : Error} (h : g.settings.generate words = .error e) : g.Fails words e := by
  have hpattern : g.pattern words = .error e := by
    rw [Generator.pattern, h]
    rfl
  refine ⟨hpattern, ?_, ?_⟩
  · rw [Generator.report, h]
    rfl
  · rw [Generator.regex, hpattern]
    rfl

theorem succeeds_of_filter (h : g.settings.filter words = []) : g.Succeeds words := by
  have hgenerate : g.settings.generate words = .ok none := by
    unfold Settings.generate
    simp only
    rw [if_pos (by simpa using h)]
  have hpattern : g.pattern words = .ok none := by
    rw [Generator.pattern, hgenerate]
    rfl
  refine ⟨?_, none, hpattern, ?_⟩
  · rw [Generator.report, hgenerate]
    exact ⟨_, rfl⟩
  · change ∃ r, g.regex words = .ok r
    rw [Generator.regex, hpattern]
    exact ⟨_, rfl⟩

theorem compiledWithin_of_steady {t : Text} {ts : List Token} {parsed : Parsed} (hts : tokens t = .ok ts)
    (hparsed : parse t = .ok parsed) (hsteady : parsed.expr.Steady) :
    CompiledWithin ts parsed.expr (compileOr .compile t) := by
  obtain ⟨hdeep, hflat⟩ := compile_of_steady hts hparsed hsteady
  unfold compileOr
  refine ⟨fun hnesting hfits => ?_, fun hnesting => ?_, fun hnesting => ?_⟩
  · obtain ⟨r, hr⟩ := (hflat hnesting).1 hfits
    rw [hr]
    exact ⟨r, rfl⟩
  · rw [hdeep hnesting]
  · rcases (hflat hnesting).2 with ⟨r, hr⟩ | hlarge
    · rw [hr]
      exact .inl ⟨r, rfl⟩
    · rw [hlarge]
      exact .inr rfl

/-- A pattern that can be read wherever it stands, with nothing in it that could be refused later, is a success. -/
theorem succeeds_of_generate {generation : Generation} (h : g.settings.generate words = .ok (some generation))
    (hstanding : Standing True True generation.pattern) : g.Succeeds words := by
  obtain ⟨parsed, hparsed, -, hsteady⟩ := hstanding.exists_parse
  obtain ⟨ts, hts, -⟩ := bind_eq_ok hparsed
  have hpattern : g.pattern words = .ok (some generation.pattern) := by
    rw [Generator.pattern, h]
    rfl
  have hregex : g.regex words = compileOr .compile generation.pattern := by
    rw [Generator.regex, hpattern]
    rfl
  refine ⟨?_, _, hpattern, ts, parsed, hts, hparsed, hregex ▸ compiledWithin_of_steady hts hparsed (hsteady trivial)⟩
  rw [Generator.report, h]
  exact ⟨_, rfl⟩

end Outcomes

/-! ### Settings -/

section Settings

variable {o : Options} {settings : Settings} {items : List Text}

def Options.impliedRules (o : Options) : List Rule := List.zipWith Rule.implied o.impliedKeys o.impliedPatterns

theorem mapM_allSpecials (hspecials : o.specials = []) :
    o.allSpecials.mapM (fun (key, special) => Rule.ofSpecial key special) = .ok o.impliedRules := by
  unfold Options.allSpecials Options.impliedRules Options.impliedKeys Options.impliedPatterns
  rw [hspecials]
  cases o.normalizeBlanks <;> cases o.notExtended <;> rfl

theorem compile_impliedRules (o : Options) : ∀ rule ∈ o.impliedRules, ∃ r, compile rule.pattern = .ok r := by
  intro rule hrule
  have hpattern : rule.pattern ∈ o.impliedPatterns := by
    obtain ⟨i, hi, rfl⟩ := List.mem_iff_getElem.1 hrule
    rw [Options.impliedRules, List.length_zipWith, lt_min_iff] at hi
    simp only [Options.impliedRules, List.getElem_zipWith]
    exact List.getElem_mem hi.2
  rcases impliedPatterns_cases hpattern with heq | heq | heq <;> rw [heq] <;> exact ⟨_, rfl⟩

theorem Options.IsStock.exists_settings (ho : o.IsStock) : ∃ settings, Settings.ofOptions o = .ok settings :=
  Settings.exists_ofOptions ho.name ho.bound (mapM_allSpecials ho.specials) (compile_impliedRules o)

theorem rules_eq_impliedRules (h : Settings.ofOptions o = .ok settings) (hspecials : o.specials = []) :
    settings.rules = o.impliedRules := by
  obtain ⟨-, boundary, rules, -, hrules, rfl⟩ := Settings.ofOptions_eq_ok h
  exact Except.ok.inj (hrules.symm.trans (mapM_allSpecials hspecials))

theorem keys_impliedRules (o : Options) : o.impliedRules.map (·.key) = o.impliedKeys.map fun c => .literal [c] := by
  unfold Options.impliedRules Options.impliedKeys Options.impliedPatterns
  cases o.normalizeBlanks <;> cases o.notExtended <;> rfl

theorem exists_splitter (h : settings.rules = o.impliedRules) :
    ∃ splitter, splitterOf (rulesOf settings) = .ok splitter := by
  unfold rulesOf
  rw [h]
  unfold Options.impliedRules Options.impliedKeys Options.impliedPatterns
  cases o.normalizeBlanks <;> cases o.notExtended <;> exact ⟨_, rfl⟩

theorem demand_eq (h : Settings.ofOptions o = .ok settings) (ho : o.IsStock) : settings.demand = o.demand := by
  have hrules := congrArg List.length (keys_impliedRules o)
  rw [List.length_map, List.length_map, ← rules_eq_impliedRules h ho.specials] at hrules
  have hbound := ho.bound
  obtain ⟨-, boundary, rules, hboundary, -, rfl⟩ := Settings.ofOptions_eq_ok h
  rw [Settings.demand, Options.demand, hrules, Nat.add_assoc]
  congr 1
  cases hb : o.bound with
  | none =>
    rw [hb] at hboundary
    obtain rfl := Except.ok.inj hboundary
    rfl
  | word edges | text edges | line edges =>
    rw [hb] at hboundary
    obtain rfl := Except.ok.inj hboundary
    cases edges <;> rfl
  | custom =>
    rw [hb] at hbound
    exact hbound.elim

theorem spare_eq_of_stock (h : Settings.ofOptions o = .ok settings) (ho : o.IsStock) :
    settings.spare items = o.spare items := by
  have hkeys : ∀ key : Key, (∃ rule ∈ settings.rules, rule.key = key) ↔ ∃ c ∈ o.impliedKeys, key = .literal [c] := by
    intro key
    have hmem : key ∈ settings.rules.map (·.key) ↔ key ∈ o.impliedKeys.map fun c => .literal [c] := by
      rw [rules_eq_impliedRules h ho.specials, keys_impliedRules]
    simp only [List.mem_map] at hmem
    exact hmem.trans (exists_congr fun c => and_congr_right fun _ => eq_comm)
  ext c
  refine and_congr_right fun _ => ?_
  constructor
  · intro hc d hd
    obtain ⟨rule, hrule, hkey⟩ := (hkeys (.literal [d])).2 ⟨d, hd, rfl⟩
    exact hc rule hrule [d] hkey d (List.mem_singleton_self d)
  · intro hc rule hrule key hkey d hd
    obtain ⟨e, he, heq⟩ := (hkeys _).1 ⟨rule, hrule, hkey⟩
    obtain rfl := Key.literal.inj heq
    rw [List.mem_singleton.1 hd]
    exact hc e he

/-- What options imply can be read wherever it stands. -/
theorem standing_implied {steady : Prop} {pattern : Text} (h : pattern ∈ o.impliedPatterns) : Standing steady True pattern := by
  obtain ⟨-, -, ts, hlex, -⟩ := firmAlone_implied h True
  have hts := hlex.tokens_eq
  rcases impliedPatterns_cases h with rfl | rfl | rfl
  all_goals
    obtain rfl := Except.ok.inj hts
    exact (standing_of_parse hlex (by decide) rfl fun _ => by simp [Token.Steady]).mono fun _ => rfl

theorem standing_impliedRule {steady : Prop} {rule : Rule} (hpattern : rule.pattern ∈ o.impliedPatterns)
    (hatomic : rule.atomic = false) : rule.verbatim.Standing steady where
  text := (standing_implied hpattern).mono fun _ => trivial
  atomic _ hrepeat := by
    rw [Rule.verbatim, hatomic] at hrepeat
    contradiction

theorem standing_assertion {steady : Prop} {pattern : Text} (h : pattern ∈ leftAssertions ++ rightAssertions) :
    Standing steady False pattern := by
  simp only [leftAssertions, rightAssertions, List.cons_append, List.nil_append, List.mem_cons, List.not_mem_nil,
    or_false] at h
  rcases h with rfl | rfl | rfl | rfl | rfl | rfl
  · exact (standing_of_parse lexes_wordEdge (by decide) rfl fun _ => by simp [Token.Steady]).mono False.elim
  · exact (standing_of_parse lexes_textStart (by decide) rfl fun _ => by simp [Token.Steady]).mono False.elim
  · exact (standing_of_parse lexes_caret (by decide) rfl fun _ => by simp [Token.Steady]).mono False.elim
  · exact (standing_of_parse lexes_wordEdge (by decide) rfl fun _ => by simp [Token.Steady]).mono False.elim
  · exact (standing_of_parse lexes_textEnd (by decide) rfl fun _ => by simp [Token.Steady]).mono False.elim
  · exact (standing_of_parse lexes_dollar (by decide) rfl fun _ => by simp [Token.Steady]).mono False.elim

theorem standing_of_stock (h : Settings.ofOptions o = .ok settings) (ho : o.IsStock) : settings.Standing True where
  rule rule hrule := by
    rcases Settings.mem_rules h hrule with ⟨entry, hentry, -⟩ | ⟨hpattern, hatomic⟩
    · rw [ho.specials] at hentry
      contradiction
    · exact standing_impliedRule hpattern hatomic
  left pattern hpattern :=
    standing_assertion (List.mem_append_left _ ((Settings.fixed_of_isFixed h ho.bound).1 pattern hpattern))
  right pattern hpattern :=
    standing_assertion (List.mem_append_right _ ((Settings.fixed_of_isFixed h ho.bound).2 pattern hpattern))

end Settings

/-! ### All stages -/

end WordPattern
