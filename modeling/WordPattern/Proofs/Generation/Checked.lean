import WordPattern.Proofs.Generation.Source

/-! What the options say about the pattern that is generated. -/

namespace WordPattern

open Regex

def Bound.IsFixed : Bound → Prop
  | .custom _ _ _ => False
  | _ => True

theorem Bound.IsFixed.exists_boundary {bound : Bound} (h : bound.IsFixed) :
    ∃ boundary, Boundary.ofBound? bound = .ok boundary := by
  cases bound with
  | custom => exact h.elim
  | none | word | text | line => exact ⟨_, rfl⟩

namespace Settings

variable {o : Options} {settings : Settings}

/-- The settings that come from options. -/
theorem ofOptions_eq_ok (h : ofOptions o = .ok settings) :
    (∀ name, o.name = some name → isGroupName name = true) ∧ ∃ boundary rules,
      Boundary.ofBound? o.bound = .ok boundary ∧
      o.allSpecials.mapM (fun (key, special) => Rule.ofSpecial key special) = .ok rules ∧
      settings =
        { atomic := o.atomic
          mode := o.mode
          trim := o.trim || o.normalizeBlanks
          ignoreCase := o.ignoreCase
          multiline := o.multiline || (match o.bound with | .line _ => true | _ => false)
          notExtended := o.notExtended
          normalizeBlanks := o.normalizeBlanks
          name := o.name
          boundary := boundary
          rules := rules
          vet := o.vet } := by
  have hname : ∀ name, o.name = some name → isGroupName name = true := by
    intro name hn
    by_contra hinvalid
    unfold ofOptions at h
    simp [hn, hinvalid, throw, throwThe, MonadExceptOf.throw, bind, Except.bind] at h
  refine ⟨hname, ?_⟩
  unfold ofOptions at h
  rcases hn : o.name with _ | name
  on_goal 2 => have hvalid := hname name hn
  all_goals
    simp only [if_true, *] at h
    obtain ⟨boundary, hboundary, h⟩ := bind_eq_ok h
    obtain ⟨rules, hrules, h⟩ := bind_eq_ok h
    refine ⟨boundary, rules, hboundary, hrules, ?_⟩
    split_ifs at h
    · obtain ⟨-, -, h⟩ := bind_eq_ok h
      exact (Except.ok.inj h).symm
    · exact (Except.ok.inj h).symm

theorem isGroupName_of_ofOptions (h : ofOptions o = .ok settings) :
    ∀ name, settings.name = some name → isGroupName name = true := by
  obtain ⟨hname, _, _, -, -, rfl⟩ := ofOptions_eq_ok h
  exact hname

/-- Nothing is refused if the name is valid, the bound is fixed, and the rules can be made and compiled. -/
theorem exists_ofOptions {rules : List Rule} (hname : ∀ name, o.name = some name → isGroupName name = true)
    (hbound : o.bound.IsFixed) (hrules : o.allSpecials.mapM (fun (key, special) => Rule.ofSpecial key special) = .ok rules)
    (hvet : ∀ rule ∈ rules, ∃ r, Regex.compile rule.pattern = .ok r) : ∃ settings, ofOptions o = .ok settings := by
  obtain ⟨boundary, hboundary⟩ := hbound.exists_boundary
  have hcheck : ∀ settings : Settings, settings.rules = rules → settings.checkSpecials = .ok () := by
    rintro settings rfl
    refine forM_eq_ok fun rule hrule => ?_
    obtain ⟨r, hr⟩ := hvet rule hrule
    rw [hr]
  unfold ofOptions
  rw [hrules, hboundary]
  rcases hn : o.name with _ | name
  on_goal 2 => have hvalid := hname name hn
  all_goals
    simp only [if_true, *]
    cases o.vet with
    | false => exact ⟨_, rfl⟩
    | true => exact ⟨_, congrArg (· >>= fun _ => pure _) (hcheck _ rfl)⟩

theorem fixed_of_isFixed (h : ofOptions o = .ok settings) (hbound : o.bound.IsFixed) : settings.Fixed := by
  obtain ⟨-, boundary, rules, hboundary, -, rfl⟩ := ofOptions_eq_ok h
  have hfixed : ∀ (test : CharTest) (left right : Text) (edges : Edges), left ∈ leftAssertions → right ∈ rightAssertions →
      (∀ pattern, (Boundary.fixed test left right edges).left = some pattern → pattern ∈ leftAssertions) ∧
        ∀ pattern, (Boundary.fixed test left right edges).right = some pattern → pattern ∈ rightAssertions := by
    intro test left right edges hleft hright
    simp only [Boundary.fixed]
    refine ⟨fun pattern hp => ?_, fun pattern hp => ?_⟩
    · split_ifs at hp
      obtain rfl := Option.some.inj hp
      exact hleft
    · split_ifs at hp
      obtain rfl := Option.some.inj hp
      exact hright
  cases hb : o.bound with
  | none =>
    rw [hb] at hboundary
    obtain rfl := Except.ok.inj hboundary
    exact ⟨fun _ hp => by simp at hp, fun _ hp => by simp at hp⟩
  | word edges | text edges | line edges =>
    rw [hb] at hboundary
    obtain rfl := Except.ok.inj hboundary
    exact hfixed _ _ _ edges (by simp [leftAssertions]) (by simp [rightAssertions])
  | custom => rw [hb] at hbound; exact hbound.elim

end Settings

/-! ### Compiling -/

theorem compileOr_eq_ok {error : Reason → Error} {source : Text} {r : Regex} (h : compileOr error source = .ok r) :
    Regex.compile source = .ok r := by
  unfold compileOr at h
  split at h
  · rename_i r' hr'
    rw [hr', Except.ok.inj h]
  · contradiction

theorem compileOr_eq_error {error : Reason → Error} {source : Text} {e : Error} (h : compileOr error source = .error e) :
    ∃ x, Regex.compile source = .error x ∧ e = error (.syntaxError x) := by
  unfold compileOr at h
  split at h
  · contradiction
  · rename_i x hx
    exact ⟨x, hx, (Except.error.inj h).symm⟩

/-- The patterns of a boundary have been compiled. -/
theorem ofPatterns_eq_ok {test : Text} {left right : Option Text} {boundary : Boundary}
    (h : Boundary.ofPatterns test left right = .ok boundary) : boundary.left = left ∧ boundary.right = right ∧
      ∀ pattern ∈ left.toList ++ right.toList, ∃ r, Regex.compile pattern = .ok r := by
  unfold Boundary.ofPatterns at h
  split_ifs at h
  · contradiction
  · obtain ⟨regex, -, h⟩ := bind_eq_ok h
    obtain ⟨u, hloop, h⟩ := bind_eq_ok h
    obtain rfl := Except.ok.inj h
    refine ⟨rfl, rfl, fun pattern hpattern => ?_⟩
    have hp := forIn_eq_ok hloop pattern hpattern
    obtain ⟨r, hr, -⟩ := map_eq_ok (show (compileOr _ pattern).map _ = .ok () from hp)
    exact ⟨r, compileOr_eq_ok hr⟩

/-- What a boundary writes is a fixed assertion, or a given pattern that can be compiled. -/
theorem boundary_cases {o : Options} {settings : Settings} (h : Settings.ofOptions o = .ok settings) {pattern : Text}
    (hpattern : settings.boundary.bind (·.left) = some pattern ∨ settings.boundary.bind (·.right) = some pattern) :
    pattern ∈ leftAssertions ++ rightAssertions ∨ ∃ test left right, o.bound = .custom test left right ∧
      pattern ∈ left.toList ++ right.toList ∧ ∃ r, Regex.compile pattern = .ok r := by
  have hfixed : o.bound.IsFixed → pattern ∈ leftAssertions ++ rightAssertions := fun hbound =>
    have hfixed := Settings.fixed_of_isFixed h hbound
    hpattern.elim (fun hleft => List.mem_append_left _ (hfixed.1 pattern hleft))
      fun hright => List.mem_append_right _ (hfixed.2 pattern hright)
  obtain ⟨-, boundary, rules, hboundary, -, rfl⟩ := Settings.ofOptions_eq_ok h
  cases hb : o.bound with
  | none | word | text | line =>
    rw [hb] at hfixed
    exact .inl (hfixed trivial)
  | custom test left right =>
    rw [hb] at hboundary
    obtain ⟨custom, hcustom, rfl⟩ := map_eq_ok (show (Boundary.ofPatterns test left right).map some = _ from hboundary)
    obtain ⟨hleft, hright, hcompile⟩ := ofPatterns_eq_ok hcustom
    have hmem : pattern ∈ left.toList ++ right.toList := by
      rw [← hleft, ← hright]
      simpa using hpattern
    exact .inr ⟨test, left, right, rfl, hmem, hcompile pattern hmem⟩

namespace Generator

variable {g : Generator} {words : List Text} {r : Regex}

/-- The compiled pattern comes from all stages, unless no word is left. -/
theorem regex_eq_ok (h : g.regex words = .ok r) :
    (g.settings.filter words = [] ∧ Regex.compile nothingText = .ok r) ∨
      ∃ generation : Generation, generation.Made g.settings words ∧ Regex.compile generation.pattern = .ok r := by
  obtain ⟨pattern, hpattern, hcompile⟩ := bind_eq_ok h
  obtain ⟨made, hmade, rfl⟩ := map_eq_ok hpattern
  cases made with
  | none =>
    refine .inl ⟨?_, compileOr_eq_ok hcompile⟩
    unfold Settings.generate at hmade
    simp only at hmade
    split_ifs at hmade with hempty
    · simpa using hempty
    · obtain ⟨table, -, hmade⟩ := bind_eq_ok hmade
      obtain ⟨vocabulary, -, hmade⟩ := bind_eq_ok hmade
      exact absurd (Except.ok.inj hmade) (Option.some_ne_none _)
  | some generation => exact .inr ⟨generation, made_of_generate hmade, compileOr_eq_ok hcompile⟩

theorem compile_nothing : Regex.compile nothingText = .ok ⟨nothingText, .look true (.sweep .empty), []⟩ := rfl

theorem matchAt?_nothing (p : Cursor) : matchAt? (.look true (.sweep .empty)) p = none := rfl

/-- What can go wrong: the symbol table, the vocabulary, or the compilation of the pattern. -/
theorem regex_eq_error {e : Error} (h : g.regex words = .error e) :
    SymbolTable.ofWords g.settings (g.settings.filter words) = .error e ∨
      (∃ table, SymbolTable.ofWords g.settings (g.settings.filter words) = .ok table ∧
        Vocabulary.ofWords g.settings table (g.settings.filter words) = .error e) ∨
      ∃ generation : Generation, generation.Made g.settings words ∧
        ∃ x, Regex.compile generation.pattern = .error x ∧ e = .compile (.syntaxError x) := by
  rcases bind_eq_error h with h | ⟨pattern, hpattern, h⟩
  · have hmade := map_eq_error h
    unfold Settings.generate at hmade
    simp only at hmade
    split_ifs at hmade
    rcases bind_eq_error hmade with hmade | ⟨table, htable, hmade⟩
    · exact .inl hmade
    · rcases bind_eq_error hmade with hmade | ⟨vocabulary, -, hmade⟩
      · exact .inr (.inl ⟨table, htable, hmade⟩)
      · contradiction
  · obtain ⟨made, hmade, rfl⟩ := map_eq_ok hpattern
    obtain ⟨x, hx, rfl⟩ := compileOr_eq_error h
    cases made with
    | none =>
      rw [Option.map_none, Option.getD_none, compile_nothing] at hx
      contradiction
    | some generation => exact .inr (.inr ⟨generation, made_of_generate hmade, x, hx, rfl⟩)

end Generator

/-- A pattern of given options that has been seen to compile. -/
theorem exists_regex {o : Options} {g : Generator} {words : List Text} (hg : Generator.ofOptions o = .ok g)
    (h : ((Generator.ofOptions o).bind fun g => g.regex words).toOption.isSome = true) :
    ∃ r, g.regex words = .ok r := by
  rw [hg, Except.bind] at h
  cases hr : g.regex words with
  | ok r => exact ⟨r, rfl⟩
  | error e => rw [hr] at h; contradiction

/-! ### Memory -/

/-- No text that a program holds takes more bytes. -/
def Text.Storable (t : Text) : Prop := t.byteCount < 0x8000000000000000

instance (t : Text) : Decidable t.Storable := inferInstanceAs (Decidable (_ < _))

theorem length_le_byteCount (t : Text) : t.length ≤ t.byteCount := by
  induction t with
  | nil => exact Nat.le_refl 0
  | cons c t ih =>
    have := c.utf8Size_pos
    rw [List.length_cons, Text.byteCount]
    omega

theorem byteCount_le_of_sublist {s t : Text} (h : s.Sublist t) : s.byteCount ≤ t.byteCount := by
  induction h with
  | slnil => exact Nat.le_refl 0
  | cons c _ ih => exact Nat.le_add_left_of_le ih
  | cons_cons c _ ih => exact Nat.add_le_add_left ih _

/-- A storable text is far shorter than the limit on counts. -/
theorem Text.Storable.length_lt {t : Text} (h : t.Storable) : t.length + 2 < boundLimit := by
  have := length_le_byteCount t
  unfold Storable at h
  unfold boundLimit
  omega

end WordPattern
