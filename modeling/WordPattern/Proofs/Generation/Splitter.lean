import WordPattern.Proofs.Generation.Placeholders
import WordPattern.Proofs.Generation.Specials
import WordPattern.Proofs.Reading.Literals

/-! How words are cut where all keys are literal: from left to right, each time at the first key in order that the rest
of the word begins with.

The splitter is an ordered choice of the keys, each in a group of its own. It is swept as a whole, so what it finds at a
place is the first branch that matches there, and only the group of this branch is recorded. -/

namespace WordPattern

open Regex

/-- The rule finds its key as it is. -/
def Rule.IsLiteral (rule : Rule) : Prop :=
  ∃ key, rule.key = .literal key ∧ key ≠ [] ∧ rule.finder = Regex.quote key

theorem isLiteral_of_ofSpecial {text : Text} {special : Special} {rule : Rule}
    (h : Rule.ofSpecial (.literal text) special = .ok rule) : rule.IsLiteral := by
  unfold Rule.ofSpecial at h
  simp only at h
  split at h
  · contradiction
  · split_ifs at h with hempty
    · contradiction
    · obtain rfl := Except.ok.inj h
      exact ⟨text, rfl, by simpa using hempty, rfl⟩

/-- Options whose keys are literal imply no other keys. -/
theorem isLiteral_of_mem_rules {o : Options} {settings : Settings} (h : Settings.ofOptions o = .ok settings)
    (hliteral : ∀ entry ∈ o.specials, ∃ text, entry.1 = .literal text) :
    ∀ rule ∈ settings.rules, rule.IsLiteral := by
  intro rule hrule
  obtain ⟨-, boundary, rules, -, hrules, rfl⟩ := Settings.ofOptions_eq_ok h
  obtain ⟨⟨key, special⟩, hentry, heq⟩ := (mapM_eq_ok hrules).1 rule hrule
  have hkey : ∃ text, key = .literal text := by
    rcases mem_allSpecials hentry with hentry | ⟨text, pattern, heq, -⟩
    · exact hliteral _ hentry
    · exact ⟨text, (Prod.mk.inj heq).1⟩
  obtain ⟨text, rfl⟩ := hkey
  exact isLiteral_of_ofSpecial heq

/-- The text of a piece, with the label of a special for the special. -/
def Piece.source : Piece → Text
  | .literal text => text
  | .special s => s.label

namespace SymbolTable

/-! ### Reading the splitter -/

/-- The tokens of the finder of the key at an index. -/
def finderTokens (i : Nat) (key : Text) : List Token := .opening (.named (groupName i)) :: key.map .char ++ [.close]

def splitterTokens (i : Nat) : List Text → List Token
  | [] => []
  | [key] => finderTokens i key
  | key :: rest => finderTokens i key ++ .bar :: splitterTokens (i + 1) rest

def keyExpr (key : Text) : Expr := .sequence (key.map (.char · false))

/-- The keys as branches, in groups that are numbered from `i` on. -/
def keyBranches (i : Nat) : List Text → List Expr
  | [] => []
  | key :: rest => .capture i (keyExpr key) :: keyBranches (i + 1) rest

def keyNames (i : Nat) : List Text → List (Text × Nat)
  | [] => []
  | _ :: rest => (groupName i, i + 1) :: keyNames (i + 1) rest

theorem isAlphanumeric_of_isDigit {c : Char} (h : c.isDigit = true) : Unicode.isAlphanumeric c = true := by
  have hdigits : ∀ n < 58, (Char.ofNat n).isDigit = true → Unicode.isAlphanumeric (Char.ofNat n) = true := by
    decide
  have hlt : c.toNat < 58 := by
    simp only [Char.isDigit, Bool.and_eq_true, decide_eq_true_eq] at h
    exact Nat.lt_succ_of_le (UInt32.le_iff_toNat_le.1 h.2)
  rw [← Char.ofNat_toNat c] at h ⊢
  exact hdigits _ hlt h

theorem isGroupName_groupName (i : Nat) : isGroupName (groupName i) = true := by
  have hword : ∀ c ∈ ['m', 's', 'p', 'e', 'c', 'i', 'a', 'l'], (Unicode.isAlphanumeric c || c = '_') = true :=
    List.all_eq_true.1 (by decide)
  have hfirst : Unicode.isAlphabetic 'l' = true := by decide
  have hcons : groupName i = 'l' :: (['m', 's', 'p', 'e', 'c', 'i', 'a', 'l'] ++ Nat.toDigits 10 i) := rfl
  rw [hcons, isGroupName, hfirst, Bool.true_or, Bool.true_and, List.all_eq_true]
  intro c hc
  rcases List.mem_append.1 hc with hc | hc
  · exact hword c hc
  · rw [isAlphanumeric_of_isDigit (Nat.isDigit_of_mem_toDigits (by decide) (by decide) hc)]
    rfl

theorem groupName_injective : Function.Injective groupName := by
  intro i j h
  have hdigits : Nat.toDigits 10 i = Nat.toDigits 10 j := List.append_cancel_left h
  rw [← decimal_toDigits i, hdigits, decimal_toDigits]

theorem lexes_finder (i : Nat) (key : Text) :
    Lexes (['(', '?', '<'] ++ groupName i ++ '>' :: Regex.quote key ++ [')']) (finderTokens i key) := by
  have hclose : Opens [')'] := opens_cons (by decide) _
  have h := (lexes_named (isGroupName_groupName i)).append ((lexes_quote key).1.append lexes_close hclose)
    ((lexes_quote key).2.append hclose)
  simpa [finderTokens] using h

theorem lexes_splitter {i : Nat} {rules : List Rule} (h : ∀ rule ∈ rules, rule.IsLiteral) :
    Lexes (Text.join ['|'] (finders i rules)) (splitterTokens i (rules.map (·.key.display))) ∧
      Opens (Text.join ['|'] (finders i rules)) := by
  induction rules generalizing i with
  | nil => exact ⟨lexes_nil, opens_nil⟩
  | cons rule rest ih =>
    obtain ⟨⟨key, hkey, -, hfinder⟩, hrest⟩ := List.forall_mem_cons.1 h
    have hdisplay : rule.key.display = key := by
      rw [hkey]
      rfl
    have hhead := lexes_finder i key
    rw [← hfinder] at hhead
    cases rest with
    | nil =>
      refine ⟨?_, opens_cons (by decide) _⟩
      rw [List.map_cons, hdisplay]
      exact hhead
    | cons rule' rest =>
      obtain ⟨hlex, hopen⟩ := ih (i := i + 1) hrest
      have hbar : Opens ['|'] := opens_cons (by decide) _
      refine ⟨?_, opens_cons (by decide) _⟩
      rw [List.map_cons, hdisplay]
      have h := hhead.append (lexes_bar.append hlex hopen) (hbar.append hopen)
      simpa [splitterTokens, Text.join, finders] using h

/-- Reading the finder of a key adds one item. -/
theorem steps_finder {s : ParseState} (hcase : s.flags.ignoreCase = false) (key : Text) :
    s.steps (finderTokens s.groups key) = .ok { s with
      top := { s.top with items := .capture (s.groups + 1) (keyExpr key) :: s.top.items, tail := .item }
      groups := s.groups + 1
      names := (groupName s.groups, s.groups + 1) :: s.names
      sizes := (s.groups + 1, (keyExpr key).size) :: s.sizes } := by
  let opened : ParseState := { s.openCapture with names := (groupName s.groups, s.groups + 1) :: s.names }
  obtain ⟨tail, hchars⟩ := opened.steps_chars key
  have hflags : opened.flags = s.flags := rfl
  rw [hflags, hcase] at hchars
  rw [finderTokens, List.cons_append, ParseState.steps]
  change opened.steps _ = _
  rw [ParseState.steps_append, hchars]
  have hkept : s.flags.apply {} = s.flags := rfl
  simp [opened, ParseState.steps, ParseState.step, ParseState.openCapture, ParseState.openGroup, ParseState.closeGroup,
    ParseState.push, ParseState.modifyTop, Frame.start, Frame.body, Frame.branch, GroupKind.wrap, Expr.choice,
    Expr.isRepeatable, bind, Except.bind, keyExpr, hkept]

/-- Reading the splitter from the finder of a key on: each finder becomes the only item of a branch. -/
theorem steps_splitter {s : ParseState} (hcase : s.flags.ignoreCase = false) (hitems : s.top.items = [])
    {keys : List Text} (hkeys : keys ≠ []) : ∃ s', s.steps (splitterTokens s.groups keys) = .ok s' ∧
      s'.top.body = .choice (s.top.branches.reverse ++ keyBranches (s.groups + 1) keys) ∧ s'.around = s.around ∧
        s'.names.reverse = s.names.reverse ++ keyNames s.groups keys := by
  induction keys generalizing s with
  | nil => contradiction
  | cons key rest ih =>
    have hfinder := steps_finder hcase key
    cases rest with
    | nil =>
      refine ⟨_, hfinder, ?_, rfl, ?_⟩
      · simp [Frame.body, Frame.branch, hitems, Expr.sequence, keyBranches]
      · simp [keyNames]
    | cons key' rest =>
      obtain ⟨s', hsteps, hbody, haround, hnames⟩ := ih (s := ParseState.endBranch { s with
        top := { s.top with items := .capture (s.groups + 1) (keyExpr key) :: s.top.items, tail := .item }
        groups := s.groups + 1
        names := (groupName s.groups, s.groups + 1) :: s.names
        sizes := (s.groups + 1, (keyExpr key).size) :: s.sizes }) hcase rfl (by simp)
      refine ⟨s', ?_, ?_, haround, ?_⟩
      · rw [splitterTokens, ParseState.steps_append, hfinder]
        · exact hsteps
        · simp
      · rw [hbody]
        simp [ParseState.endBranch, ParseState.modifyTop, Frame.branch, hitems, Expr.sequence, keyBranches]
      · rw [hnames]
        simp [ParseState.endBranch, ParseState.modifyTop, keyNames]

theorem parse_splitter {rules : List Rule} (hne : rules ≠ []) (h : ∀ rule ∈ rules, rule.IsLiteral) :
    parse (Text.join ['|'] (finders 0 rules)) =
      .ok ⟨.choice (keyBranches 1 (rules.map (·.key.display))), keyNames 0 (rules.map (·.key.display))⟩ := by
  obtain ⟨s, hsteps, hbody, haround, hnames⟩ := @steps_splitter .start rfl rfl (rules.map (·.key.display)) (by simpa)
  have hsteps : ParseState.start.steps (splitterTokens 0 (rules.map (·.key.display))) = .ok s := hsteps
  have haround : s.around = [] := haround
  unfold parse
  rw [(lexes_splitter h).1.tokens_eq]
  simp only [bind, Except.bind, hsteps, haround, hbody, hnames]
  rfl

/-! ### Compiling the splitter -/

theorem regular_keyExpr (key : Text) : (keyExpr key).isRegular [] = true ∧ (keyExpr key).references = [] := by
  have hfold : ∀ t : Text, ((t.map (Expr.char · false)).foldr Expr.seq .empty).isRegular [] = true ∧
      ((t.map (Expr.char · false)).foldr Expr.seq .empty).references = [] := by
    intro t
    induction t with
    | nil => exact ⟨rfl, rfl⟩
    | cons c t ih => exact ⟨by simpa [Expr.isRegular] using ih.1, by simpa [Expr.references] using ih.2⟩
  unfold keyExpr Expr.sequence
  split
  · exact ⟨rfl, rfl⟩
  · rename_i e heq
    obtain ⟨c, -, rfl⟩ := List.mem_map.1 (heq ▸ List.mem_singleton_self e)
    exact ⟨rfl, rfl⟩
  · exact hfold key

theorem regular_keyBranches (i : Nat) (keys : List Text) :
    ((keyBranches i keys).foldr Expr.alt .fail).isRegular [] = true ∧
      ((keyBranches i keys).foldr Expr.alt .fail).references = [] := by
  induction keys generalizing i with
  | nil => exact ⟨rfl, rfl⟩
  | cons key rest ih =>
    obtain ⟨hregular, hreferences⟩ := regular_keyExpr key
    obtain ⟨hregular', hreferences'⟩ := ih (i + 1)
    exact ⟨by simp [keyBranches, Expr.isRegular, hregular, hregular'],
      by simp [keyBranches, Expr.references, hreferences, hreferences']⟩

theorem planWhole_of_isSwept {e : Expr} (hlook : e.finalLook? = none) (hreferences : e.references = [])
    (hswept : e.isSwept [] false true = true) : e.planWhole = e.swept := by
  rw [Expr.planWhole, hlook]
  simp only [hreferences]
  unfold Expr.plan
  rw [if_pos hswept]

/-- The splitter is swept as a whole. -/
theorem planWhole_keyBranches {i : Nat} {keys : List Text} (hkeys : keys ≠ []) :
    (Expr.choice (keyBranches i keys)).planWhole = (Expr.choice (keyBranches i keys)).swept := by
  cases keys with
  | nil => contradiction
  | cons key rest =>
    cases rest with
    | nil =>
      obtain ⟨hregular, hreferences⟩ := regular_keyExpr key
      have hswept : (Expr.capture i (keyExpr key)).isSwept [] false true = true := by
        simp [Expr.isSwept, Expr.isRegular, hregular]
      exact planWhole_of_isSwept rfl hreferences hswept
    | cons key' rest =>
      obtain ⟨hregular, hreferences⟩ := regular_keyBranches i (key :: key' :: rest)
      refine planWhole_of_isSwept rfl hreferences ?_
      simp only [Expr.choice, keyBranches, List.foldr_cons] at hregular ⊢
      simp [Expr.isSwept, hregular]

theorem of_splitterOf {rules : List Rule} (hne : rules ≠ []) (h : ∀ rule ∈ rules, rule.IsLiteral)
    {splitter : Option Regex} (hs : splitterOf rules = .ok splitter) : ∃ regex, splitter = some regex ∧
      regex.plan = .sweep (.choice (keyBranches 1 (rules.map (·.key.display)))) ∧
        regex.names = keyNames 0 (rules.map (·.key.display)) := by
  unfold splitterOf at hs
  rw [if_neg (by simpa using hne)] at hs
  obtain ⟨regex, hregex, rfl⟩ := map_eq_ok hs
  refine ⟨regex, rfl, ?_⟩
  have hcompile := compileOr_eq_ok hregex
  unfold compile at hcompile
  obtain ⟨ts, -, hcompile⟩ := bind_eq_ok hcompile
  simp only [bind, Except.bind] at hcompile
  split_ifs at hcompile
  obtain ⟨parsed, hparsed, hcompile⟩ := bind_eq_ok (show read _ = .ok regex from hcompile)
  obtain rfl := Except.ok.inj ((parse_splitter hne h).symm.trans hparsed)
  obtain ⟨plan, hplan, hcompile⟩ := bind_eq_ok hcompile
  obtain rfl := Except.ok.inj hcompile
  rw [planWhole_keyBranches (by simpa using hne)] at hplan
  obtain ⟨-, -, hplan⟩ := bind_eq_ok hplan
  exact ⟨(Except.ok.inj hplan).symm, rfl⟩

end SymbolTable

/-! ### Matching the splitter -/

def Regex.Cursor.beyond (p : Cursor) (t : Text) : Cursor := ⟨t.reverse ++ p.before, p.after.drop t.length⟩

theorem Regex.Cursor.beyond_cons (p : Cursor) (c : Char) (t : Text) :
    p.beyond (c :: t) = (Cursor.mk (c :: p.before) (p.after.drop 1)).beyond t := by
  simp [Cursor.beyond]

namespace SymbolTable

/-- A key matches where the text goes on with it. -/
theorem sweep_keyExpr (key : Text) (place : List Nat) (k : Continuation) (p : Path) (tried : Tried) :
    (keyExpr key).sweep .ahead place false k p tried =
      if key.isPrefixOf p.cursor.after then k (p.moveTo (p.cursor.beyond key)) tried else .error tried := by
  have hchar : ∀ (c : Char) (t : Text) (k k' : Continuation) (p : Path),
      (∀ q, k' q tried = if t.isPrefixOf q.cursor.after then k (q.moveTo (q.cursor.beyond t)) tried else .error tried) →
        Walk.one .ahead (sameChar false c) k' p tried =
          if (c :: t).isPrefixOf p.cursor.after then k (p.moveTo (p.cursor.beyond (c :: t))) tried
          else .error tried := by
    intro c t k k' p hk
    obtain ⟨⟨before, after⟩, starts, stops⟩ := p
    cases after with
    | nil => rfl
    | cons d after =>
      simp only [Walk.one, Cursor.step?, sameChar, Bool.false_eq_true, if_false, hk, List.isPrefixOf]
      by_cases hcd : c = d
      · subst hcd
        simp [Path.moveTo, Cursor.beyond_cons]
      · simp [hcd]
  have hfold : ∀ (t : Text) (place : List Nat) (p : Path),
      ((t.map (Expr.char · false)).foldr Expr.seq .empty).sweep .ahead place false k p tried =
        if t.isPrefixOf p.cursor.after then k (p.moveTo (p.cursor.beyond t)) tried else .error tried := by
    intro t
    induction t with
    | nil => exact fun _ _ => rfl
    | cons c t ih => exact fun place p => hchar c t k _ p fun q => ih (1 :: place) q
  unfold keyExpr Expr.sequence
  split
  · rename_i heq
    obtain rfl := List.map_eq_nil_iff.1 heq
    rfl
  · rename_i e heq
    obtain ⟨c, rfl, rfl⟩ := List.map_eq_singleton_iff.1 heq
    exact hchar c [] k k p fun q => rfl
  · exact hfold key place p

theorem sweep_capture (i : Nat) (key : Text) (place : List Nat) (p : Cursor) (tried : Tried) :
    (Expr.capture i (keyExpr key)).sweep .ahead place false Walk.finish (.start p) tried =
      if key.isPrefixOf p.after then .ok ⟨p.beyond key, [(i, p)], [(i, p.beyond key)]⟩ else .error tried :=
  sweep_keyExpr key (0 :: place) _ _ tried

variable {splitter : Regex}

theorem lookup_keyNames (i j : Nat) (keys : List Text) : (keyNames i keys).reverse.lookup (groupName j) =
    if i ≤ j ∧ j < i + keys.length then some (j + 1) else none := by
  induction keys generalizing i with
  | nil => simp [keyNames]
  | cons key rest ih =>
    rw [keyNames, List.reverse_cons, List.lookup_append, ih, List.length_cons]
    by_cases hij : j = i
    · subst hij
      rw [if_neg (by omega), if_pos (by omega)]
      rw [List.lookup_cons, BEq.rfl, Option.none_or]
    · have hne : (groupName j == groupName i) = false := beq_false_of_ne fun h => hij (groupName_injective h)
      rw [List.lookup_cons, hne, List.lookup_nil, Option.or_none]
      exact if_congr (by omega) rfl rfl

/-- The splitter finds the first symbol whose label comes next, and the symbol claims the match. -/
theorem sweep_keyBranches {i : Nat} {entries : List Symbol} (hnames : ∀ j, i ≤ j → j < i + entries.length →
      splitter.names.reverse.lookup (groupName j) = some (j + 1)) (place : List Nat) (p : Cursor) (tried : Tried) :
    let out := ((keyBranches (i + 1) (entries.map (·.label))).foldr Expr.alt .fail).sweep .ahead place false
      Walk.finish (.start p) tried
    match entries.find? (·.label.isPrefixOf p.after) with
    | none => out = .error tried
    | some s => ∃ g, i < g ∧ out = .ok ⟨p.beyond s.label, [(g, p)], [(g, p.beyond s.label)]⟩ ∧
        claimant? splitter ⟨p, ⟨p.beyond s.label, [(g, p)], [(g, p.beyond s.label)]⟩⟩ i entries = some s := by
  induction entries generalizing i place with
  | nil => rfl
  | cons e rest ih =>
    have hrest := ih (i := i + 1) (fun j hle hlt => hnames j (by omega) (by simp; omega)) (1 :: place)
    have hname := hnames i (Nat.le_refl i) (by simp)
    simp only [List.map_cons, keyBranches, List.foldr_cons, Expr.sweep, Bool.false_eq_true, if_false, Walk.orElse,
      List.find?_cons] at hrest ⊢
    have hcapture := sweep_capture (i + 1) e.label (0 :: place) p tried
    simp only [Expr.sweep] at hcapture
    rw [hcapture]
    by_cases hbegins : e.label.isPrefixOf p.after
    · simp only [hbegins, if_true]
      refine ⟨i + 1, by omega, rfl, ?_⟩
      have hclaim : (splitter.named? ⟨p, ⟨p.beyond e.label, [(i + 1, p)], [(i + 1, p.beyond e.label)]⟩⟩
          (groupName i)).isSome = true := by
        simp [Regex.named?, hname, Match.capture?, Path.capture?]
      rw [claimant?, if_pos hclaim]
    · simp only [hbegins, Bool.false_eq_true, if_false]
      cases hfind : rest.find? (·.label.isPrefixOf p.after) with
      | none => simpa [hfind] using hrest
      | some s =>
        rw [hfind] at hrest
        obtain ⟨g, hg, hout, hclaim⟩ := hrest
        refine ⟨g, by omega, hout, ?_⟩
        have hother : ¬ (splitter.named? ⟨p, ⟨p.beyond s.label, [(g, p)], [(g, p.beyond s.label)]⟩⟩
            (groupName i)).isSome = true := by
          have hne : (i + 1 == g) = false := beq_false_of_ne (by omega)
          simp [Regex.named?, hname, Match.capture?, Path.capture?, List.lookup_cons, hne]
        rw [claimant?, if_neg hother]
        exact hclaim

theorem sweep_choice (i : Nat) (keys : List Text) (p : Cursor) :
    (Expr.choice (keyBranches i keys)).sweep .ahead [] false Walk.finish (.start p) [] =
      ((keyBranches i keys).foldr Expr.alt .fail).sweep .ahead [] false Walk.finish (.start p) [] := by
  match keys with
  | [] => rfl
  | [key] =>
    have hcapture := sweep_capture i key
    have hchoice : Expr.choice (keyBranches i [key]) = .capture i (keyExpr key) := rfl
    have hfold : (keyBranches i [key]).foldr Expr.alt .fail = .alt (.capture i (keyExpr key)) .fail := rfl
    rw [hchoice, hfold, Expr.sweep, hcapture]
    simp only [Bool.false_eq_true, if_false, Walk.orElse, hcapture]
    split_ifs <;> rfl
  | _ :: _ :: _ => rfl

/-- A splitter for the labels of some symbols. -/
structure Splits (splitter : Regex) (entries : List Symbol) : Prop where
  plan : splitter.plan = .sweep (.choice (keyBranches 1 (entries.map (·.label))))
  names : splitter.names = keyNames 0 (entries.map (·.label))
  ne_nil : ∀ s ∈ entries, s.label ≠ []

variable {entries : List Symbol} {table : SymbolTable}

/-- The first symbol whose label comes next. -/
def next? (entries : List Symbol) (text : Text) : Option Symbol := entries.find? (·.label.isPrefixOf text)

theorem Splits.matchAt?_eq (h : Splits splitter entries) (p : Cursor) : matchAt? splitter.plan p =
    match ((keyBranches 1 (entries.map (·.label))).foldr Expr.alt .fail).sweep .ahead [] false Walk.finish (.start p)
      [] with
    | .ok q => some ⟨p, q⟩
    | .error _ => none := by
  rw [matchAt?, h.plan]
  simp only [Plan.walk, Walk.once, forget_start, sweep_choice]
  cases ((keyBranches 1 (entries.map (·.label))).foldr Expr.alt .fail).sweep .ahead [] false Walk.finish (.start p) []
    <;> rfl

theorem Splits.lookup_names (h : Splits splitter entries) (j : Nat) (_ : 0 ≤ j) (hlt : j < 0 + entries.length) :
    splitter.names.reverse.lookup (groupName j) = some (j + 1) := by
  rw [h.names, lookup_keyNames, if_pos (by simpa using hlt)]

theorem Splits.matchAt?_eq_none (h : Splits splitter entries) {p : Cursor} (hnext : next? entries p.after = none) :
    matchAt? splitter.plan p = none := by
  have hsweep := sweep_keyBranches h.lookup_names [] p []
  unfold next? at hnext
  rw [hnext] at hsweep
  rw [h.matchAt?_eq, hsweep]

theorem Splits.matchAt?_eq_some (h : Splits splitter entries) {p : Cursor} {s : Symbol}
    (hnext : next? entries p.after = some s) : ∃ m, matchAt? splitter.plan p = some m ∧ m.start = p ∧
      m.stop = p.beyond s.label ∧ claimant? splitter m 0 entries = some s := by
  have hsweep := sweep_keyBranches h.lookup_names [] p []
  unfold next? at hnext
  rw [hnext] at hsweep
  obtain ⟨g, hg, hout, hclaim⟩ := hsweep
  refine ⟨_, by rw [h.matchAt?_eq, hout], rfl, ?_, hclaim⟩
  have hzero : (0 == g) = false := beq_false_of_ne (by omega)
  simp [Match.stop, Match.capture?, Path.capture?, List.lookup_cons, hzero]

/-! ### Cutting words -/

/-- Cuts a text at labels from left to right. The text before it from the last label on is `pending`, and the next
`inside` characters belong to a label. -/
def scan (entries : List Symbol) (pending : Text) : (inside : Nat) → Text → List Piece
  | _, [] => literalPiece pending
  | inside + 1, _ :: rest => scan entries pending inside rest
  | 0, c :: rest =>
    match next? entries (c :: rest) with
    | some s => literalPiece pending ++ .special s :: scan entries [] (s.label.length - 1) rest
    | none => scan entries (pending ++ [c]) 0 rest

theorem next?_spec {text : Text} {s : Symbol} (h : next? entries text = some s) :
    s ∈ entries ∧ ∃ rest, text = s.label ++ rest := by
  refine ⟨List.mem_of_find?_eq_some h, ?_⟩
  have hbegins := List.find?_some h
  obtain ⟨rest, heq⟩ := List.isPrefixOf_iff_prefix.1 hbegins
  exact ⟨rest, heq.symm⟩

/-- A match that stops after a label has taken the label. -/
theorem text_of_stop {m : Match} {label after : Text} (hafter : m.start.after = label ++ after)
    (hstop : m.stop = m.start.beyond label) : m.text = label := by
  simp [Match.text, hstop, Cursor.textTo, Cursor.position, Cursor.beyond, hafter]

theorem isEmpty_of_stop {m : Match} {label : Text} (hne : label ≠ []) (hstop : m.stop = m.start.beyond label) :
    m.isEmpty = false := by
  rw [Match.isEmpty, hstop, decide_eq_false_iff_not]
  intro heq
  have hlength := congrArg (·.before.length) heq
  simp only [Cursor.beyond, List.length_append, List.length_reverse] at hlength
  exact hne (List.length_eq_zero_iff.1 (by omega))

/-- Where a label comes next, the pending text is a piece, the symbol is another, and the rest is cut after the label. -/
theorem Splits.piecesFrom_next (h : Splits splitter table.entries) {pending start before rest : Text} {c : Char}
    {s : Symbol} {pieces : List Piece} {touching : Bool} (hbefore : before = pending.reverse ++ start)
    (hnext : next? table.entries (c :: rest) = some s)
    (hpieces : table.piecesFrom splitter ((Cursor.mk (c :: before) rest).beyond (rest.take (s.label.length - 1)))
      (matchesFrom splitter.plan (c :: before) rest (s.label.length - 1) true) = .ok pieces) :
    table.piecesFrom splitter ⟨start, pending ++ c :: rest⟩ (matchesFrom splitter.plan before (c :: rest) 0 touching) =
      .ok (literalPiece pending ++ .special s :: pieces) := by
  obtain ⟨m, hm, hstart, hstop, hclaim⟩ := h.matchAt?_eq_some (p := ⟨before, c :: rest⟩) hnext
  obtain ⟨hs, after, hafter⟩ := next?_spec hnext
  obtain ⟨d, label, hlabel⟩ := List.exists_cons_of_ne_nil (h.ne_nil s hs)
  have hstop' : m.stop = m.start.beyond s.label := hstart ▸ hstop
  have hempty := isEmpty_of_stop (h.ne_nil s hs) hstop'
  have htext : m.text = s.label := text_of_stop (by rw [hstart]; exact hafter) hstop'
  have hliteral : (Cursor.mk start (pending ++ c :: rest)).textTo m.start = pending := by
    simp [hstart, Cursor.textTo, Cursor.position, hbefore]
  have hplace : (Cursor.mk (c :: before) rest).beyond (rest.take (s.label.length - 1)) = m.stop := by
    rw [hlabel] at hafter hstop ⊢
    obtain ⟨rfl, hrest⟩ : c = d ∧ rest = label ++ after := List.cons.inj hafter
    rw [hstop, Cursor.beyond_cons, hrest]
    simp
  rw [hplace] at hpieces
  rw [matchesFrom, hm]
  simp only [hempty, Bool.false_eq_true, if_false, htext, piecesFrom, hclaim, hliteral, hpieces]
  rfl

/-- Matching the splitter from place to place is scanning, both where a text is pending since the last special stopped
and inside a special. -/
theorem Splits.piecesFrom_eq (h : Splits splitter table.entries) (text before : Text) (touching : Bool) :
    (∀ pending start, before = pending.reverse ++ start →
        table.piecesFrom splitter ⟨start, pending ++ text⟩ (matchesFrom splitter.plan before text 0 touching) =
          .ok (scan table.entries pending 0 text)) ∧
      ∀ inside ≤ text.length,
        table.piecesFrom splitter ((Cursor.mk before text).beyond (text.take inside))
            (matchesFrom splitter.plan before text inside touching) =
          .ok (scan table.entries [] inside text) := by
  induction text generalizing before touching with
  | nil =>
    have hnil : next? table.entries [] = none := by
      refine List.find?_eq_none.2 fun s hs => ?_
      have hne := h.ne_nil s hs
      simpa using hne
    have hmatches : ∀ inside, matchesFrom splitter.plan before [] inside touching = [] := by
      intro inside
      cases inside with
      | zero => rw [matchesFrom, h.matchAt?_eq_none hnil]; rfl
      | succ n => rfl
    constructor
    · intro pending start _
      rw [hmatches, List.append_nil]
      rfl
    · intro inside _
      rw [hmatches, List.take_nil]
      rfl
  | cons c rest ih =>
    have hfrom : ∀ pending start, before = pending.reverse ++ start →
        table.piecesFrom splitter ⟨start, pending ++ c :: rest⟩
            (matchesFrom splitter.plan before (c :: rest) 0 touching) =
          .ok (scan table.entries pending 0 (c :: rest)) := by
      intro pending start hbefore
      rw [scan]
      cases hnext : next? table.entries (c :: rest) with
      | none =>
        -- one more character is pending
        rw [matchesFrom, h.matchAt?_eq_none hnext]
        have hmore := (ih (c :: before) false).1 (pending ++ [c]) start (by simp [hbefore])
        rw [List.append_assoc] at hmore
        exact hmore
      | some s =>
        obtain ⟨-, after, hafter⟩ := next?_spec hnext
        have hlength := congrArg List.length hafter
        rw [List.length_cons, List.length_append] at hlength
        exact h.piecesFrom_next hbefore hnext ((ih (c :: before) true).2 (s.label.length - 1) (by omega))
    refine ⟨hfrom, fun inside hle => ?_⟩
    cases inside with
    | zero => exact hfrom [] before rfl
    | succ n =>
      have hinside := (ih (c :: before) touching).2 n (Nat.le_of_succ_le_succ hle)
      rw [List.take_succ_cons, Cursor.beyond_cons]
      exact hinside

/-- A text in which no label occurs is one literal piece. -/
theorem scan_of_not_infix {pending text : Text} (h : ∀ s ∈ entries, ¬ s.label <:+: text) :
    scan entries pending 0 text = literalPiece (pending ++ text) := by
  induction text generalizing pending with
  | nil => rw [scan, List.append_nil]
  | cons c rest ih =>
    have hnext : next? entries (c :: rest) = none :=
      List.find?_eq_none.2 fun s hs hbegins => h s hs (List.isPrefixOf_iff_prefix.1 hbegins).isInfix
    rw [scan, hnext]
    simp only
    rw [ih fun s hs hrest => h s hs (List.infix_cons hrest), List.append_assoc, List.singleton_append]

section Table

variable {settings : Settings} {words : List Text}

theorem labels_of_ofWords (ht : ofWords settings words = .ok table) :
    table.entries.map (·.label) = (rulesOf settings).map (·.key.display) := by
  have hentries := entries_of_ofWords ht
  generalize table.entries = entries, rulesOf settings = rules at hentries ⊢
  induction hentries with
  | nil => rfl
  | cons heq _ ih =>
    rw [List.map_cons, List.map_cons, ih, heq]
    rfl

theorem exists_rule_of_label (ht : ofWords settings words = .ok table) {s : Symbol} (hs : s ∈ table.entries) :
    ∃ rule ∈ settings.rules, s.label = rule.key.display := by
  have hlabel : s.label ∈ table.entries.map (·.label) := List.mem_map_of_mem hs
  rw [labels_of_ofWords ht] at hlabel
  obtain ⟨rule, hrule, heq⟩ := List.mem_map.1 hlabel
  exact ⟨rule, (rulesOf_perm settings).mem_iff.1 hrule, heq.symm⟩

theorem exists_label_of_rule (ht : ofWords settings words = .ok table) {rule : Rule} (hrule : rule ∈ settings.rules) :
    ∃ s ∈ table.entries, s.label = rule.key.display := by
  have hkey : rule.key.display ∈ (rulesOf settings).map (·.key.display) :=
    List.mem_map_of_mem ((rulesOf_perm settings).mem_iff.2 hrule)
  rw [← labels_of_ofWords ht] at hkey
  exact List.mem_map.1 hkey

/-- The specials of a table are labelled with the keys, which are not empty. -/
theorem label_ne_nil (ht : ofWords settings words = .ok table) (hliteral : ∀ rule ∈ settings.rules, rule.IsLiteral)
    {s : Symbol} (hs : s ∈ table.entries) : s.label ≠ [] := by
  obtain ⟨rule, hrule, hlabel⟩ := exists_rule_of_label ht hs
  obtain ⟨key, hkey, hne, -⟩ := hliteral rule hrule
  rw [hlabel, hkey]
  exact hne

/-- Where all keys are literal, every word can be cut, and cutting it is scanning it. -/
theorem cut_eq_scan (ht : ofWords settings words = .ok table) (hliteral : ∀ rule ∈ settings.rules, rule.IsLiteral)
    (w : Text) : table.cut w = .ok (scan table.entries [] 0 w) := by
  have hsplitter := (holds_of_ofWords ht).splitter
  have hlabels := labels_of_ofWords ht
  by_cases hrules : rulesOf settings = []
  · have hentries : table.entries = [] := by simpa [hrules] using hlabels
    have hnone : table.splitter = none := by
      rw [hrules] at hsplitter
      exact (Except.ok.inj hsplitter).symm
    rw [cut, hnone, hentries, scan_of_not_infix fun _ h => absurd h List.not_mem_nil]
    rfl
  · have hsorted : ∀ rule ∈ rulesOf settings, rule.IsLiteral := fun rule hrule =>
      hliteral rule ((sortBy_perm _ _).mem_iff.1 hrule)
    obtain ⟨splitter, hsome, hplan, hnames⟩ := of_splitterOf hrules hsorted hsplitter
    rw [← hlabels] at hplan hnames
    have hsplits : Splits splitter table.entries := ⟨hplan, hnames, fun s hs => label_ne_nil ht hliteral hs⟩
    rw [cut, hsome]
    exact (hsplits.piecesFrom_eq w [] false).1 [] [] rfl

end Table

end SymbolTable

end WordPattern
