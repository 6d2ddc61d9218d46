import WordPattern.Proofs.Languages.Trees
import WordPattern.Proofs.Writing.Standing

/-! Fragments keep their language when they are written with counts.

Equal blocks of fragments are read alike, so a count says the same as the run that it stands for. Whether the text
with counts is accepted is another matter: a count needs something to repeat, and a fragment may be nothing but empty
groups. -/

namespace WordPattern

open Regex

/-- The pattern is a regular expression that is more than empty groups, so a repeat can follow it in a group. -/
def Regex.IsRepeatable (source : Text) : Prop := ∃ parsed, parse source = .ok parsed ∧ parsed.expr.isRepeatable = true

variable {fragments : List Text} {source : Text}

/-- Regular fragments are written for their languages. -/
theorem pieces_of_isRegular (strict : Prop) (h : ∀ f ∈ fragments, IsRegular f) :
    Pieces strict {} fragments (fragments.map sourceLanguage) := by
  induction fragments with
  | nil => exact .nil
  | cons f fs ih =>
    obtain ⟨hf, hfs⟩ := List.forall_mem_cons.1 h
    exact .cons_one ⟨hf.toSelfContained.opens, hf.denotes (m := false)⟩ (ih hfs)

theorem standing_of_isRegular (h : IsRegular source) : Standing False (IsRepeatable source) source := by
  obtain ⟨ts, hlex, -⟩ := h.contained
  obtain ⟨parsed, hparsed⟩ := h.parses
  refine (standing_of_parse hlex h.head hparsed False.elim).mono ?_
  rintro ⟨parsed', hparsed', hrepeatable⟩
  rwa [← Except.ok.inj (hparsed'.symm.trans hparsed)]

/-- Where something of every block that stands twice in a row can be repeated, the text with counts is a regular
expression, as the text without counts is. -/
theorem exists_parse_abbreviate (mode : Mode) (closed : Bool) (h : ∀ f ∈ fragments, IsRegular f)
    (hrepeats : EveryRepeat IsRepeatable fragments) (hlen : fragments.length < boundLimit)
    (hflat : ∃ flat, parse fragments.flatten = .ok flat) :
    ∃ parsed, parse (abbreviate mode closed fragments) = .ok parsed := by
  have hsolid : EveryRepeat (Standing False True) fragments := by
    intro block hblock htwice
    obtain ⟨f, hf, hrepeatable⟩ := hrepeats block hblock htwice
    have hmem : f ∈ fragments := htwice.subset (List.mem_append_left _ hf)
    exact ⟨f, hf, (standing_of_isRegular (h f hmem)).mono fun _ => hrepeatable⟩
  have heach : ∀ f ∈ fragments, Standing False False f := fun f hf => (standing_of_isRegular (h f hf)).mono False.elim
  obtain ⟨heach, -, hsame | hsolid⟩ := counted_abbreviated mode closed heach hsolid hlen
  · rwa [abbreviate, hsame]
  · obtain ⟨-, ts, hlex, hstands, -⟩ := (standing_flatten heach).mono fun _ : True => hsolid
    obtain ⟨parsed, hparsed, -⟩ := hstands.exists_parse hlex.tokens_eq
    exact ⟨parsed, hparsed⟩

/-- Fragments are written no longer than they are, and shorter if they are written otherwise. Where groups leave
choices open, the text of regular fragments denotes what the fragments do one after the other, if it is a regular
expression; and it is one unless a block of fragments that can not be repeated stands twice in a row. -/
theorem abbreviate_language (mode : Mode) (closed : Bool) (fragments : List Text) :
    (abbreviate mode closed fragments).length ≤ fragments.flatten.length ∧
    (abbreviate mode closed fragments ≠ fragments.flatten →
      (abbreviate mode closed fragments).length < fragments.flatten.length) ∧
    (mode = .backtracking ∨ closed = false → (∀ f ∈ fragments, IsRegular f) → fragments.length < boundLimit →
      (∃ flat, parse fragments.flatten = .ok flat ∧ flat.expr.HasLanguage ∧
        flat.expr.language = (fragments.map sourceLanguage).prod) ∧
      (∀ parsed, parse (abbreviate mode closed fragments) = .ok parsed →
        parsed.expr.HasLanguage ∧ parsed.expr.language = (fragments.map sourceLanguage).prod) ∧
      (EveryRepeat IsRepeatable fragments → ∃ parsed, parse (abbreviate mode closed fragments) = .ok parsed)) := by
  have hlength := abbreviate_eq_or_length_lt mode closed fragments
  refine ⟨hlength.elim (fun heq => (congrArg List.length heq).le) Nat.le_of_lt, hlength.resolve_left, ?_⟩
  intro hopen hregular hlen
  have hflat : ∃ flat, parse fragments.flatten = .ok flat ∧ flat.expr.HasLanguage ∧
      flat.expr.language = (fragments.map sourceLanguage).prod := by
    obtain ⟨-, ts, hlex, hdenotes⟩ := (pieces_of_isRegular True hregular).spells
    obtain ⟨hlanguage, hparsed⟩ := hdenotes.choice.parse hlex.tokens_eq
    obtain ⟨flat, hflat⟩ := hparsed trivial
    exact ⟨flat, hflat, hlanguage flat hflat⟩
  refine ⟨hflat, ?_, fun hrepeats => ?_⟩
  · obtain ⟨-, ts, hlex, hdenotes⟩ := spells_abbreviate (groupOpening_eq_plain hopen)
      (pieces_of_isRegular False hregular) False.elim hlen
    exact (hdenotes.choice.parse hlex.tokens_eq).1
  · exact exists_parse_abbreviate mode closed hregular hrepeats hlen (hflat.imp fun _ => And.left)

/-- Five numbers, in a group that leaves choices open although choices can be committed to. -/
theorem abbreviate_language_numbers :
    abbreviate .possessive false (List.replicate 5 ['\\', 'd', '+']) =
        ['(', '?', ':', '\\', 'd', '+', ')', '\x7b', '5', '\x7d'] ∧
      ∃ parsed, parse ['(', '?', ':', '\\', 'd', '+', ')', '\x7b', '5', '\x7d'] = .ok parsed ∧ parsed.expr.HasLanguage ∧
        parsed.expr.language = ((List.replicate 5 ['\\', 'd', '+']).map sourceLanguage).prod := by
  have htext : abbreviate .possessive false (List.replicate 5 ['\\', 'd', '+']) =
      ['(', '?', ':', '\\', 'd', '+', ')', '\x7b', '5', '\x7d'] := by decide +kernel
  have hregular : ∀ f ∈ List.replicate 5 ['\\', 'd', '+'], IsRegular f := fun f hf =>
    (List.eq_of_mem_replicate hf) ▸ isRegular_number
  have hrepeats : EveryRepeat IsRepeatable (List.replicate 5 ['\\', 'd', '+']) := by
    intro block hblock htwice
    obtain ⟨f, hf⟩ := List.exists_mem_of_ne_nil block hblock
    refine ⟨f, hf, ?_⟩
    rw [List.eq_of_mem_replicate (htwice.subset (List.mem_append_left _ hf))]
    exact ⟨_, rfl, rfl⟩
  obtain ⟨-, -, hopen⟩ := abbreviate_language .possessive false (List.replicate 5 ['\\', 'd', '+'])
  obtain ⟨-, hlanguage, hparsed⟩ := hopen (.inr rfl) hregular (by decide)
  obtain ⟨parsed, hparsed⟩ := hparsed hrepeats
  have hlanguage := hlanguage parsed hparsed
  rw [htext] at hparsed
  exact ⟨htext, parsed, hparsed, hlanguage⟩

/-! ### Counts that are part of a fragment -/

/-- What a source is read as. -/
def sourceExpr (source : Text) : Expr :=
  match parse source with
  | .ok parsed => parsed.expr
  | .error _ => .fail

theorem sourceLanguage_eq (source : Text) : sourceLanguage source = (sourceExpr source).language := by
  unfold sourceLanguage sourceExpr
  cases parse source <;> rfl

/-- Sources one after the other. -/
theorem prod_sourceLanguage (sources : List Text) :
    (sources.map sourceLanguage).prod = (Expr.sequence (sources.map sourceExpr)).language := by
  rw [Expr.language_sequence, List.map_map]
  exact congrArg List.prod (List.map_congr_left fun source _ => sourceLanguage_eq source)

/-- Expressions of which only one can match a text to its end have different languages. -/
theorem language_ne {e f : Expr} (he : e.HasLanguage) (hf : f.HasLanguage) (t : Text)
    (hmatch : ⟨t.reverse, []⟩ ∈ e.ends .ahead ⟨[], t⟩) (hnot : ⟨t.reverse, []⟩ ∉ f.ends .ahead ⟨[], t⟩) :
    e.language ≠ f.language := by
  intro heq
  obtain ⟨u, hu, hreads⟩ := (Expr.mem_ends_iff_language he).1 hmatch
  exact hnot ((Expr.mem_ends_iff_language hf).2 ⟨u, heq ▸ hu, hreads⟩)

/-- The source is a regular expression of one branch that has a language, if it is read alone. -/
def ParsesAlone (source : Text) : Prop :=
  ∃ ts parsed, tokens source = .ok ts ∧ contained [] ts = true ∧ parse source = .ok parsed ∧ parsed.expr.HasLanguage

theorem hasLanguage_of_parsesAlone {sources : List Text} (h : ∀ f ∈ sources, ParsesAlone f) :
    (Expr.sequence (sources.map sourceExpr)).HasLanguage := by
  rw [Expr.hasLanguage_sequence, List.forall_mem_map]
  intro f hf
  obtain ⟨-, parsed, -, -, hparsed, hlanguage⟩ := h f hf
  rwa [sourceExpr, hparsed]

/-- A letter, a count for it, and six counts that are text where they are read alone. -/
def looseCounts : List Text :=
  [['b'], ['\x7b', '3', '\x7d']] ++ List.replicate 6 ['\x7b', '2', '\x7d']

/-- Counts that begin in one fragment and end in the next one. -/
def splitCounts : List Text :=
  [['b', '\x7b'], ['3', '\x7d']] ++ (List.replicate 5 [['2', '\x7d'], ['a', '\x7b']]).flatten

def looseCountsMatch : Text := List.replicate 3 'b' ++ (List.replicate 6 ['\x7b', '2', '\x7d']).flatten

def splitCountsMatch : Text := List.replicate 3 'b' ++ (List.replicate 5 ['2', '\x7d', 'a', '\x7b']).flatten

theorem parsesAlone_counts : ∀ fragments ∈ [looseCounts, splitCounts], ∀ f ∈ fragments, ParsesAlone f := by
  have hsources : ∀ f ∈ [['b'], ['\x7b', '3', '\x7d'], ['\x7b', '2', '\x7d'], ['b', '\x7b'], ['3', '\x7d'],
      ['2', '\x7d'], ['a', '\x7b']], ParsesAlone f := by
    simp only [List.forall_mem_cons, List.not_mem_nil, false_imp_iff, implies_true, and_true]
    exact ⟨⟨_, _, rfl, rfl, rfl, by decide⟩, ⟨_, _, rfl, rfl, rfl, by decide⟩, ⟨_, _, rfl, rfl, rfl, by decide⟩,
      ⟨_, _, rfl, rfl, rfl, by decide⟩, ⟨_, _, rfl, rfl, rfl, by decide⟩, ⟨_, _, rfl, rfl, rfl, by decide⟩,
      ⟨_, _, rfl, rfl, rfl, by decide⟩⟩
  have hall : [looseCounts, splitCounts].all (fun fs => fs.all fun f =>
      [['b'], ['\x7b', '3', '\x7d'], ['\x7b', '2', '\x7d'], ['b', '\x7b'], ['3', '\x7d'], ['2', '\x7d'],
        ['a', '\x7b']].contains f) = true := by decide +kernel
  intro fragments hfragments f hf
  exact hsources f (List.contains_iff_mem.1 (List.all_eq_true.1 (List.all_eq_true.1 hall fragments hfragments) f hf))

def repeatedChar (n : Nat) (c : Char) : Expr := .rounds n (some n) true (.char c false)

def spelled (t : Text) : List Expr := t.map (.char · false)

/-- Five empty groups are written with a count, which has nothing to repeat; and fragments that hold the text of a
count, or of a part of one, denote something else when they are written with counts, both than their text does and
than they do one after the other. -/
theorem abbreviate_language_fails :
    (IsRegular ['(', '?', ':', ')'] ∧
      abbreviate .backtracking true (List.replicate 5 ['(', '?', ':', ')']) =
        ['(', '?', ':', '(', '?', ':', ')', ')', '\x7b', '5', '\x7d'] ∧
      parse ['(', '?', ':', '(', '?', ':', ')', ')', '\x7b', '5', '\x7d'] = .error .nothingToRepeat) ∧
    ∀ fragments ∈ [looseCounts, splitCounts], (∀ f ∈ fragments, ParsesAlone f) ∧
      ∃ flat parsed, parse fragments.flatten = .ok flat ∧ flat.expr.HasLanguage ∧
        parse (abbreviate .backtracking true fragments) = .ok parsed ∧ parsed.expr.HasLanguage ∧
        parsed.expr.language ≠ flat.expr.language ∧ parsed.expr.language ≠ (fragments.map sourceLanguage).prod := by
  refine ⟨⟨isRegular_emptyGroup, by decide +kernel, by decide +kernel⟩, fun fragments hfragments => ?_⟩
  have halone := parsesAlone_counts fragments hfragments
  have hproduct := hasLanguage_of_parsesAlone halone
  refine ⟨halone, ?_⟩
  rw [prod_sourceLanguage]
  simp only [List.mem_cons, List.not_mem_nil, or_false] at hfragments
  rcases hfragments with rfl | rfl
  · have hparsed : parse (abbreviate .backtracking true looseCounts) = .ok ⟨.sequence [repeatedChar 3 'b',
        .rounds 6 (some 6) true (.sequence (spelled ['\x7b', '2', '\x7d']))], []⟩ := by decide +kernel
    have hflat : parse looseCounts.flatten = .ok ⟨.sequence (repeatedChar 3 'b' ::
        (List.replicate 3 [.char '\x7b' false, .char '2' false, repeatedChar 2 '\x7d']).flatten), []⟩ := by
      decide +kernel
    refine ⟨_, _, hflat, by decide, hparsed, by decide, ?_, ?_⟩
    · exact language_ne (by decide) (by decide) looseCountsMatch (by decide +kernel) (by decide +kernel)
    · exact language_ne (by decide) hproduct looseCountsMatch (by decide +kernel) (by decide +kernel)
  · have hparsed : parse (abbreviate .backtracking true splitCounts) = .ok ⟨.sequence [repeatedChar 3 'b',
        .rounds 5 (some 5) true (.sequence (spelled ['2', '\x7d', 'a', '\x7b']))], []⟩ := by decide +kernel
    have hflat : parse splitCounts.flatten = .ok ⟨.sequence (repeatedChar 3 'b' :: spelled ['2', '\x7d'] ++
        List.replicate 4 (repeatedChar 2 'a') ++ spelled ['a', '\x7b']), []⟩ := by decide +kernel
    refine ⟨_, _, hflat, by decide, hparsed, by decide, ?_, ?_⟩
    · exact language_ne (by decide) (by decide) splitCountsMatch (by decide +kernel) (by decide +kernel)
    · exact language_ne (by decide) hproduct splitCountsMatch (by decide +kernel) (by decide +kernel)

end WordPattern
