import WordPattern.Proofs.Generation.Letters
import WordPattern.Proofs.Matching.Spans

/-! Where case counts and there are no specials, a search finds the leftmost item, and the longest one of those that
occur there. So it does where each special matches the character that it stands for. -/

namespace WordPattern

open Regex

section Generation

variable {settings : Settings} {special : Bool → Verbatim → Reach} {bound : Bound} {words : List Text}
variable {generation : Generation}

/-- What a plan matches at a place: nothing, if no item occurs there, and else the longest one. -/
def LongestAt (bound : Bound) (items : List Text) (plan : Plan) (p : Cursor) : Prop :=
  (matchAt? plan p = none ∧ ∀ w ∈ items, ∀ q, ¬ Occurs bound w p q) ∨
    ∃ m, matchAt? plan p = some m ∧ m.start = p ∧ (∃ w ∈ items, Occurs bound w p m.stop) ∧
      ∀ w ∈ items, ∀ q, Occurs bound w p q → q.position ≤ m.stop.position

/-- Two plans that match the longest items match the same. -/
theorem LongestAt.span_eq {items : List Text} {P Q : Plan} {p : Cursor} (h : LongestAt bound items P p)
    (h' : LongestAt bound items Q p) : (matchAt? P p).map Match.span = (matchAt? Q p).map Match.span := by
  rcases h with ⟨hnone, hno⟩ | ⟨m, hm, hstart, ⟨w, hw, hocc⟩, hlongest⟩ <;>
    rcases h' with ⟨hnone', hno'⟩ | ⟨m', hm', hstart', ⟨w', hw', hocc'⟩, hlongest'⟩
  · rw [hnone, hnone']
  · exact absurd hocc' (hno w' hw' _)
  · exact absurd hocc (hno' w hw _)
  · have hstop : m.stop = m'.stop :=
      hocc.eq_of_position hocc' (Nat.le_antisymm (hlongest' w hw _ hocc) (hlongest w' hw' _ hocc'))
    rw [hm, hm', Option.map_some, Option.map_some, Match.span, Match.span, hstart, hstart', hstop]

/-- Of the words that match at a place, the one that is preferred takes most. -/
theorem position_le_of_listed (hs : settings.Asserts bound) (hl : settings.ReadsLiterally special) {table : SymbolTable}
    (ht : SymbolTable.ofWords settings words = .ok table)
    (hitems : ∀ w ∈ words, w ≠ [] ∧ w.Storable ∧ settings.Clear bound w) {xs : List Text}
    (hxs : ∀ x ∈ xs, ∃ w ∈ words, x = (settings.wordOf table w).text) (hlonger : LongerFirst table.isRight xs)
    {p q : Cursor} (hq : ((settings.sense special).listed table.meaning xs p).head? = some q) {w : Text} (hw : w ∈ words)
    (hx : (settings.wordOf table w).text ∈ xs) {r : Cursor} (hr : Occurs bound w p r) : r.position ≤ q.position := by
  have hoccurs := fun w hw => @mem_word_iff_occurs _ _ _ _ _ hs hl ht w hw (hitems w hw).2.2
  have hrest := (hoccurs w hw).2 hr
  induction xs with
  | nil => simp at hx
  | cons x xs ih =>
    obtain ⟨hfirst, hrest'⟩ := List.pairwise_cons.1 hlonger
    obtain ⟨v, hv, rfl⟩ := hxs x List.mem_cons_self
    rw [Sense.listed, List.flatMap_cons] at hq
    cases hword : (settings.sense special).word table.meaning (settings.wordOf table v).text p with
    | nil =>
      rw [hword, List.nil_append] at hq
      refine ih (fun x hx => hxs x (List.mem_cons_of_mem _ hx)) hrest' hq ?_
      refine (List.mem_cons.1 hx).resolve_left fun heq => ?_
      rw [heq, hword] at hrest
      simp at hrest
    | cons q' more =>
      rw [hword] at hq
      obtain rfl : q' = q := Option.some.inj hq
      have hocc : Occurs bound v p q' := (hoccurs v hv).1 (by rw [hword]; exact List.mem_cons_self)
      rcases List.mem_cons.1 hx with heq | hx
      · rw [eq_of_trunk_eq hl.isLiteral ht hs.ignoreCase hw hv (congrArg _ heq)] at hr
        rw [hr.position, hocc.position]
      · rw [hr.position, hocc.position]
        by_contra hlong
        -- the preferred word would begin the longer one
        have hv' : v <+: p.after := ⟨_, hocc.after.symm⟩
        have hbegins : v <+: w := List.prefix_of_prefix_length_le hv' ⟨_, hr.after.symm⟩ (by omega)
        exact hfirst _ hx (begins_trunk_wordOf hs.ignoreCase hl.toLettered ht hv hw (hitems v hv).1 hbegins)

/-- What matches as the first of the words that match at a place does, the longer ones before the others, matches the
longest item. -/
theorem longestAt_of_listed (hs : settings.Asserts bound) (hl : settings.ReadsLiterally special) {table : SymbolTable}
    (ht : SymbolTable.ofWords settings words = .ok table)
    (hitems : ∀ w ∈ words, w ≠ [] ∧ w.Storable ∧ settings.Clear bound w) {xs : List Text}
    (hxs : ∀ x, x ∈ xs ↔ ∃ w ∈ words, x = (settings.wordOf table w).text) (hlonger : LongerFirst table.isRight xs)
    {plan : Plan} {p : Cursor} (hspan : (matchAt? plan p).map Match.span =
      ((settings.sense special).listed table.meaning xs p).head?.map fun q => (p, q)) :
    LongestAt bound words plan p := by
  have hoccurs := fun w hw => @mem_word_iff_occurs _ _ _ _ _ hs hl ht w hw (hitems w hw).2.2
  have hin : ∀ w ∈ words, (settings.wordOf table w).text ∈ xs := fun w hw => (hxs _).2 ⟨w, hw, rfl⟩
  cases hhead : ((settings.sense special).listed table.meaning xs p).head? with
  | none =>
    rw [hhead, Option.map_none, Option.map_eq_none_iff] at hspan
    refine .inl ⟨hspan, fun w hw q hocc => ?_⟩
    have hq : q ∈ (settings.sense special).listed table.meaning xs p :=
      List.mem_flatMap.2 ⟨_, hin w hw, (hoccurs w hw).2 hocc⟩
    rw [List.head?_eq_none_iff.1 hhead] at hq
    simp at hq
  | some q =>
    rw [hhead, Option.map_some] at hspan
    obtain ⟨m, hm, hmspan⟩ := Option.map_eq_some_iff.1 hspan
    obtain ⟨hstart, rfl⟩ : m.start = p ∧ m.stop = q := Prod.mk.inj hmspan
    refine .inr ⟨m, hm, hstart, ?_, fun w hw r hocc => ?_⟩
    · obtain ⟨x, hx, hword⟩ := List.mem_flatMap.1 (List.mem_of_mem_head? hhead)
      obtain ⟨w, hw, rfl⟩ := (hxs x).1 hx
      exact ⟨w, hw, (hoccurs w hw).1 hword⟩
    · exact position_le_of_listed hs hl ht hitems (fun x hx => (hxs x).1 hx) hlonger hhead hw (hin w hw) hocc

/-- The compiled pattern matches the longest item of those that occur at a place. -/
theorem Generation.Made.longestAt (h : generation.Made settings words) (hs : settings.Asserts bound)
    (hl : settings.ReadsLiterally special)
    (hitems : ∀ w ∈ settings.filter words, w ≠ [] ∧ w.Storable ∧ settings.Clear bound w) :
    (∀ r, compile generation.pattern = .ok r → ∀ p, LongestAt bound (settings.filter words) r.plan p) ∧
      ∀ x, compile generation.pattern = .error x → x = .tooDeep ∨ x = .tooLarge := by
  have ht := SymbolTable.holds_of_ofWords h.table
  have hcase := hs.ignoreCase
  have hwords : ∀ x, x ∈ generation.vocabulary.words ↔
      ∃ w ∈ settings.filter words, x = (settings.wordOf generation.table w).text := fun x => by
    rw [mem_words_iff hcase hl.isLiteral h.table h.vocabulary]
    exact exists_congr fun w => and_congr_right fun hw => and_iff_right (hitems w hw).1
  have hne : generation.vocabulary.words ≠ [] := by
    obtain ⟨w, hw⟩ := List.exists_mem_of_ne_nil _ h.filtered
    exact List.ne_nil_of_mem ((hwords _).2 ⟨w, hw, rfl⟩)
  have hlen : ∀ x ∈ generation.vocabulary.words, x.length < boundLimit := by
    intro x hx
    obtain ⟨w, hw, rfl⟩ := (hwords x).1 hx
    exact Nat.lt_of_le_of_lt (length_wordOf_le hcase hl.toLettered h.table w) (hitems w hw).2.1.length_lt
  obtain ⟨xs, hmem, hlonger, hreach⟩ := lists_ofWords hl.uniform hcase (single_of_readsLiterally hl ht)
    (fun c => isRight_eq_false ht) (Vocabulary.listed_words h.vocabulary hne)
    (capped_words hl.isLiteral h.table hcase h.vocabulary)
  have hsource : SourceOf True settings.innerFlags (generation.root.pattern settings.mode)
      ((settings.sense special).reach (.ofWords generation.table.meaning false generation.vocabulary.words)) := by
    rw [← hcase]
    exact h.source hne hlen hs.fixed hl.readable settings.mode (fun _ => lawful_of_case hcase) spellsClasses_of_case
      fun _ _ _ _ _ => trivial
  have hcompile := compile_wholePattern hs.name hsource
  rw [← h.pattern] at hcompile
  refine ⟨fun r hr p => ?_, hcompile.2 trivial⟩
  have hspan := hcompile.1 r hr p
  rw [hreach] at hspan
  exact longestAt_of_listed hs hl h.table hitems (fun x => (hmem x).trans (hwords x)) hlonger hspan

/-- Without words nothing matches and no item occurs. -/
theorem longestAt_nothing (bound : Bound) (p : Cursor) : LongestAt bound [] (.look true (.sweep .empty)) p :=
  .inl ⟨Generator.matchAt?_nothing p, fun _ hw => absurd hw List.not_mem_nil⟩

/-- Without specials all of them are what they have to be. -/
theorem Settings.IsPlain.readsLiterally (hs : settings.IsPlain bound) :
    settings.ReadsLiterally fun yes _ => Reach.optionalIf yes fun _ => [] where
  key := by rw [hs.rules]; simp
  left := by rw [hs.rules]; simp
  right := by rw [hs.rules]; simp
  uniform := uniform_plainSense
  readable := by rw [hs.rules]; simp
  same := by rw [hs.rules]; simp

theorem Settings.IsPlain.clear (hs : settings.IsPlain bound) (w : Text) : settings.Clear bound w := by
  rw [Settings.Clear, hs.rules]
  simp

end Generation

/-! ### Options -/

/-- A limit has been reached: no character is left for a placeholder, or the pattern is nested too deeply or too large
to be compiled. -/
def Error.IsLimit (e : Error) : Prop :=
  e = .compile .noPlaceholderLeft ∨ e = .compile (.syntaxError .tooDeep) ∨ e = .compile (.syntaxError .tooLarge)

section Options

variable {o : Options} {g : Generator} {words : List Text} {r : Regex}

theorem isPlain_settings (ho : o.IsPlain) (hg : Generator.ofOptions o = .ok g) : g.settings.IsPlain o.bound := by
  obtain ⟨settings, hsettings, rfl⟩ := map_eq_ok hg
  exact ho.isPlain hsettings

theorem Options.IsPlain.exists_generator (ho : o.IsPlain) : ∃ g, Generator.ofOptions o = .ok g := by
  obtain ⟨settings, hsettings⟩ := ho.exists_settings
  exact ⟨⟨o, settings⟩, by rw [Generator.ofOptions, hsettings]; rfl⟩

/-- Trimming makes nothing longer. -/
theorem storable_filter (ho : o.IsPlain) (hg : Generator.ofOptions o = .ok g) (h : ∀ w ∈ words, w.Storable) :
    ∀ w ∈ g.settings.filter words, w.Storable := by
  intro w hw
  obtain ⟨-, v, hv, hsub⟩ := Settings.of_filter (isPlain_settings ho hg).normalizeBlanks hw
  exact Nat.lt_of_le_of_lt (byteCount_le_of_sublist hsub) (h v hv)

/-- If the splitter can be compiled, only the placeholders can run out. -/
theorem ofWords_eq_error {settings : Settings} {e : Error} {splitter : Option Regex}
    (hsplitter : SymbolTable.splitterOf (SymbolTable.rulesOf settings) = .ok splitter)
    (h : SymbolTable.ofWords settings words = .error e) : e = .compile .noPlaceholderLeft := by
  unfold SymbolTable.ofWords at h
  simp only at h
  split at h
  · rcases bind_eq_error h with h | ⟨_, -, h⟩
    · exact absurd (hsplitter.symm.trans h) (by simp)
    · contradiction
  · exact (Except.error.inj h).symm

section Literal

variable {bound : Bound} {special : Bool → Verbatim → Reach}

theorem Generator.longestAt_regex (hs : g.settings.Asserts bound) (hl : g.settings.ReadsLiterally special)
    (hitems : ∀ w ∈ g.settings.filter words, w ≠ [] ∧ w.Storable ∧ g.settings.Clear bound w)
    (hr : g.regex words = .ok r) (p : Cursor) : LongestAt bound (g.settings.filter words) r.plan p := by
  rcases regex_eq_ok hr with ⟨hnone, hcompile⟩ | ⟨generation, hmade, hcompile⟩
  · obtain rfl := Except.ok.inj (compile_nothing.symm.trans hcompile)
    rw [hnone]
    exact longestAt_nothing bound p
  · exact (hmade.longestAt hs hl hitems).1 r hcompile p

/-- Only limits keep such a pattern from being compiled. -/
theorem Generator.isLimit_of_regex (hs : g.settings.Asserts bound) (hl : g.settings.ReadsLiterally special)
    {splitter : Option Regex} (hsplitter : SymbolTable.splitterOf (SymbolTable.rulesOf g.settings) = .ok splitter)
    (hitems : ∀ w ∈ g.settings.filter words, w ≠ [] ∧ w.Storable ∧ g.settings.Clear bound w) {e : Error}
    (he : g.regex words = .error e) : e.IsLimit ∧ (e = .compile .noPlaceholderLeft →
      SymbolTable.ofWords g.settings (g.settings.filter words) = .error e) := by
  rcases regex_eq_error he with h | ⟨table, htable, h⟩ | ⟨generation, hmade, x, hx, rfl⟩
  · exact ⟨.inl (ofWords_eq_error hsplitter h), fun _ => h⟩
  · obtain ⟨vocabulary, hvocabulary, -⟩ := exists_vocabulary_of_literal hl.isLiteral htable
    rw [hvocabulary] at h
    contradiction
  · rcases (hmade.longestAt hs hl hitems).2 x hx with rfl | rfl
    · exact ⟨.inr (.inl rfl), fun h => by simp at h⟩
    · exact ⟨.inr (.inr rfl), fun h => by simp at h⟩

end Literal

theorem items_plain (ho : o.IsPlain) (hg : Generator.ofOptions o = .ok g)
    (hstorable : ∀ w ∈ g.settings.filter words, w.Storable) :
    ∀ w ∈ g.settings.filter words, w ≠ [] ∧ w.Storable ∧ g.settings.Clear o.bound w := fun w hw =>
  ⟨(isPlain_settings ho hg).filter words w hw, hstorable w hw, (isPlain_settings ho hg).clear w⟩

theorem longestAt_regex (ho : o.IsPlain) (hg : Generator.ofOptions o = .ok g)
    (hstorable : ∀ w ∈ g.settings.filter words, w.Storable) (hr : g.regex words = .ok r) (p : Cursor) :
    LongestAt o.bound (g.settings.filter words) r.plan p :=
  have hs := isPlain_settings ho hg
  g.longestAt_regex hs.toAsserts hs.readsLiterally (items_plain ho hg hstorable) hr p

theorem isLimit_of_regex (ho : o.IsPlain) (hg : Generator.ofOptions o = .ok g)
    (hstorable : ∀ w ∈ g.settings.filter words, w.Storable) {e : Error} (he : g.regex words = .error e) :
    e.IsLimit ∧ (e = .compile .noPlaceholderLeft →
      SymbolTable.ofWords g.settings (g.settings.filter words) = .error e) := by
  have hs := isPlain_settings ho hg
  have hsplitter : SymbolTable.splitterOf (SymbolTable.rulesOf g.settings) = .ok none := by
    rw [SymbolTable.rulesOf, hs.rules]
    rfl
  exact g.isLimit_of_regex hs.toAsserts hs.readsLiterally hsplitter (items_plain ho hg hstorable) he

/-- A search finds nothing if no item occurs, and else the leftmost and longest one. -/
structure FindsLongest (bound : Bound) (items : List Text) (r : Regex) (t : Text) : Prop where
  none : r.find? t = none ↔ ∀ w ∈ items, ∀ p q, p.text = t → ¬ Occurs bound w p q
  occurs : ∀ m, r.find? t = some m → m.start.text = t ∧ ∃ w ∈ items, Occurs bound w m.start m.stop
  leftmost : ∀ m, r.find? t = some m → ∀ w ∈ items, ∀ p q, p.text = t → Occurs bound w p q →
    m.start.position ≤ p.position
  longest : ∀ m, r.find? t = some m → ∀ w ∈ items, ∀ q, Occurs bound w m.start q → q.position ≤ m.stop.position

theorem findsLongest (ho : o.IsPlain) (hg : Generator.ofOptions o = .ok g)
    (hstorable : ∀ w ∈ g.settings.filter words, w.Storable) (hr : g.regex words = .ok r) (t : Text) :
    FindsLongest o.bound (g.settings.filter words) r t := by
  have hplace := longestAt_regex ho hg hstorable hr
  have hnone : ∀ p, matchAt? r.plan p = none → ∀ w ∈ g.settings.filter words, ∀ q, ¬ Occurs o.bound w p q := by
    intro p hp
    rcases hplace p with ⟨-, h⟩ | ⟨m, hm, -⟩
    · exact h
    · rw [hp] at hm
      contradiction
  have hsome : ∀ m, r.find? t = some m → m.start.text = t ∧ matchAt? r.plan m.start = some m ∧
      ∀ p : Cursor, p.text = t → p.position < m.start.position → matchAt? r.plan p = none := by
    intro m hm
    obtain ⟨taken, rest, rfl, hm, hfirst⟩ := findFrom?_eq_some hm
    have hstart : m.start = ⟨taken.reverse ++ [], rest⟩ := by
      rcases hplace ⟨taken.reverse ++ [], rest⟩ with ⟨hnone, -⟩ | ⟨n, hn, hstart, -⟩
      · rw [hm] at hnone
        contradiction
      · rw [Option.some.inj (hm.symm.trans hn), hstart]
    refine ⟨by rw [hstart]; simp [Cursor.text], hstart ▸ hm, fun p hp hlt => ?_⟩
    have := hfirst p.before.reverse p.after hp.symm (by simpa [hstart, Cursor.position] using hlt)
    simpa using this
  have hoccurs : ∀ m, r.find? t = some m → m.start.text = t ∧ (∃ w ∈ g.settings.filter words,
      Occurs o.bound w m.start m.stop) ∧ ∀ w ∈ g.settings.filter words, ∀ q, Occurs o.bound w m.start q →
        q.position ≤ m.stop.position := by
    intro m hm
    obtain ⟨htext, hmatch, -⟩ := hsome m hm
    rcases hplace m.start with ⟨hnone, -⟩ | ⟨n, hn, -, hocc, hlongest⟩
    · rw [hmatch] at hnone
      contradiction
    · obtain rfl := Option.some.inj (hmatch.symm.trans hn)
      exact ⟨htext, hocc, hlongest⟩
  refine ⟨⟨fun h w hw p q hp => ?_, fun h => ?_⟩, fun m hm => ?_, fun m hm w hw p q hp hocc => ?_, fun m hm => ?_⟩
  · have := findFrom?_eq_none h p.before.reverse p.after hp.symm
    exact hnone p (by simpa using this) w hw q
  · cases hfind : r.find? t with
    | none => rfl
    | some m =>
      obtain ⟨htext, ⟨w, hw, hocc⟩, -⟩ := hoccurs m hfind
      exact absurd hocc (h w hw _ _ htext)
  · exact ⟨(hoccurs m hm).1, (hoccurs m hm).2.1⟩
  · by_contra hlt
    exact hnone p ((hsome m hm).2.2 p hp (Nat.lt_of_not_le hlt)) w hw q hocc
  · exact (hoccurs m hm).2.2

/-- Such a pattern finds the leftmost place where an item occurs, and the longest item that occurs there. It can always
be compiled, up to limits. -/
theorem find?_leftmost_longest (ho : o.IsPlain) (hstorable : ∀ w ∈ words, w.Storable) :
    ∃ g, Generator.ofOptions o = .ok g ∧ (∀ e, g.regex words = .error e → e.IsLimit) ∧
      ∀ r, g.regex words = .ok r → ∀ t, FindsLongest o.bound (g.settings.filter words) r t := by
  obtain ⟨g, hg⟩ := ho.exists_generator
  have hitems := storable_filter ho hg hstorable
  exact ⟨g, hg, fun e he => (isLimit_of_regex ho hg hitems he).1, fun r hr => findsLongest ho hg hitems hr⟩

/-- Of `do` and `double` as whole words. -/
theorem find?_do_double : ∃ g r, Generator.ofOptions { bound := .word .both } = .ok g ∧
    g.regex [['d', 'o'], ['d', 'o', 'u', 'b', 'l', 'e']] = .ok r ∧
      ∀ t, FindsLongest (.word .both) [['d', 'o'], ['d', 'o', 'u', 'b', 'l', 'e']] r t := by
  have hplain : Options.IsPlain { bound := .word .both } := ⟨fun _ h => by simp at h, trivial, rfl, rfl, rfl, rfl⟩
  obtain ⟨g, hg, -, hfinds⟩ := find?_leftmost_longest hplain
    (show ∀ w ∈ [['d', 'o'], ['d', 'o', 'u', 'b', 'l', 'e']], Text.Storable w by decide +kernel)
  obtain ⟨r, hr⟩ : ∃ r, g.regex [['d', 'o'], ['d', 'o', 'u', 'b', 'l', 'e']] = .ok r :=
    exists_regex hg (by decide +kernel)
  obtain rfl : Generator.mk .. = g := Except.ok.inj hg
  exact ⟨_, r, hg, hr, hfinds r hr⟩

end Options

end WordPattern
