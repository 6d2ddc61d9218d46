import WordPattern.Node.Pattern
import WordPattern.Proofs.Reading.Classes
import WordPattern.Proofs.Reading.Anywhere
import WordPattern.Proofs.Reading.Steady
import WordPattern.Proofs.Trees.Parted
import WordPattern.Proofs.Writing.Whole

/-! The text of a tree can be read wherever it stands.

What a mark, a count or a group takes has something that can be repeated: all but the boundaries have, and these stand
apart. -/

namespace WordPattern

open Regex

variable {mode : Mode} {steady solid solid' : Prop}

/-- A text can be read wherever it stands. Its tokens may be asked to be steady. -/
structure Standing (steady solid : Prop) (t : Text) : Prop where
  opens : Opens t
  reads : ∃ ts, Lexes t ts ∧ Stands solid ts ∧ (steady → ∀ u ∈ ts, u.Steady)

/-- A text is read as one item wherever it stands, and can be repeated. -/
structure StandingAsOne (steady : Prop) (t : Text) : Prop where
  opens : Opens t
  reads : ∃ ts, Lexes t ts ∧ StandsAsOne ts ∧ (steady → ∀ u ∈ ts, u.Steady)

/-- What is taken as it is can be read wherever it stands. A special has something that can be repeated, and one that
takes a repeat count without a group is a single item. -/
structure Verbatim.Standing (steady : Prop) (v : Verbatim) : Prop where
  text : WordPattern.Standing steady (v.role = .pattern) v.pattern
  atomic : v.role = .pattern → v.atomic = true → StandingAsOne steady v.pattern

/-- A pattern that can be read alone can be read wherever it stands if it is always cut into the same tokens. -/
theorem standing_of_parse {source : Text} {ts : List Token} {parsed : Parsed} (hlex : Lexes source ts)
    (hhead : source.head? ≠ some '\x7b') (hparsed : parse source = .ok parsed) (hsteady : steady → ∀ u ∈ ts, u.Steady) :
    Standing steady (parsed.expr.isRepeatable = true) source :=
  ⟨opens_of_head hhead, ts, hlex, stands_of_parse hlex.tokens_eq hhead hparsed, hsteady⟩

/-! ### Putting texts together -/

section Texts

variable {s t : Text}

theorem forall_steady_append {ts us : List Token} (h : steady → ∀ u ∈ ts, u.Steady) (h' : steady → ∀ u ∈ us, u.Steady) :
    steady → ∀ u ∈ ts ++ us, u.Steady := fun ht u hu => (List.mem_append.1 hu).elim (h ht u) (h' ht u)

theorem Standing.mono (h : Standing steady solid t) (hsolid : solid' → solid) : Standing steady solid' t := by
  obtain ⟨hopens, ts, hlex, hstands, hsteady⟩ := h
  exact ⟨hopens, ts, hlex, hstands.mono hsolid, hsteady⟩

theorem standing_nil : Standing steady False [] := ⟨opens_nil, [], lexes_nil, stands_nil, fun _ _ hu => absurd hu List.not_mem_nil⟩

theorem Standing.append (h : Standing steady solid s) (h' : Standing steady solid' t) :
    Standing steady (solid ∨ solid') (s ++ t) := by
  obtain ⟨hopens, ts, hlex, hstands, hsteady⟩ := h
  obtain ⟨hopens', us, hlex', hstands', hsteady'⟩ := h'
  exact ⟨hopens.append hopens', ts ++ us, hlex.append hlex' hopens', hstands.append hstands', forall_steady_append hsteady hsteady'⟩

theorem Standing.bar (h : Standing steady solid s) (h' : Standing steady solid' t) : Standing steady True (s ++ '|' :: t) := by
  obtain ⟨hopens, ts, hlex, hstands, hsteady⟩ := h
  obtain ⟨hopens', us, hlex', hstands', hsteady'⟩ := h'
  have hbar : Opens ('|' :: t) := opens_cons (by decide) t
  refine ⟨hopens.append hbar, ts ++ .bar :: us, hlex.append (lexes_bar.append hlex' hopens') hbar, hstands.bar hstands', ?_⟩
  apply forall_steady_append hsteady
  exact fun ht => List.forall_mem_cons.2 ⟨trivial, hsteady' ht⟩

theorem StandingAsOne.standing (h : StandingAsOne steady t) : Standing steady True t := by
  obtain ⟨hopens, ts, hlex, hone, hsteady⟩ := h
  exact ⟨hopens, ts, hlex, hone.stands, hsteady⟩

/-- A text in a group that looks at nothing. -/
theorem Standing.enclosed (h : Standing steady True t) {start : Text} {o : Opening} (hstart : Lexes start [.opening o])
    (hopens : Opens start) (ho : ∀ d negated, o ≠ .look d negated) : StandingAsOne steady (start ++ t ++ [')']) := by
  obtain ⟨hopens', ts, hlex, hstands, hsteady⟩ := h
  have hclose : Opens [')'] := opens_cons (by decide) _
  refine ⟨(hopens.append hopens').append hclose, _, (hstart.append hlex hopens').append lexes_close hclose,
    hstands.group ho, ?_⟩
  have hopening : (Token.opening o).Steady := by
    cases o with
    | look d negated => exact absurd rfl (ho d negated)
    | _ => trivial
  apply forall_steady_append
  · exact fun ht => List.forall_mem_cons.2 ⟨hopening, hsteady ht⟩
  · exact fun _ => List.forall_mem_singleton.2 trivial

theorem Standing.group (h : Standing steady True t) (closed : Bool) : StandingAsOne steady (mode.group closed t) := by
  apply h.enclosed (lexes_groupStart mode closed)
  · unfold Mode.groupStart
    split_ifs <;> exact opens_cons (by decide) _
  · intro d negated
    unfold groupOpening
    split_ifs <;> simp

theorem StandingAsOne.mark (h : StandingAsOne steady t) (closed : Bool) :
    Standing steady True (t ++ mode.optionalMark closed) := by
  obtain ⟨hopens, ts, hlex, hone, hsteady⟩ := h
  unfold Mode.optionalMark
  split_ifs
  · have hmarks := lexes_question.append lexes_plus (opens_cons (by decide) _)
    refine ⟨hopens.append (opens_cons (by decide) _), _, hlex.append hmarks (opens_cons (by decide) _),
      hone.quantified (.possessive rfl), forall_steady_append hsteady fun _ => ?_⟩
    exact List.forall_mem_cons.2 ⟨trivial, List.forall_mem_singleton.2 trivial⟩
  · refine ⟨hopens.append (opens_cons (by decide) _), _, hlex.append lexes_question (opens_cons (by decide) _),
      hone.quantified (.greedy rfl), forall_steady_append hsteady fun _ => List.forall_mem_singleton.2 trivial⟩

theorem steady_count {k : Nat} (h : 0 < k) : (Token.count (countText k) k (some k)).Steady :=
  ⟨Nat.le_refl k, by simpa using h.ne'⟩

theorem StandingAsOne.count (h : StandingAsOne steady t) {k : Nat} (hpos : 0 < k) (hk : k < boundLimit) :
    Standing steady True (t ++ countText k) := by
  obtain ⟨hopens, ts, hlex, hone, hsteady⟩ := h
  exact ⟨hopens.append (opens_count hk), _, hlex.append (lexes_count hk) (opens_count hk), hone.quantified (.greedy rfl),
    forall_steady_append hsteady fun _ => List.forall_mem_singleton.2 (steady_count hpos)⟩

/-- A text that takes a repeat count without a group is a single token. -/
theorem Standing.atomicCount (h : Standing steady True t) (hatomic : isAtomicText t = true) {k : Nat} (hpos : 0 < k)
    (hk : k < boundLimit) : Standing steady True (t ++ countText k) := by
  obtain ⟨hopens, ts, hlex, hstands, hsteady⟩ := h
  obtain ⟨u, rfl⟩ := tokens_of_isAtomicText hatomic hlex.tokens_eq
  exact ⟨hopens.append (opens_count hk), _, hlex.append (lexes_count hk) (opens_count hk), hstands.count_of_token _ _ _,
    forall_steady_append hsteady fun _ => List.forall_mem_singleton.2 (steady_count hpos)⟩

end Texts

/-! ### Abbreviation -/

/-- All texts can be read wherever they stand; of two that follow each other one at least has something that can be
repeated. -/
structure StandingTexts (steady : Prop) (ts : List Text) : Prop where
  each : ∀ t ∈ ts, Standing steady False t
  chain : ts.IsChain fun s t => Standing steady True s ∨ Standing steady True t
  solid : ∃ t ∈ ts, Standing steady True t

theorem standing_flatten {ts : List Text} (h : ∀ t ∈ ts, Standing steady False t) :
    Standing steady (∃ t ∈ ts, Standing steady True t) ts.flatten := by
  induction ts with
  | nil => exact standing_nil.mono (by simp)
  | cons t ts ih =>
    obtain ⟨ht, hts⟩ := List.forall_mem_cons.1 h
    by_cases hsolid : Standing steady True t
    · exact (hsolid.append (ih hts)).mono fun _ => .inl trivial
    · refine (ht.append (ih hts)).mono ?_
      rintro ⟨u, hu, hsolid'⟩
      rcases List.mem_cons.1 hu with rfl | hu
      · exact absurd hsolid' hsolid
      · exact .inr ⟨u, hu, hsolid'⟩

/-- Of every block that stands twice in a row some fragment has the property. -/
def EveryRepeat (P : Text → Prop) (fragments : List Text) : Prop :=
  ∀ block, block ≠ [] → block ++ block <:+: fragments → ∃ f ∈ block, P f

theorem EveryRepeat.of_run {P : Text → Prop} {before block after : List Text} {n : Nat}
    (h : EveryRepeat P (before ++ ((List.replicate n block).flatten ++ after))) (hblock : block ≠ []) (hn : 2 ≤ n) :
    ∃ f ∈ block, P f := by
  obtain ⟨k, rfl⟩ := Nat.exists_eq_add_of_le' hn
  exact h block hblock ⟨before, (List.replicate k block).flatten ++ after, by simp [List.replicate_succ]⟩

/-- A fragment that has the property takes the place of others, and no block reaches over it without it. -/
theorem EveryRepeat.replace {P : Text → Prop} {before run after : List Text} {q : Text}
    (h : EveryRepeat P (before ++ (run ++ after))) (hq : P q) : EveryRepeat P (before ++ q :: after) := by
  intro block hblock htwice
  by_cases hmem : q ∈ block
  · exact ⟨q, hmem, hq⟩
  · refine h block hblock ?_
    rcases infix_of_not_mem (by simpa using hmem) htwice with hbefore | hafter
    · exact hbefore.trans (List.prefix_append _ _).isInfix
    · exact hafter.trans (((List.suffix_append run after).trans (List.suffix_append before _)).isInfix)

/-- Where one of two neighbours has the property, a block has it where it meets itself. -/
theorem everyRepeat_of_isChain {P : Text → Prop} {fragments : List Text}
    (h : fragments.IsChain fun s t => P s ∨ P t) : EveryRepeat P fragments := by
  intro block hblock htwice
  have htwice : (block ++ block).IsChain fun s t => P s ∨ P t := List.IsChain.infix h htwice
  have hjoin := (List.isChain_append.1 htwice).2.2 (block.getLast hblock) (List.getLast?_eq_some_getLast hblock)
    (block.head hblock) (List.head?_eq_some_head hblock)
  exact hjoin.elim (fun hs => ⟨_, List.getLast_mem hblock, hs⟩) fun hs => ⟨_, List.head_mem hblock, hs⟩

theorem standing_quantified {block : List Text} (h : ∀ t ∈ block, Standing steady False t)
    (hsolid : ∃ t ∈ block, Standing steady True t) (closed : Bool) {n : Nat} (hpos : 0 < n) (hn : n < boundLimit) :
    Standing steady True (quantified mode closed block n) := by
  have hblock : Standing steady True block.flatten := (standing_flatten h).mono fun _ => hsolid
  rw [quantified_eq]
  split_ifs with hatomic
  · exact hblock.atomicCount hatomic hpos hn
  · exact (hblock.group closed).count hpos hn

/-- What counts keep up of fragments, starting from others: a count stands where its block stood, and in every block that
could still get one there is something to repeat. -/
structure Counted (steady : Prop) (source fragments : List Text) : Prop where
  each : ∀ t ∈ fragments, Standing steady False t
  repeats : EveryRepeat (Standing steady True) fragments
  solid : fragments = source ∨ ∃ t ∈ fragments, Standing steady True t

theorem counted_abbreviated (mode : Mode) (closed : Bool) {fragments : List Text}
    (heach : ∀ t ∈ fragments, Standing steady False t) (hrepeats : EveryRepeat (Standing steady True) fragments)
    (hlen : fragments.length < boundLimit) : Counted steady fragments (abbreviated mode closed fragments) := by
  refine abbreviated_induction ⟨heach, hrepeats, .inl rfl⟩ ?_
  intro before block n after hblock htwo hle h
  have hrun : ∀ t ∈ block, t ∈ (List.replicate n block).flatten := fun t ht =>
    List.mem_flatten.2 ⟨block, List.mem_replicate.2 ⟨by omega, rfl⟩, ht⟩
  have heachBlock : ∀ t ∈ block, Standing steady False t := fun t ht =>
    h.each t (List.mem_append_right _ (List.mem_append_left _ (hrun t ht)))
  have hquantified : Standing steady True (quantified mode closed block n) :=
    standing_quantified heachBlock (h.repeats.of_run hblock htwo) closed (by omega) (by omega)
  refine ⟨fun t ht => ?_, h.repeats.replace hquantified,
    .inr ⟨_, List.mem_append_right _ List.mem_cons_self, hquantified⟩⟩
  rcases List.mem_append.1 ht with ht | ht
  · exact h.each t (List.mem_append_left _ ht)
  · rcases List.mem_cons.1 ht with rfl | ht
    · exact hquantified.mono fun _ => trivial
    · exact h.each t (List.mem_append_right _ (List.mem_append_right _ ht))

/-- Counts keep up that there is something that can be repeated. -/
theorem standing_abbreviate {fragments : List Text} (h : StandingTexts steady fragments) (closed : Bool)
    (hlen : fragments.length < boundLimit) : Standing steady True (abbreviate mode closed fragments) := by
  obtain ⟨heach, -, hsame | hsolid⟩ := counted_abbreviated mode closed h.each (everyRepeat_of_isChain h.chain) hlen
  · rw [abbreviate, hsame]
    exact (standing_flatten h.each).mono fun _ => h.solid
  · exact (standing_flatten heach).mono fun _ => hsolid

/-! ### Trees -/

section Trees

variable {F : NextChars}

theorem standingAsOne_quoteChar (c : Char) : StandingAsOne steady (quoteChar c) :=
  ⟨opens_quoteChar c, _, lexes_quoteChar c, standsAsOne_of_step fun _ => ⟨_, rfl, rfl⟩,
    fun _ => List.forall_mem_singleton.2 trivial⟩

theorem standingAsOne_class {cls : CharClass} (h : cls.members ≠ []) : StandingAsOne steady cls.pattern := by
  rcases pattern_cases cls with ⟨hnil, -⟩ | ⟨c, -, hp⟩ | ⟨-, hlex, r, hr⟩
  · exact absurd hnil h
  · rw [hp]
    exact standingAsOne_quoteChar c
  · refine ⟨?_, _, hlex, standsAsOne_of_step fun _ => ⟨_, rfl, rfl⟩, fun _ => List.forall_mem_singleton.2 trivial⟩
    rw [hr]
    exact opens_cons (by decide) r

/-- A text with the mark of its node. -/
theorem standing_finish {n : Node} {t : Text} (h : Standing steady solid t) (hsolid : n.mark.optional = true → solid)
    (hatomic : n.mark.optional = true → n.isAtomic = true → t ≠ [] → StandingAsOne steady t) (closed : Bool) :
    Standing steady solid (n.finish mode closed t) := by
  unfold Node.finish
  split_ifs with hopt hone
  · simp only [Bool.and_eq_true, Bool.not_eq_true', List.isEmpty_eq_false_iff] at hone
    exact ((hatomic hopt hone.1 hone.2).mark closed).mono fun _ => trivial
  · exact (((h.mono fun _ => hsolid hopt).group closed).mark closed).mono fun _ => trivial
  · exact h

theorem standing_leaf {m : Mark} {t : Text} (hne : t ≠ []) (hlen : t.length < boundLimit) :
    Standing steady True (Node.patternBefore mode F (.leaf m t)) := by
  have hchar : ∀ s ∈ t.map quoteChar, StandingAsOne steady s := by
    intro s hs
    obtain ⟨c, -, rfl⟩ := List.mem_map.1 hs
    exact standingAsOne_quoteChar c
  have hfragments : StandingTexts steady (t.map quoteChar) := by
    refine ⟨fun s hs => (hchar s hs).standing.mono fun _ => trivial, ?_, ?_⟩
    · rw [List.isChain_map]
      exact (List.pairwise_of_forall fun c d => .inl (standingAsOne_quoteChar c).standing).isChain
    · obtain ⟨c, hc⟩ := List.exists_mem_of_ne_nil _ hne
      exact ⟨_, List.mem_map_of_mem hc, (standingAsOne_quoteChar c).standing⟩
  rw [Node.patternBefore]
  refine standing_finish (standing_abbreviate hfragments true (by simpa using hlen)) (fun _ => trivial)
    (fun _ hatomic _ => ?_) _
  obtain ⟨c, rfl⟩ := List.length_eq_one_iff.1 (of_decide_eq_true hatomic)
  rw [List.map_singleton, abbreviate_singleton]
  exact standingAsOne_quoteChar c

theorem standing_charClass {m : Mark} {cls : CharClass} (hne : cls.members ≠ []) :
    Standing steady True (Node.patternBefore mode F (.charClass m cls)) := by
  rw [Node.patternBefore]
  split_ifs
  · exact (standingAsOne_class hne).mark _
  · rw [List.append_nil]
    exact (standingAsOne_class hne).standing

theorem standing_verbatim {m : Mark} {v : Verbatim} (hv : v.Standing steady) (hn : (Node.verbatim m v).Parted) :
    Standing steady ((Node.verbatim m v).isBoundary = false) (Node.patternBefore mode F (.verbatim m v)) := by
  have hrole : (Node.verbatim m v).mark.optional = true → v.role = .pattern := by
    intro hopt
    by_contra hrole
    have hplain : m.optional = false := hn hrole
    exact absurd hopt (by simp [Node.mark, hplain])
  rw [Node.patternBefore]
  have hsolid : (Node.verbatim m v).isBoundary = false → v.role = .pattern := by simp [Node.isBoundary]
  exact (standing_finish hv.text hrole (fun hopt hatomic _ => hv.atomic (hrole hopt) hatomic) _).mono hsolid

/-- Branches; several of them can be repeated whatever they are. -/
theorem standing_join {ts : List Text} (h : ∀ t ∈ ts, Standing steady False t) :
    Standing steady (2 ≤ ts.length) (Text.join ['|'] ts) := by
  induction ts with
  | nil => exact standing_nil.mono (by simp)
  | cons t ts ih =>
    obtain ⟨ht, hts⟩ := List.forall_mem_cons.1 h
    cases ts with
    | nil => exact ht.mono (by simp)
    | cons u us =>
      have htext : Text.join ['|'] (t :: u :: us) = t ++ '|' :: Text.join ['|'] (u :: us) := List.append_assoc ..
      rw [htext]
      exact (ht.bar (ih hts)).mono fun _ => trivial

theorem length_branchPatterns (mode : Mode) (F : NextChars) (ns : List Node) :
    (Node.branchPatterns mode F ns).length = ns.length := by
  induction ns with
  | nil => rfl
  | cons n ns ih => rw [Node.branchPatterns, List.length_cons, List.length_cons, ih]

theorem exists_not_isBoundary {ns : List Node} (hlength : 2 ≤ ns.length)
    (hchain : ns.IsChain fun n n' => n.isBoundary = true → n'.isBoundary = false) : ∃ n ∈ ns, n.isBoundary = false := by
  match ns, hlength with
  | n :: n' :: rest, _ =>
    cases hn : n.isBoundary with
    | false => exact ⟨n, List.mem_cons_self, hn⟩
    | true => exact ⟨n', List.mem_cons_of_mem _ List.mem_cons_self, (List.isChain_cons_cons.1 hchain).1 hn⟩

abbrev StandingEach (steady : Prop) (ns : List Node) (ts : List Text) : Prop :=
  List.Forall₂ (fun n t => Standing steady (n.isBoundary = false) t) ns ts

theorem StandingEach.each {ns : List Node} {ts : List Text} (h : StandingEach steady ns ts) :
    ∀ t ∈ ts, Standing steady False t := by
  induction h with
  | nil => exact fun _ ht => absurd ht List.not_mem_nil
  | cons hn _ ih => exact List.forall_mem_cons.2 ⟨hn.mono False.elim, ih⟩

/-- The texts of nodes among which boundaries stand apart. -/
theorem StandingEach.texts {ns : List Node} {ts : List Text} (h : StandingEach steady ns ts) (hlength : 2 ≤ ns.length)
    (hchain : ns.IsChain fun n n' => n.isBoundary = true → n'.isBoundary = false) : StandingTexts steady ts := by
  refine ⟨h.each, ?_, ?_⟩
  · clear hlength
    induction h with
    | nil => exact .nil
    | @cons n t ns ts hn hrest ih =>
      cases hrest with
      | nil => exact .singleton t
      | @cons n' t' ns ts hn' hrest =>
        obtain ⟨hapart, hchain⟩ := List.isChain_cons_cons.1 hchain
        refine List.isChain_cons_cons.2 ⟨?_, ih hchain⟩
        cases hb : n.isBoundary with
        | false => exact .inl (hn.mono fun _ => hb)
        | true => exact .inr (hn'.mono fun _ => hapart hb)
  · obtain ⟨n, hn, hb⟩ := exists_not_isBoundary hlength hchain
    clear hlength hchain
    induction h with
    | nil => exact absurd hn List.not_mem_nil
    | cons hfirst _ ih =>
      rcases List.mem_cons.1 hn with rfl | hn
      · exact ⟨_, List.mem_cons_self, hfirst.mono fun _ => hb⟩
      · obtain ⟨t, ht, hsolid⟩ := ih hn
        exact ⟨t, List.mem_cons_of_mem _ ht, hsolid⟩

mutual

/-- Below the top, the text of every node can be read wherever it stands. -/
theorem standing_node : (n : Node) → ∀ {F : NextChars}, n.Shaped (Verbatim.Standing steady) → n.Parted →
    Standing steady (n.isBoundary = false) (n.patternBefore mode F)
  | .leaf _ _, _, hs, _ => (standing_leaf hs.1 hs.2).mono fun _ => trivial
  | .charClass _ _, _, hs, _ => (standing_charClass hs).mono fun _ => trivial
  | .verbatim _ _, _, hs, hp => standing_verbatim hs hp
  | .sequence m children, F, hs, hp => by
    obtain ⟨-, hlen, hshaped⟩ := hs
    obtain ⟨htwo, hchain, hparted⟩ := hp
    have htexts := (@standing_items children F hshaped hparted).texts htwo hchain
    rw [Node.patternBefore]
    refine (standing_finish (standing_abbreviate htexts _ ?_) (fun _ => trivial) (fun _ hatomic => ?_) _).mono fun _ => trivial
    · rw [length_itemPatterns]
      exact hlen
    · exact absurd hatomic Bool.false_ne_true
  | .alternate m children, F, hs, hp => by
    obtain ⟨hroot, hne, hshaped⟩ := hs
    obtain ⟨htwo, hparted⟩ := hp
    have hempty : children.isEmpty = false := by simpa using hne
    have hplace : Node.isRoot (.alternate m children) = false := by simp [Node.isRoot, Node.mark, hroot]
    have hbranches : Standing steady True (Text.join ['|'] (Node.branchPatterns mode F children)) :=
      (standing_join (@standing_branches children F hshaped hparted).each).mono fun _ => by
        rwa [length_branchPatterns]
    rw [Node.patternBefore]
    simp only [hempty, hplace, Bool.false_eq_true, if_false]
    exact (standing_finish (hbranches.group _).standing (fun _ => trivial) (fun _ _ _ => hbranches.group _) _).mono
      fun _ => trivial

theorem standing_items : (ns : List Node) → ∀ {F : NextChars}, Node.ShapedEach (Verbatim.Standing steady) ns →
    Node.PartedEach ns → StandingEach steady ns (Node.itemPatterns mode F ns)
  | [], _, _, _ => .nil
  | n :: rest, _, hs, hp => by
    rw [Node.itemPatterns]
    exact .cons (standing_node n hs.1 hp.1) (standing_items rest hs.2 hp.2)

theorem standing_branches : (ns : List Node) → ∀ {F : NextChars}, Node.ShapedEach (Verbatim.Standing steady) ns →
    Node.PartedEach ns → StandingEach steady ns (Node.branchPatterns mode F ns)
  | [], _, _, _ => .nil
  | n :: rest, _, hs, hp => by
    rw [Node.branchPatterns]
    exact .cons (standing_node n hs.1 hp.1) (standing_branches rest hs.2 hp.2)

end

/-- The text of a whole tree, alternatives at the top without a group. -/
theorem standing_root {n : Node} (hopt : n.mark.optional = false) (hs : n.ShapedRoot (Verbatim.Standing steady))
    (hp : n.Parted) : Standing steady (n.isBoundary = false) (n.pattern mode) := by
  cases n with
  | alternate m children =>
    obtain ⟨hroot, hne, hshaped⟩ := hs
    obtain ⟨htwo, hparted⟩ := hp
    have hempty : children.isEmpty = false := by simpa using hne
    have hplace : Node.isRoot (.alternate m children) = true := by simp [Node.isRoot, Node.mark, hroot]
    rw [Node.pattern, Node.patternBefore]
    simp only [hempty, hplace, Bool.false_eq_true, if_false, if_true, Node.finish, hopt]
    refine (standing_join (standing_branches children hshaped hparted).each).mono fun _ => ?_
    rwa [length_branchPatterns]
  | leaf | charClass | verbatim | sequence => exact standing_node _ hs hp

end Trees

/-! ### Whole patterns -/

/-- Flags, a name or a group around the text of a tree keep it standing. -/
theorem standing_wholePattern {settings : Settings} {root : Node}
    (hname : ∀ name, settings.name = some name → isGroupName name = true)
    (h : Standing steady True (root.pattern settings.mode)) : Standing steady True (settings.wholePattern root) := by
  refine wholePattern_induction (P := fun _ t => Standing steady True t) hname ?_ ?_ ?_ h
  · exact fun h => (h.group true).standing
  · intro i m x t h hflags
    have henclosed := (h.enclosed (lexes_flags hflags) (opens_cons (by decide) _) fun _ _ => by simp).standing
    simpa using henclosed
  · intro t name h hname
    have henclosed := (h.enclosed (lexes_named hname) (opens_cons (by decide) _) fun _ _ => by simp).standing
    simpa using henclosed

/-- A text that can be read wherever it stands is a regular expression. -/
theorem Standing.exists_parse {t : Text} (h : Standing steady True t) :
    ∃ parsed, parse t = .ok parsed ∧ parsed.expr.isRepeatable = true ∧ (steady → parsed.expr.Steady) := by
  obtain ⟨-, ts, hlex, hstands, hsteady⟩ := h
  obtain ⟨parsed, hparsed, hrepeat⟩ := hstands.exists_parse hlex.tokens_eq
  exact ⟨parsed, hparsed, hrepeat, fun ht => steady_parse hlex.tokens_eq (hsteady ht) hparsed⟩

end WordPattern
