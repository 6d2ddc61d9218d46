import WordPattern.Proofs.Fields
import WordPattern.Proofs.Generation.Folded
import WordPattern.Proofs.Generation.Items
import WordPattern.Proofs.Generation.Unambiguous
import WordPattern.Proofs.Writing.Standing

/-! The pattern of a list of words can be read wherever it stands if that holds of the specials and the boundaries.

Boundaries stand at the ends of words only, next to the body of the word. Which ones a word has is told by the
characters at the ends of its body, so no two words differ in boundaries alone. -/

namespace WordPattern

open Regex SymbolTable

variable {settings : Settings} {items words : List Text} {table : SymbolTable} {w : Text} {pieces : List Piece}

/-! ### Bodies -/

/-- Whether a boundary may stand next to a character of a body. -/
def SymbolTable.earnsAt (table : SymbolTable) (settings : Settings) (flag : Verbatim → Bool) (c : Char) : Bool :=
  ((table.lookup? c).map fun s => flag s.verbatim).getD (settings.passesTest c)

section Body

variable (ht : table.Holds settings items) (hw : w ∈ items) (hpieces : table.cut w = .ok pieces)

include ht hpieces

theorem earnsAt_special (flag : Verbatim → Bool) {s : Symbol} (hpiece : .special s ∈ pieces) :
    table.earnsAt settings flag s.placeholder = flag s.verbatim := by
  have hs : s ∈ table.entries := of_cut hpieces _ hpiece
  rw [earnsAt, ht.lookup?_eq_some.2 ⟨mem_symbols.2 (.inl hs), rfl⟩]
  rfl

include hw

theorem earnsAt_literal {flag : Verbatim → Bool} {t : Text} (hpiece : .literal t ∈ pieces) {c : Char}
    (hc : c ∈ settings.pieceText (.literal t)) : table.earnsAt settings flag c = settings.passesTest c := by
  rw [earnsAt, ht.lookup?_eq_none (le_ceiling_of_mem_literal hw hpieces hpiece hc)]
  rfl

/-- The first character of a body tells whether a left boundary may stand before it. -/
theorem any_admitsLeft : pieces.head?.any settings.admitsLeft =
    (settings.boundedWord table pieces).body.head?.any (table.earnsAt settings (·.left)) := by
  change _ = (pieces.flatMap settings.pieceText).head?.any _
  cases hcase : pieces with
  | nil => rfl
  | cons piece rest =>
    have hpiece : piece ∈ pieces := by simp [hcase]
    have hne := pieceText_ne_nil settings (of_cut hpieces piece hpiece)
    obtain ⟨c, t, hct⟩ := List.exists_cons_of_ne_nil hne
    rw [List.flatMap_cons, List.head?_append_of_ne_nil _ hne, List.head?_cons, Option.any_some]
    cases piece with
    | literal text =>
      rw [Settings.admitsLeft, hct, List.head?_cons, Option.all_some, Option.any_some]
      exact (earnsAt_literal ht hw hpieces hpiece (by simp [hct])).symm
    | special s => exact (earnsAt_special ht hpieces (·.left) hpiece).symm

/-- The last character of a body tells whether a right boundary may stand after it. -/
theorem any_admitsRight : pieces.getLast?.any settings.admitsRight =
    (settings.boundedWord table pieces).body.getLast?.any (table.earnsAt settings (·.right)) := by
  change _ = (pieces.flatMap settings.pieceText).getLast?.any _
  rcases List.eq_nil_or_concat' pieces with hcase | ⟨rest, piece, hcase⟩
  · rw [hcase]
    rfl
  · have hpiece : piece ∈ pieces := by simp [hcase]
    have hne := pieceText_ne_nil settings (of_cut hpieces piece hpiece)
    have hlast := List.getLast?_eq_some_getLast hne
    rw [hcase, List.flatMap_append, List.flatMap_singleton, List.getLast?_append_of_ne_nil _ hne, List.getLast?_concat,
      Option.any_some]
    cases piece with
    | literal text =>
      rw [Settings.admitsRight, hlast, Option.all_some, Option.any_some]
      exact (earnsAt_literal ht hw hpieces hpiece (List.getLast_mem hne)).symm
    | special s => exact (earnsAt_special ht hpieces (·.right) hpiece).symm

end Body

/-- Words with the same body have the same boundaries. -/
theorem text_eq_of_body_eq (ht : table.Holds settings items) {v : Text} {pieces' : List Piece} (hv : v ∈ items)
    (hw : w ∈ items) (hpieces' : table.cut v = .ok pieces') (hpieces : table.cut w = .ok pieces)
    (hbody : (settings.boundedWord table pieces').body = (settings.boundedWord table pieces).body) :
    (settings.boundedWord table pieces').text = (settings.boundedWord table pieces).text := by
  have htext : ∀ {u : Text} {ps : List Piece}, u ∈ items → table.cut u = .ok ps →
      (settings.boundedWord table ps).text =
        (if (settings.boundedWord table ps).body.head?.any (table.earnsAt settings (·.left)) then
            table.left.map (·.placeholder) else none).toList ++ (settings.boundedWord table ps).body ++
          (if (settings.boundedWord table ps).body.getLast?.any (table.earnsAt settings (·.right)) then
            table.right.map (·.placeholder) else none).toList := by
    intro u ps hu hps
    rw [← any_admitsLeft ht hu hps, ← any_admitsRight ht hu hps]
    rfl
  rw [htext hv hpieces', htext hw hpieces, hbody]

/-! ### Boundaries -/

/-- What is asserted at the edge of a word is a boundary. -/
theorem isBoundary_of_isEdge (ht : table.Holds settings items) {c : Char} (hc : IsEdge table.meaning c) :
    ∃ s, (table.left = some s ∨ table.right = some s) ∧ s.placeholder = c := by
  obtain ⟨v, hv, hrole⟩ := hc
  obtain ⟨s, hs, rfl, rfl⟩ := ht.meaning_eq_some.1 hv
  rcases mem_symbols.1 hs with hs | hs
  · obtain ⟨rule, -, heq⟩ := ht.entry_verbatim hs
    rw [heq] at hrole
    exact absurd rfl hrole
  · exact ⟨s, hs, rfl⟩

theorem not_isEdge_of_mem_body (ht : table.Holds settings items) (hw : w ∈ items) (hpieces : table.cut w = .ok pieces)
    {c : Char} (hc : c ∈ (settings.boundedWord table pieces).body) : ¬ IsEdge table.meaning c := by
  intro hedge
  obtain ⟨s, hs, rfl⟩ := isBoundary_of_isEdge ht hedge
  exact Vocabulary.placeholder_not_mem_body ht hw hpieces hs hc

/-- Boundaries do not follow each other, and no word is another one without a boundary. -/
theorem edged_words (ht : table.Holds settings items) (hitems : ∀ w ∈ items, w ≠ []) {vocabulary : Vocabulary}
    (h : Vocabulary.ofWords settings table items = .ok vocabulary) : Edged table.meaning vocabulary.words where
  apart x hx := by
    obtain ⟨-, w, hw, pieces, hpieces, rfl⟩ := (Vocabulary.mem_words h).1 hx
    have hinner := fun c hc => @not_isEdge_of_mem_body _ _ _ _ _ ht hw hpieces c hc
    have hne := body_ne_nil settings hpieces (hitems w hw)
    have hside : ∀ side : Option Char,
        side.toList.IsChain fun c d => IsEdge table.meaning c → ¬ IsEdge table.meaning d := by
      intro side
      cases side with
      | none => exact .nil
      | some c => exact .singleton c
    have hbody : (settings.boundedWord table pieces).body.IsChain
        fun c d => IsEdge table.meaning c → ¬ IsEdge table.meaning d :=
      (List.pairwise_iff_forall_sublist.2 fun {c d} hsub hc =>
        absurd hc (hinner c (hsub.subset List.mem_cons_self))).isChain
    refine ((hside _).append hbody fun c _ d hd _ => hinner d (List.mem_of_mem_head? hd)).append (hside _) ?_
    intro c hc d _ hedge
    rw [List.getLast?_append_of_ne_nil _ hne] at hc
    exact absurd hedge (hinner c (List.mem_of_mem_getLast? hc))
  needed {a b c} hc hlong hshort := by
    obtain ⟨-, v, hv, pieces', hpieces', hlong⟩ := (Vocabulary.mem_words h).1 hlong
    obtain ⟨-, w, hw, pieces, hpieces, hshort⟩ := (Vocabulary.mem_words h).1 hshort
    obtain ⟨s, hs, hplaceholder⟩ := isBoundary_of_isEdge ht hc
    have hboundary : table.isBoundary c = true := by
      rw [SymbolTable.isBoundary]
      rcases hs with hs | hs <;> simp [hs, hplaceholder]
    have hbody : (settings.boundedWord table pieces').body = (settings.boundedWord table pieces).body := by
      rw [← bodyOf_text ht hv hpieces', ← bodyOf_text ht hw hpieces, ← hlong, ← hshort]
      simp [bodyOf, hboundary]
    have htext := text_eq_of_body_eq ht hv hw hpieces' hpieces hbody
    rw [← hlong, ← hshort] at htext
    simpa using congrArg List.length htext

/-- No word is a boundary alone. -/
theorem not_isEdge_alone (ht : table.Holds settings items) (hitems : ∀ w ∈ items, w ≠ []) {vocabulary : Vocabulary}
    (h : Vocabulary.ofWords settings table items = .ok vocabulary) {c : Char} (hc : [c] ∈ vocabulary.words) :
    ¬ IsEdge table.meaning c := by
  obtain ⟨-, w, hw, pieces, hpieces, heq⟩ := (Vocabulary.mem_words h).1 hc
  obtain ⟨d, hd⟩ := List.exists_mem_of_ne_nil _ (body_ne_nil settings hpieces (hitems w hw))
  have hin : d ∈ (settings.boundedWord table pieces).text :=
    List.mem_append_left _ (List.mem_append_right _ hd)
  rw [← heq, List.mem_singleton] at hin
  exact hin ▸ not_isEdge_of_mem_body ht hw hpieces hd

/-- Where no item is empty, neither is the vocabulary. -/
theorem words_ne_nil (hne : items ≠ []) (hitems : ∀ w ∈ items, w ≠ []) {vocabulary : Vocabulary}
    (h : Vocabulary.ofWords settings table items = .ok vocabulary) : vocabulary.words ≠ [] := by
  obtain ⟨w, hw⟩ := List.exists_mem_of_ne_nil _ hne
  obtain ⟨pieces, hpieces⟩ := Vocabulary.exists_cut h hw
  have hbody := body_ne_nil settings hpieces (hitems w hw)
  exact List.ne_nil_of_mem ((Vocabulary.mem_words h).2 ⟨by simp [BoundedWord.text, hbody], w, hw, pieces, hpieces, rfl⟩)

/-! ### Lengths -/

/-- Items have characters, and take no more bytes than a given word. -/
theorem of_mem_filter (hs : settings.normalizeBlanks = true → settings.trim = true) (hw : w ∈ settings.filter words) :
    w ≠ [] ∧ ∃ v ∈ words, w.byteCount ≤ v.byteCount := by
  obtain ⟨v, hv, hw⟩ := List.mem_filterMap.1 hw
  have htrim : v.trim.byteCount ≤ v.byteCount := byteCount_le_of_sublist v.trim_sublist
  by_cases hblanks : settings.normalizeBlanks = true
  · simp only [hs hblanks, hblanks, if_true] at hw
    split_ifs at hw with hempty
    obtain rfl := Option.some.inj hw
    have hfields : v.trim.fields ≠ [] := by
      rw [Text.fields_trim, Ne, ← Text.trim_eq_nil_iff]
      simpa using hempty
    obtain ⟨⟨-, -, c, -, hc⟩, -⟩ := Text.ends_join [' '] hfields fun f hf => (Text.of_mem_fields hf).1
    exact ⟨fun hnil => by simp [hnil] at hc, v, hv, (Text.byteCount_join_fields_le _).trans htrim⟩
  · obtain ⟨hne, u, hu, hsub⟩ := Settings.of_filter (by simpa using hblanks) (List.mem_filterMap.2 ⟨v, hv, hw⟩)
    exact ⟨hne, u, hu, byteCount_le_of_sublist hsub⟩

theorem Settings.trim_of_normalizeBlanks {o : Options} (h : Settings.ofOptions o = .ok settings)
    (hblanks : settings.normalizeBlanks = true) : settings.trim = true := by
  obtain ⟨-, _, _, -, -, rfl⟩ := Settings.ofOptions_eq_ok h
  exact Bool.or_eq_true_iff.2 (.inr hblanks)

theorem Settings.filter_ne_nil {o : Options} (h : Settings.ofOptions o = .ok settings) (words : List Text) :
    ∀ w ∈ settings.filter words, w ≠ [] :=
  fun _ hw => (of_mem_filter (Settings.trim_of_normalizeBlanks h) hw).1

/-- Where keys are literal, the body of a word has no more characters than the item has bytes. -/
theorem length_body_le (ht : ofWords settings items = .ok table) (hrules : ∀ rule ∈ settings.rules, rule.IsLiteral)
    (hpieces : table.cut w = .ok pieces) : (settings.boundedWord table pieces).body.length ≤ w.byteCount := by
  have hpiece : ∀ piece ∈ pieces, (settings.pieceText piece).length ≤ piece.source.byteCount := by
    intro piece hpiece
    have hof := of_cut hpieces piece hpiece
    cases piece with
    | literal t =>
      unfold Settings.pieceText
      simp only
      split_ifs
      · exact length_lowerAfter_le [] t
      · exact length_le_byteCount t
    | special s => exact (List.length_pos_iff.2 (label_ne_nil ht hrules hof)).trans_le (length_le_byteCount _)
  have hsource : pieces.flatMap Piece.source = w := by
    rw [cut_eq_scan ht hrules] at hpieces
    rw [← Except.ok.inj hpieces]
    exact flatMap_source_scan (fun s hs => label_ne_nil ht hrules hs) w
  change (pieces.flatMap settings.pieceText).length ≤ _
  rw [← hsource]
  clear hsource hpieces
  induction pieces with
  | nil => exact Nat.zero_le _
  | cons piece rest ih =>
    obtain ⟨hfirst, hrest⟩ := List.forall_mem_cons.1 hpiece
    have ih := ih hrest
    rw [List.flatMap_cons, List.flatMap_cons, List.length_append, Text.byteCount_eq_size, Text.size_append,
      ← Text.byteCount_eq_size, ← Text.byteCount_eq_size]
    omega

theorem length_text_le (b : BoundedWord) : b.text.length ≤ b.body.length + 2 := by
  have hside : ∀ side : Option Char, side.toList.length ≤ 1 := fun side => by cases side <;> simp
  have hleft := hside b.left
  have hright := hside b.right
  rw [BoundedWord.text, List.length_append, List.length_append]
  omega

/-- The words of a vocabulary are far shorter than the limit on counts if the given words are. -/
theorem length_words_lt (hs : settings.normalizeBlanks = true → settings.trim = true)
    (hrules : ∀ rule ∈ settings.rules, rule.IsLiteral) (hstorable : ∀ w ∈ words, w.Storable)
    (ht : ofWords settings (settings.filter words) = .ok table) {vocabulary : Vocabulary}
    (h : Vocabulary.ofWords settings table (settings.filter words) = .ok vocabulary) :
    ∀ x ∈ vocabulary.words, x.length < boundLimit := by
  intro x hx
  obtain ⟨-, w, hw, pieces, hpieces, rfl⟩ := (Vocabulary.mem_words h).1 hx
  obtain ⟨-, v, hv, hle⟩ := of_mem_filter hs hw
  have hv := hstorable v hv
  have hbody := length_body_le ht hrules hpieces
  have htext := length_text_le (settings.boundedWord table pieces)
  unfold Text.Storable at hv
  unfold boundLimit
  omega

/-! ### All stages -/

/-- What the specials and the boundaries write can be read wherever it stands. -/
structure Settings.Standing (settings : Settings) (steady : Prop) : Prop where
  rule : ∀ rule ∈ settings.rules, rule.verbatim.Standing steady
  left : ∀ pattern, settings.boundary.bind (·.left) = some pattern → WordPattern.Standing steady False pattern
  right : ∀ pattern, settings.boundary.bind (·.right) = some pattern → WordPattern.Standing steady False pattern

variable {steady : Prop}

theorem standing_boundary {v : Verbatim} (hrole : v.role ≠ .pattern) (h : Standing steady False v.pattern) :
    v.Standing steady :=
  ⟨h.mono fun hpattern => hrole hpattern, fun hpattern => absurd hpattern hrole⟩

theorem standing_of_meaning (ht : table.Holds settings items) (hs : settings.Standing steady) {c : Char} {v : Verbatim}
    (hv : table.meaning c = some v) : v.Standing steady := by
  obtain ⟨s, hs', -, rfl⟩ := ht.meaning_eq_some.1 hv
  rcases mem_symbols.1 hs' with hs' | hs' | hs'
  · obtain ⟨rule, hrule, heq⟩ := ht.entry_verbatim hs'
    rw [heq]
    exact hs.rule rule hrule
  · obtain ⟨pattern, hpattern, heq⟩ := ht.left_verbatim hs'
    rw [heq]
    exact standing_boundary (by simp) (hs.left pattern hpattern)
  · obtain ⟨pattern, hpattern, heq⟩ := ht.right_verbatim hs'
    rw [heq]
    refine standing_boundary ?_ (hs.right pattern hpattern)
    simp only
    split_ifs <;> simp

theorem mark_place_flatten (n : Node) (p : Position) : (n.flatten.place p).mark = ⟨n.mark.optional, p⟩ := by
  cases n <;> rfl

/-- The tree of the words is not optional; boundaries stand apart in it, and it is not one itself. -/
theorem Generation.Made.root_spec {generation : Generation} (h : generation.Made settings words)
    (hitems : ∀ w ∈ settings.filter words, w ≠ []) :
    generation.root.mark = ⟨false, .root⟩ ∧ generation.root.Parted ∧ generation.root.isBoundary = false := by
  have ht := holds_of_ofWords h.table
  have hlisted := Vocabulary.listed_words h.vocabulary (words_ne_nil h.filtered hitems h.vocabulary)
  obtain ⟨hparted, halone⟩ := @Node.parted_build _ settings.ignoreCase _ hlisted (edged_words ht hitems h.vocabulary)
  rw [h.root]
  refine ⟨?_, hparted, ?_⟩
  · rw [tree, Node.build, mark_place_flatten, Node.mark_ofWords hlisted]
    rfl
  · by_contra hboundary
    obtain ⟨x, hx⟩ := List.exists_mem_of_ne_nil _ hlisted.ne_nil
    obtain ⟨c, rfl, hc⟩ := halone (Bool.eq_true_of_not_eq_false hboundary) x hx
    exact not_isEdge_alone ht hitems h.vocabulary hx hc

/-- The tree of the words can be read wherever it stands, and so can the whole pattern. -/
theorem Generation.Made.standing {generation : Generation} (h : generation.Made settings words)
    (hname : ∀ name, settings.name = some name → isGroupName name = true) (hs : settings.Standing steady)
    (hitems : ∀ w ∈ settings.filter words, w ≠ [])
    (hlen : ∀ x ∈ generation.vocabulary.words, x.length < boundLimit) : Standing steady True generation.pattern := by
  have ht := holds_of_ofWords h.table
  have hlisted := Vocabulary.listed_words h.vocabulary (words_ne_nil h.filtered hitems h.vocabulary)
  obtain ⟨hmark, hparted, hboundary⟩ := h.root_spec hitems
  rw [h.pattern]
  apply standing_wholePattern hname
  refine (standing_root ?_ ?_ hparted).mono fun _ => hboundary
  · rw [hmark]
  · rw [h.root]
    exact Node.shapedRoot_place (fits_ofWords (fun c v hv => standing_of_meaning ht hs hv) hlisted hlen).shaped

end WordPattern
