import WordPattern.Proofs.Generation.Unambiguous
import WordPattern.Proofs.Trees.Flattening
import WordPattern.Proofs.Trees.Parted

/-! The form of the tree of a list of words.

It is found on the flattened tree, case by case as the tree is made. All that it asks for, but for the places of nodes,
is still there when the places are recorded. -/

namespace WordPattern.Node

def isAlternate : Node → Bool
  | alternate _ _ => true
  | _ => false

def branches : Node → List Node
  | alternate _ children => children
  | _ => []

def present (n : Node) : Node := n.withMark { n.mark with optional := false }

/-- The letters that derivations begin with. -/
def heads (n : Node) : List Letter := n.derivations.filterMap (·.head?)

def Single : Node → Prop
  | leaf _ text => text.length = 1
  | _ => True

/-- The form of a node in the tree of a list of words. -/
structure Canonical (n : Node) : Prop where
  single : n.Single
  /-- A sequence or alternatives of fewer children stand for something simpler. -/
  many : n.isTip = false → 2 ≤ n.children.length
  flat : n.Flat
  /-- No branch is made of branches itself. -/
  direct : ∀ b ∈ n.branches, b.isAlternate = false
  /-- The next letter decides between branches. -/
  apart : n.branches.Pairwise fun b b' => b.heads.Disjoint b'.heads
  nonempty : ∀ b ∈ n.branches, [] ∉ b.derivations
  /-- What may be left out does not stand for nothing anyway. -/
  optional : n.mark.optional = true → [] ∉ n.present.derivations
  productive : n.present.derivations ≠ []

/-- The form of the tree of a list of words. -/
structure CanonicalRoot (root : Node) : Prop where
  mark : root.mark = ⟨false, .root⟩
  below : EverywhereEach (fun n => n.mark.position ≠ .root) root.children
  everywhere : root.Everywhere Canonical

/-! ### Nodes -/

section Nodes

variable {P : Node → Prop} {n m : Node} {ns : List Node}

theorem everywhere_iff : n.Everywhere P ↔ P n ∧ EverywhereEach P n.children := by
  cases n <;> simp [Everywhere, children, EverywhereEach]

theorem present_eq_self (h : n.mark.optional = false) : n.present = n := by
  cases n with
  | leaf m | charClass m | verbatim m | sequence m | alternate m =>
    obtain ⟨optional, position⟩ := m
    obtain rfl : optional = false := h
    rfl

theorem mark_flatten (n : Node) : n.flatten.mark = n.mark := by
  cases n <;> rfl

theorem isAlternate_flatten (n : Node) : n.flatten.isAlternate = n.isAlternate := by
  cases n <;> rfl

theorem heads_flatten (n : Node) : n.flatten.heads = n.heads := by
  rw [heads, derivations_flatten, heads]

/-- Only what may be left out does not depend on the mark. -/
theorem Canonical.optionalIf (h : n.Canonical) (hnil : [] ∉ n.present.derivations) (yes : Bool) :
    (n.optionalIf yes).Canonical := by
  cases yes with
  | false => exact h
  | true =>
    cases n with
    | leaf | charClass | verbatim | sequence | alternate =>
      exact ⟨h.single, h.many, h.flat, h.direct, h.apart, h.nonempty, fun _ => hnil, h.productive⟩

theorem everywhere_optionalIf (h : n.Everywhere Canonical) (hnil : [] ∉ n.present.derivations) (yes : Bool) :
    (n.optionalIf yes).Everywhere Canonical := by
  have hchildren : (n.optionalIf yes).children = n.children := by
    unfold optionalIf
    split_ifs
    · cases n <;> rfl
    · rfl
  obtain ⟨hn, hbelow⟩ := everywhere_iff.1 h
  exact everywhere_iff.2 ⟨hn.optionalIf hnil yes, hchildren ▸ hbelow⟩

/-- A new tip. -/
theorem everywhere_tip (htip : n.isTip = true) (hmark : n.mark = .plain) (hsingle : n.Single)
    (hproductive : n.derivations ≠ []) : n.Everywhere Canonical := by
  cases n with
  | sequence | alternate => contradiction
  | leaf m | charClass m | verbatim m =>
    obtain rfl : m = .plain := hmark
    exact ⟨hsingle, nofun, trivial, List.forall_mem_nil _, .nil, List.forall_mem_nil _, nofun, hproductive⟩

/-- A new sequence, flattened. -/
theorem everywhere_sequence (hmany : 2 ≤ (flattenInto ns).length) (heach : EverywhereEach Canonical (flattenInto ns))
    (hproductive : itemDerivations ns ≠ []) : (sequence .plain ns).flatten.Everywhere Canonical := by
  rw [← itemDerivations_flattenInto ns] at hproductive
  exact ⟨⟨trivial, fun _ => hmany, fun c hc => (flat_flattenInto ns c hc).1, List.forall_mem_nil _, .nil,
    List.forall_mem_nil _, nofun, hproductive⟩, heach⟩

/-- Inlining a node leaves something. -/
theorem inlined_ne_nil (h : n.Everywhere Canonical) : n.inlined ≠ [] ∧ EverywhereEach Canonical n.inlined := by
  rcases inlined_cases n with ⟨m, children, rfl, -, hinlined⟩ | ⟨-, hinlined⟩
  · rw [hinlined]
    refine ⟨?_, h.2⟩
    have hmany := h.1.many rfl
    rintro rfl
    contradiction
  · rw [hinlined]
    exact ⟨List.cons_ne_nil n [], h, trivial⟩

theorem everywhere_pair (hn : n.flatten.Everywhere Canonical) (hm : m.flatten.Everywhere Canonical)
    (hproductive : (ofSequence [n, m]).derivations ≠ []) : (ofSequence [n, m]).flatten.Everywhere Canonical := by
  obtain ⟨hne, hn⟩ := inlined_ne_nil hn
  obtain ⟨hne', hm⟩ := inlined_ne_nil hm
  refine everywhere_sequence ?_ ?_ hproductive
  · have hpos := List.length_pos_iff.2 hne
    have hpos' := List.length_pos_iff.2 hne'
    rw [flattenInto_pair, List.length_append]
    omega
  · rw [everywhereEach_iff] at hn hm ⊢
    rw [flattenInto_pair]
    exact List.forall_mem_append.2 ⟨hn, hm⟩

/-- Alternatives of nodes that begin with different letters. -/
theorem everywhere_ofBranches (hne : ns ≠ []) (heach : ∀ n ∈ ns, n.flatten.Everywhere Canonical)
    (hdirect : ∀ n ∈ ns, n.isAlternate = false) (hapart : ns.Pairwise fun b b' => b.heads.Disjoint b'.heads)
    (hnonempty : ∀ n ∈ ns, [] ∉ n.derivations) (hproductive : ∀ n ∈ ns, n.derivations ≠ []) :
    (ofBranches ns).flatten.Everywhere Canonical := by
  have hproductive : branchDerivations (flattenEach ns) ≠ [] := by
    obtain ⟨n, hn⟩ := List.exists_mem_of_ne_nil _ hne
    obtain ⟨x, hx⟩ := List.exists_mem_of_ne_nil _ (hproductive n hn)
    rw [branchDerivations_flattenEach]
    exact List.ne_nil_of_mem (mem_branchDerivations.2 ⟨n, hn, hx⟩)
  unfold ofBranches
  split
  · exact heach _ List.mem_cons_self
  · rename_i hone
    rw [flatten, flattenEach_eq] at *
    refine ⟨⟨trivial, fun _ => ?_, trivial, ?_, ?_, ?_, nofun, hproductive⟩, ?_⟩
    · change 2 ≤ (ns.map flatten).length
      have hlength : ns.length ≠ 1 := fun h => by
        obtain ⟨n, hn⟩ := List.length_eq_one_iff.1 h
        exact hone n hn
      have hpos := List.length_pos_iff.2 hne
      rw [List.length_map]
      omega
    · refine List.forall_mem_map.2 fun n hn => ?_
      rw [isAlternate_flatten]
      exact hdirect n hn
    · refine List.pairwise_map.2 (hapart.imp fun {b b'} h => ?_)
      rwa [heads_flatten, heads_flatten]
    · refine List.forall_mem_map.2 fun n hn => ?_
      rw [derivations_flatten]
      exact hnonempty n hn
    · exact everywhereEach_iff.2 (List.forall_mem_map.2 heach)

end Nodes

/-! ### Words -/

section Words

variable {symbol : Char → Option Verbatim} {words vs ws : List Text} {n m : Node}

theorem isAlternate_word (w : Text) : (ofSequence (w.map (ofChar symbol))).isAlternate = false := by
  unfold ofSequence
  split
  · rename_i n hn
    obtain ⟨c, -, rfl⟩ := List.mem_map.1 (hn ▸ List.mem_singleton_self n)
    unfold ofChar
    split <;> rfl
  · rfl

/-- Words that begin alike are a product, so they do not fall apart. -/
theorem isAlternate_ofWords {ignoreCase : Bool} (h : Listed words) (halike : ∀ v ∈ words, ∀ w ∈ words, v.head? = w.head?) :
    (ofWords symbol ignoreCase words).isAlternate = false := by
  match words, h with
  | [], h => exact absurd rfl h.ne_nil
  | [w], _ =>
    rw [ofWords]
    exact isAlternate_word w
  | v :: w :: rest, h =>
    have hv : v ∈ v :: w :: rest := List.mem_cons_self
    have hw : w ∈ v :: w :: rest := List.mem_cons_of_mem v List.mem_cons_self
    have htwo : 2 ≤ (v :: w :: rest).length := by simp
    obtain ⟨c, hc⟩ := Option.ne_none_iff_exists'.1 (mt List.head?_eq_none_iff.1 (h.nonempty v hv))
    have hlong : ¬ ∀ u ∈ v :: w :: rest, u.length = 1 := fun hlong => by
      have hlt : v < w := (List.pairwise_cons.1 h.ordered).1 w List.mem_cons_self
      obtain ⟨a, rfl⟩ := List.length_eq_one_iff.1 (hlong v hv)
      obtain ⟨b, rfl⟩ := List.length_eq_one_iff.1 (hlong w hw)
      obtain rfl : a = b := by simpa using halike [a] hv [b] hw
      exact lt_irrefl _ hlt
    have hnil : ¬ ∀ u ∈ v :: w :: rest, u = [] := fun hnil => h.nonempty v hv (hnil v hv)
    obtain ⟨f, hf⟩ := Option.ne_none_iff_exists'.1
      (Factoring.best?_ne_none htwo (fun u hu => (halike u hu v hv).trans hc) hlong)
    rw [ofWords_many htwo, if_neg hlong, if_neg hnil, hf]
    rfl

theorem Spells.derivations_ne_nil (h : Spells symbol words n) (hne : words ≠ []) : n.derivations ≠ [] := by
  obtain ⟨w, hw⟩ := List.exists_mem_of_ne_nil _ hne
  exact List.ne_nil_of_mem ((h _).2 ⟨w, hw, rfl⟩)

/-- A node that derives words begins like one of them. -/
theorem Spells.head (h : Spells symbol words n) {l : Letter} (hl : l ∈ n.heads) :
    ∃ w ∈ words, w.head?.map (.ofChar symbol) = some l := by
  obtain ⟨x, hx, hhead⟩ := List.mem_filterMap.1 hl
  obtain ⟨w, hw, rfl⟩ := (h x).1 hx
  rw [spell, List.head?_map] at hhead
  exact ⟨w, hw, hhead⟩

theorem Spells.disjoint (hinj : Function.Injective (Letter.ofChar symbol)) (hn : Spells symbol vs n)
    (hm : Spells symbol ws m) (h : ∀ v ∈ vs, ∀ w ∈ ws, v.head? ≠ w.head?) : n.heads.Disjoint m.heads := by
  intro l hl hl'
  obtain ⟨v, hv, hvl⟩ := hn.head hl
  obtain ⟨w, hw, hwl⟩ := hm.head hl'
  exact h v hv w hw (Option.map_injective hinj (hvl.trans hwl.symm))

theorem everywhere_ofChar (c : Char) : (ofChar symbol c).Everywhere Canonical := by
  have hproductive : (ofChar symbol c).derivations ≠ [] := by
    rw [derivations_ofChar]
    exact List.cons_ne_nil _ _
  unfold ofChar at *
  split at *
  · exact everywhere_tip rfl rfl trivial hproductive
  · exact everywhere_tip rfl rfl rfl hproductive

theorem everywhere_word {w : Text} (hne : w ≠ []) :
    (ofSequence (w.map (ofChar symbol))).flatten.Everywhere Canonical := by
  match w, hne with
  | [c], _ =>
    change (ofChar symbol c).flatten.Everywhere Canonical
    rw [(inlined_ofChar c).1]
    exact everywhere_ofChar c
  | c :: d :: w, _ =>
    have hitems : flattenInto ((c :: d :: w).map (ofChar symbol)) = (c :: d :: w).map (ofChar symbol) :=
      flattenInto_word (c :: d :: w)
    refine everywhere_sequence ?_ ?_ ?_
    · rw [hitems, List.length_map]
      simp
    · rw [hitems, everywhereEach_iff]
      exact List.forall_mem_map.2 fun c _ => everywhere_ofChar c
    · exact (spells_word (c :: d :: w)).derivations_ne_nil (List.cons_ne_nil _ [])

/-- The part of words that some of them do not have. -/
theorem everywhere_rests (h : Listed words) (hn : (ofWords symbol false words).flatten.Everywhere Canonical) (yes : Bool) :
    ((ofWords symbol false words).optionalIf yes).flatten.Everywhere Canonical := by
  rw [flatten_optionalIf]
  refine everywhere_optionalIf hn ?_ yes
  rw [present_eq_self, derivations_flatten]
  · exact (spells_of_listed h).nil_notMem h.nonempty
  · rw [mark_flatten, mark_ofWords h]
    rfl

/-- The class of characters that stand together. -/
theorem spells_class {lone : List Char} (hlit : ∀ c ∈ lone, symbol c = none) :
    Spells symbol (lone.map fun c => [c]) (ofClass (.ofChars lone false)) := by
  intro x
  rw [mem_derivations_ofClass hlit]
  simp only [List.mem_map, exists_exists_and_eq_and]

/-- Words that fall apart. -/
theorem everywhere_groups (hinj : Function.Injective (Letter.ofChar symbol)) {lone : List Char} {others : List (List Text)}
    (h : Listed words) (hbranching : Branching symbol words lone others)
    (hothers : ∀ g ∈ others, Listed g ∧ (ofWords symbol false g).flatten.Everywhere Canonical) :
    (ofBranches (classOf false lone ++ others.map (ofWords symbol false))).flatten.Everywhere Canonical := by
  have hclass : Spells symbol (lone.map fun c => [c]) (ofClass (.ofChars lone false)) := spells_class hbranching.literal
  have hgroup : ∀ g ∈ others, Spells symbol g (ofWords symbol false g) := fun g hg => spells_of_listed (hothers g hg).1
  have hbranch : ∀ n ∈ classOf false lone ++ others.map (ofWords symbol false),
      ∃ vs, vs ≠ [] ∧ (∀ v ∈ vs, v ≠ []) ∧ Spells symbol vs n := fun n hn => by
    rcases mem_branches.1 hn with ⟨hlone, rfl⟩ | ⟨g, hg, rfl⟩
    · exact ⟨_, mt List.map_eq_nil_iff.1 hlone, List.forall_mem_map.2 fun c _ => List.cons_ne_nil c [], hclass⟩
    · exact ⟨g, (hothers g hg).1.ne_nil, (hothers g hg).1.nonempty, hgroup g hg⟩
  refine everywhere_ofBranches (branches_ne_nil hbranching h.ne_nil _) (fun n hn => ?_) (fun n hn => ?_) ?_
    (fun n hn => ?_) fun n hn => ?_
  · rcases mem_branches.1 hn with ⟨hlone, rfl⟩ | ⟨g, hg, rfl⟩
    · exact everywhere_tip rfl rfl trivial (hclass.derivations_ne_nil (mt List.map_eq_nil_iff.1 hlone))
    · exact (hothers g hg).2
  · rcases mem_branches.1 hn with ⟨-, rfl⟩ | ⟨g, hg, rfl⟩
    · rfl
    · exact isAlternate_ofWords (hothers g hg).1 (hbranching.alike g hg)
  · refine List.pairwise_append.2 ⟨?_, ?_, fun n hn m hm => ?_⟩
    · unfold classOf
      split_ifs
      · exact .nil
      · exact List.pairwise_singleton _ _
    · refine List.pairwise_map.2 (hbranching.rising.imp_of_mem fun {g g'} hg hg' hbefore => ?_)
      exact (hgroup g hg).disjoint hinj (hgroup g' hg') fun v hv w hw => (hbefore v hv w hw).head?_ne
    · obtain ⟨-, rfl⟩ := mem_classOf.1 hn
      obtain ⟨g, hg, rfl⟩ := List.mem_map.1 hm
      refine hclass.disjoint hinj (hgroup g hg) (List.forall_mem_map.2 fun c hc w hw => ?_)
      exact (hbranching.apart c hc g hg w hw).symm
  · obtain ⟨vs, -, hvs, hspells⟩ := hbranch n hn
    exact hspells.nil_notMem hvs
  · obtain ⟨vs, hne, -, hspells⟩ := hbranch n hn
    exact hspells.derivations_ne_nil hne

theorem everywhere_ofWords (hinj : Function.Injective (Letter.ofChar symbol)) (h : Listed words) :
    (ofWords symbol false words).flatten.Everywhere Canonical := by
  refine ofWords_induction (P := fun _ n => n.flatten.Everywhere Canonical) ?_ ?_ ?_ ?_ words h
  · exact fun w hne => everywhere_word hne
  · intro words parts rests k h hproduct _ _ hparts hrests hn hm
    have hrest : Spells symbol _ (ofWords symbol false (nonemptyWords rests)) := spells_of_listed hrests
    have hspells := spells_product (spells_of_listed hparts) (spells_optionalIf hrest) hproduct.mem
    exact everywhere_pair hn (everywhere_rests hrests hm _) (hspells.derivations_ne_nil h.ne_nil)
  · intro words rests parts k h hproduct _ _ hparts hrests hn hm
    have hrest : Spells symbol _ (ofWords symbol false (nonemptyWords rests)) := spells_of_listed hrests
    have hspells := spells_product (spells_optionalIf hrest) (spells_of_listed hparts) hproduct.mem
    exact everywhere_pair (everywhere_rests hrests hn _) hm (hspells.derivations_ne_nil h.ne_nil)
  · exact fun words lone others h hbranching hothers => everywhere_groups hinj h hbranching hothers

end Words

/-! ### Places -/

section Places

variable {P Q : Node → Prop}

mutual

/-- What holds below the top of a tree once it is placed. -/
theorem Everywhere.place (hPQ : ∀ n p, p ≠ .root → P n → Q (place p n)) : {n : Node} → n.Everywhere P →
    {p : Position} → p ≠ .root → (n.place p).Everywhere Q
  | .leaf _ _, h, _, hp | .charClass _ _, h, _, hp | .verbatim _ _, h, _, hp => hPQ _ _ hp h
  | .sequence _ _, h, _, hp => ⟨hPQ _ _ hp h.1, EverywhereEach.placeItems hPQ h.2 true⟩
  | .alternate _ _, h, _, hp => ⟨hPQ _ _ hp h.1, EverywhereEach.placeEach hPQ h.2 (branchPosition_ne_root _)⟩

theorem EverywhereEach.placeItems (hPQ : ∀ n p, p ≠ .root → P n → Q (place p n)) : {ns : List Node} →
    EverywhereEach P ns → (first : Bool) → EverywhereEach Q (placeItems first ns)
  | [], _, _ => trivial
  | [_], h, first => ⟨Everywhere.place hPQ h.1 (by cases first <;> simp), trivial⟩
  | _ :: _ :: _, h, first =>
    ⟨Everywhere.place hPQ h.1 (by cases first <;> simp), EverywhereEach.placeItems hPQ h.2 false⟩

theorem EverywhereEach.placeEach (hPQ : ∀ n p, p ≠ .root → P n → Q (place p n)) : {ns : List Node} →
    EverywhereEach P ns → {p : Position} → p ≠ .root → EverywhereEach Q (placeEach p ns)
  | [], _, _, _ => trivial
  | _ :: _, h, _, hp => ⟨Everywhere.place hPQ h.1 hp, EverywhereEach.placeEach hPQ h.2 hp⟩

end

theorem everywhereEach_children_place (hPQ : ∀ n p, p ≠ .root → P n → Q (place p n)) {n : Node} (h : n.Everywhere P)
    (p : Position) : EverywhereEach Q (n.place p).children := by
  cases n with
  | leaf | charClass | verbatim => trivial
  | sequence => exact EverywhereEach.placeItems hPQ h.2 true
  | alternate => exact EverywhereEach.placeEach hPQ h.2 (branchPosition_ne_root p)

theorem mark_place (n : Node) (p : Position) : (n.place p).mark = ⟨n.mark.optional, p⟩ := by
  cases n <;> rfl

theorem present_place (n : Node) (p : Position) : (n.place p).present = n.present.place p := by
  cases n <;> rfl

theorem isAlternate_place (n : Node) (p : Position) : (n.place p).isAlternate = n.isAlternate := by
  cases n <;> rfl

theorem isPlainSequence_place (n : Node) (p : Position) : (n.place p).isPlainSequence = n.isPlainSequence := by
  cases n <;> rfl

theorem heads_place (n : Node) (p : Position) : (n.place p).heads = n.heads := by
  rw [heads, derivations_place, heads]

theorem length_children_place (n : Node) (p : Position) : (n.place p).children.length = n.children.length := by
  cases n with
  | leaf | charClass | verbatim => rfl
  | sequence m children => exact length_placeItems children true
  | alternate m children => exact length_placeEach _ children

theorem map_branches_place {β : Type} {f : Node → β} (hf : ∀ n p, f (place p n) = f n) (n : Node) (p : Position) :
    (n.place p).branches.map f = n.branches.map f := by
  cases n with
  | leaf | charClass | verbatim | sequence => rfl
  | alternate m children => exact map_placeEach hf children _

/-- The form of a node does not depend on its place. -/
theorem Canonical.place {n : Node} (h : n.Canonical) (p : Position) : (n.place p).Canonical where
  single := by
    cases n with
    | leaf | charClass | verbatim | sequence | alternate => exact h.single
  many htip := by
    rw [length_children_place]
    refine h.many ?_
    cases n with
    | leaf | charClass | verbatim | sequence | alternate => exact htip
  flat := by
    cases n with
    | leaf | charClass | verbatim | alternate => trivial
    | sequence m children =>
      have hflat : ∀ b ∈ children.map isPlainSequence, b = false := List.forall_mem_map.2 h.flat
      rw [← map_placeItems isPlainSequence_place children true] at hflat
      exact List.forall_mem_map.1 hflat
  direct := by
    have hdirect : ∀ b ∈ n.branches.map isAlternate, b = false := List.forall_mem_map.2 h.direct
    rw [← map_branches_place isAlternate_place n p] at hdirect
    exact List.forall_mem_map.1 hdirect
  apart := by
    have hapart : (n.branches.map heads).Pairwise List.Disjoint := List.pairwise_map.2 h.apart
    rw [← map_branches_place heads_place n p] at hapart
    exact List.pairwise_map.1 hapart
  nonempty := by
    have hnonempty : ∀ ds ∈ n.branches.map derivations, ¬ [] ∈ ds := List.forall_mem_map.2 h.nonempty
    rw [← map_branches_place derivations_place n p] at hnonempty
    intro b hb
    exact hnonempty _ (List.mem_map_of_mem hb)
  optional hoptional := by
    rw [mark_place] at hoptional
    rw [present_place, derivations_place]
    exact h.optional hoptional
  productive := by
    rw [present_place, derivations_place]
    exact h.productive

end Places

/-- The tree of words in order, none of them empty, has the canonical form if symbols can be told apart. -/
theorem canonicalRoot_tree {settings : Settings} {table : SymbolTable} {words : List Text}
    (hcase : settings.ignoreCase = false)
    (hmeaning : ∀ c d v, table.meaning c = some v → table.meaning d = some v → c = d) (h : Listed words) :
    (table.tree settings words).CanonicalRoot := by
  have hplain : (ofWords table.meaning false words).flatten.mark = .plain := by
    rw [mark_flatten, mark_ofWords h]
  have hflat : (ofWords table.meaning false words).flatten.Everywhere Canonical :=
    everywhere_ofWords (Letter.injective_ofChar hmeaning) h
  rw [SymbolTable.tree, hcase]
  change (build table.meaning false words).CanonicalRoot
  rw [build]
  constructor
  · rw [mark_place, hplain]
    rfl
  · refine everywhereEach_children_place (fun n p hp _ => ?_) hflat _
    rw [mark_place]
    exact hp
  · exact everywhere_iff.2 ⟨(everywhere_iff.1 hflat).1.place _,
      everywhereEach_children_place (fun n p _ hn => hn.place p) hflat _⟩

/-- Of `do` and `double` between the boundaries of words, `v` and `w` being the placeholders. -/
theorem canonicalRoot_tree_do_double : ∃ settings table, Settings.ofOptions { bound := .word .both } = .ok settings ∧
    SymbolTable.ofWords settings ["do".toList, "double".toList] = .ok table ∧
      (table.tree settings ["vdoublew".toList, "vdow".toList]).CanonicalRoot := by
  have hroot : ∀ settings table, Settings.ofOptions { bound := .word .both } = .ok settings →
      SymbolTable.ofWords settings ["do".toList, "double".toList] = .ok table →
      (table.tree settings ["vdoublew".toList, "vdow".toList]).CanonicalRoot := by
    rintro settings table ⟨⟩ ht
    exact canonicalRoot_tree rfl ((SymbolTable.holds_of_ofWords ht).eq_of_meaning .nil)
      ⟨by decide, by decide, by decide⟩
  exact ⟨_, _, rfl, rfl, hroot _ _ rfl rfl⟩

end WordPattern.Node
