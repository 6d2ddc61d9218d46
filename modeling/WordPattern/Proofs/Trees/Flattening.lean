import WordPattern.Proofs.Languages.Derivations

/-! Flattening a tree.

Sequences that are not optional are taken up into the sequences around them. All other nodes stay, in the order in which
they were, and so does what the tree stands for. -/

namespace WordPattern.Node

mutual

/-- The nodes of a tree, each before those below it. -/
def nodes : Node → List Node
  | leaf m t => [leaf m t]
  | charClass m cls => [charClass m cls]
  | verbatim m v => [verbatim m v]
  | sequence m children => sequence m children :: nodesEach children
  | alternate m children => alternate m children :: nodesEach children

def nodesEach : List Node → List Node
  | [] => []
  | n :: rest => n.nodes ++ nodesEach rest

end

/-- A literal text, a class or a pattern taken as it is. -/
def isTip : Node → Bool
  | sequence _ _ | alternate _ _ => false
  | _ => true

/-- Alternatives, or what is optional. -/
def isChoice : Node → Bool
  | alternate _ _ => true
  | n => n.mark.optional

def isPlainSequence : Node → Bool
  | sequence m _ => !m.optional
  | _ => false

/-- What can be spliced into a sequence is not left in it. -/
def Flat : Node → Prop
  | sequence _ children => ∀ n ∈ children, n.isPlainSequence = false
  | _ => True

theorem everywhereEach_iff {P : Node → Prop} {ns : List Node} : EverywhereEach P ns ↔ ∀ n ∈ ns, n.Everywhere P := by
  induction ns with
  | nil => simp [EverywhereEach]
  | cons n rest ih => rw [EverywhereEach, ih, List.forall_mem_cons]

/-- A node is inlined as its children or as itself. -/
theorem inlined_cases (n : Node) : (∃ m children, n = sequence m children ∧ n.isPlainSequence = true ∧ n.inlined = children) ∨
    (n.isPlainSequence = false ∧ n.inlined = [n]) := by
  cases n with
  | sequence m children =>
    obtain ⟨optional, position⟩ := m
    cases optional with
    | false => exact .inl ⟨_, _, rfl, rfl, rfl⟩
    | true => exact .inr ⟨rfl, rfl⟩
  | leaf | charClass | verbatim | alternate => exact .inr ⟨rfl, rfl⟩

/-! ### Flat trees -/

theorem flat_inlined {n : Node} (h : n.Everywhere Flat) :
    ∀ c ∈ n.inlined, c.isPlainSequence = false ∧ c.Everywhere Flat := by
  rcases inlined_cases n with ⟨m, children, rfl, -, hinlined⟩ | ⟨hplain, hinlined⟩
  · rw [hinlined]
    exact fun c hc => ⟨h.1 c hc, everywhereEach_iff.1 h.2 c hc⟩
  · rw [hinlined]
    exact List.forall_mem_singleton.2 ⟨hplain, h⟩

mutual

theorem flat_flatten : (n : Node) → n.flatten.Everywhere Flat
  | leaf _ _ | charClass _ _ | verbatim _ _ => trivial
  | sequence _ children =>
    ⟨fun c hc => (flat_flattenInto children c hc).1,
      everywhereEach_iff.2 fun c hc => (flat_flattenInto children c hc).2⟩
  | alternate _ children => ⟨trivial, everywhereEach_iff.2 (flat_flattenEach children)⟩

theorem flat_flattenInto : (ns : List Node) → ∀ c ∈ flattenInto ns, c.isPlainSequence = false ∧ c.Everywhere Flat
  | [] => List.forall_mem_nil _
  | n :: rest => List.forall_mem_append.2 ⟨flat_inlined (flat_flatten n), flat_flattenInto rest⟩

theorem flat_flattenEach : (ns : List Node) → ∀ c ∈ flattenEach ns, c.Everywhere Flat
  | [] => List.forall_mem_nil _
  | n :: rest => List.forall_mem_cons.2 ⟨flat_flatten n, flat_flattenEach rest⟩

end

mutual

/-- A flat tree is flattened already. -/
theorem flatten_eq_self : {n : Node} → n.Everywhere Flat → n.flatten = n
  | leaf _ _, _ | charClass _ _, _ | verbatim _ _, _ => rfl
  | sequence m _, h => congrArg (sequence m) (flattenInto_eq_self h.1 h.2)
  | alternate m _, h => congrArg (alternate m) (flattenEach_eq_self h.2)

theorem flattenInto_eq_self : {ns : List Node} → (∀ c ∈ ns, c.isPlainSequence = false) → EverywhereEach Flat ns →
    flattenInto ns = ns
  | [], _, _ => rfl
  | n :: rest, hplain, hflat => by
    obtain ⟨hn, hrest⟩ := List.forall_mem_cons.1 hplain
    have hinlined : n.inlined = [n] := by
      rcases inlined_cases n with ⟨-, -, -, h, -⟩ | ⟨-, h⟩
      · rw [hn] at h
        contradiction
      · exact h
    rw [flattenInto, flatten_eq_self hflat.1, hinlined, flattenInto_eq_self hrest hflat.2, List.singleton_append]

theorem flattenEach_eq_self : {ns : List Node} → EverywhereEach Flat ns → flattenEach ns = ns
  | [], _ => rfl
  | _ :: _, h => by rw [flattenEach, flatten_eq_self h.1, flattenEach_eq_self h.2]

end

/-! ### What stays -/

theorem nodesEach_append (ns ms : List Node) : nodesEach (ns ++ ms) = nodesEach ns ++ nodesEach ms := by
  induction ns with
  | nil => rfl
  | cons n rest ih => rw [List.cons_append, nodesEach, ih, nodesEach, List.append_assoc]

/-- Flattening leaves the nodes that pass a test where they are: none is a plain sequence, and they still pass it. -/
structure Lasting (p : Node → Bool) : Prop where
  not_plain : ∀ s, s.isPlainSequence = true → p s = false
  flatten : ∀ s, p s.flatten = p s

section Stays

variable {p : Node → Bool}

/-- Inlining a node takes away a plain sequence at most. -/
theorem filter_nodes_inlined (h : Lasting p) (n : Node) : (nodesEach n.inlined).filter p = n.nodes.filter p := by
  rcases inlined_cases n with ⟨m, children, rfl, hplain, hinlined⟩ | ⟨-, hinlined⟩
  · rw [hinlined, nodes, List.filter_cons_of_neg (by simp [h.not_plain _ hplain])]
  · rw [hinlined, nodesEach, nodesEach, List.append_nil]

/-- One node and the nodes below it. -/
theorem filter_cons_flatten (h : Lasting p) (n : Node) {below below' : List Node}
    (hbelow : below'.filter p = (below.filter p).map flatten) :
    (n.flatten :: below').filter p = ((n :: below).filter p).map flatten := by
  rw [List.filter_cons, List.filter_cons, h.flatten, hbelow]
  split_ifs <;> rfl

mutual

/-- These nodes are still there after flattening, and in the same order. -/
theorem filter_nodes_flatten (h : Lasting p) : (n : Node) → n.flatten.nodes.filter p = (n.nodes.filter p).map flatten
  | leaf m t => filter_cons_flatten h (leaf m t) rfl
  | charClass m cls => filter_cons_flatten h (charClass m cls) rfl
  | verbatim m v => filter_cons_flatten h (verbatim m v) rfl
  | sequence m children => filter_cons_flatten h (sequence m children) (filter_nodesEach_flattenInto h children)
  | alternate m children => filter_cons_flatten h (alternate m children) (filter_nodesEach_flattenEach h children)

theorem filter_nodesEach_flattenInto (h : Lasting p) : (ns : List Node) →
    (nodesEach (flattenInto ns)).filter p = ((nodesEach ns).filter p).map flatten
  | [] => rfl
  | n :: rest => by
    rw [flattenInto, nodesEach_append, List.filter_append, filter_nodes_inlined h, filter_nodes_flatten h n,
      filter_nodesEach_flattenInto h rest, nodesEach, List.filter_append, List.map_append]

theorem filter_nodesEach_flattenEach (h : Lasting p) : (ns : List Node) →
    (nodesEach (flattenEach ns)).filter p = ((nodesEach ns).filter p).map flatten
  | [] => rfl
  | n :: rest => by
    rw [flattenEach, nodesEach, List.filter_append, filter_nodes_flatten h n, filter_nodesEach_flattenEach h rest,
      nodesEach, List.filter_append, List.map_append]

end

end Stays

def tips (n : Node) : List Node := n.nodes.filter (·.isTip)

theorem tips_flatten (n : Node) : n.flatten.tips = n.tips := by
  have hself : ∀ s ∈ n.tips, s.flatten = s := by
    intro s hs
    have htip : s.isTip = true := (List.mem_filter.1 hs).2
    cases s with
    | sequence | alternate => contradiction
    | leaf | charClass | verbatim => rfl
  have hlasting : Lasting isTip := by
    refine ⟨fun s hs => ?_, fun s => by cases s <;> rfl⟩
    cases s with
    | sequence | alternate => rfl
    | leaf | charClass | verbatim => contradiction
  have hmap : n.flatten.tips = n.tips.map flatten := filter_nodes_flatten hlasting n
  rw [hmap, List.map_congr_left hself, List.map_id']

def choices (n : Node) : List Node := n.nodes.filter (·.isChoice)

theorem choices_flatten (n : Node) : n.flatten.choices = n.choices.map flatten := by
  have hlasting : Lasting isChoice := by
    refine ⟨fun s hs => ?_, fun s => by cases s <;> rfl⟩
    cases s with
    | sequence m children =>
      have hm : m.optional = false := by simpa [isPlainSequence] using hs
      exact hm
    | leaf | charClass | verbatim | alternate => contradiction
  exact filter_nodes_flatten hlasting n

/-- One tree is another one flattened: it has no sequence to splice, is its own flattening, has all tips and choices in
their places, and stands for the same. -/
structure IsFlattening (n flat : Node) : Prop where
  everywhere : flat.Everywhere Flat
  again : flat.flatten = flat
  tips : flat.tips = n.tips
  choices : flat.choices = n.choices.map flatten
  derivations : flat.derivations = n.derivations
  language : flat.language = n.language

theorem isFlattening_flatten (n : Node) : n.IsFlattening n.flatten where
  everywhere := flat_flatten n
  again := flatten_eq_self (flat_flatten n)
  tips := tips_flatten n
  choices := choices_flatten n
  derivations := derivations_flatten n
  language := by rw [language_eq, language_eq, derivations_flatten]

end WordPattern.Node
