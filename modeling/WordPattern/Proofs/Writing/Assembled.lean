import WordPattern.Node.Pattern
import WordPattern.Proofs.Trees.Induction
import WordPattern.Proofs.Writing.Abbreviation

/-! What the text of a tree is put together from: quoted characters, classes, and texts that are taken as they are, with
groups, bars, marks and counts. -/

namespace WordPattern

open Regex

/-- A text that is put together from small ones; those that are taken as they are satisfy `known`. -/
inductive Assembled (mode : Mode) (known : Text → Prop) : Text → Prop
  | empty : Assembled mode known []
  | char (c : Char) : Assembled mode known (quoteChar c)
  | set (cls : CharClass) : Assembled mode known cls.pattern
  | verbatim {t : Text} (h : known t) : Assembled mode known t
  | append {s t : Text} (hs : Assembled mode known s) (ht : Assembled mode known t) : Assembled mode known (s ++ t)
  | group (closed : Bool) {t : Text} (h : Assembled mode known t) : Assembled mode known (mode.group closed t)
  | bar : Assembled mode known ['|']
  | nothing : Assembled mode known nothingText
  | mark (closed : Bool) : Assembled mode known (mode.optionalMark closed)
  | count (n : Nat) : Assembled mode known (countText n)

section Fragments

variable {mode : Mode} {known : Text → Prop}

theorem assembled_flatten {ts : List Text} (h : ∀ t ∈ ts, Assembled mode known t) : Assembled mode known ts.flatten := by
  induction ts with
  | nil => exact .empty
  | cons t ts ih =>
    rw [List.flatten_cons]
    apply Assembled.append
    · exact h t List.mem_cons_self
    · exact ih fun s hs => h s (List.mem_cons_of_mem _ hs)

theorem assembled_quantified {block : List Text} (h : ∀ t ∈ block, Assembled mode known t) (closed : Bool) (n : Nat) :
    Assembled mode known (quantified mode closed block n) := by
  have hblock := assembled_flatten h
  rw [quantified_eq]
  split_ifs
  · exact hblock.append (.count n)
  · exact (hblock.group closed).append (.count n)

/-- Abbreviation takes fragments and blocks of fragments as they are. -/
theorem assembled_abbreviate {fragments : List Text} (h : ∀ t ∈ fragments, Assembled mode known t) (closed : Bool) :
    Assembled mode known (abbreviate mode closed fragments) := by
  apply assembled_flatten
  refine abbreviated_induction (P := fun ts => ∀ t ∈ ts, Assembled mode known t) h ?_
  intro before block n after _ hn _ hall
  have hblock : ∀ t ∈ block, Assembled mode known t := by
    intro t ht
    apply hall
    have hrun : t ∈ (List.replicate n block).flatten :=
      List.mem_flatten.2 ⟨block, List.mem_replicate.2 ⟨by omega, rfl⟩, ht⟩
    exact List.mem_append_right _ (List.mem_append_left _ hrun)
  intro t ht
  rcases List.mem_append.1 ht with ht | ht
  · exact hall t (List.mem_append_left _ ht)
  · rcases List.mem_cons.1 ht with rfl | ht
    · exact assembled_quantified hblock closed n
    · exact hall t (List.mem_append_right _ (List.mem_append_right _ ht))

theorem assembled_join {ts : List Text} (h : ∀ t ∈ ts, Assembled mode known t) :
    Assembled mode known (Text.join ['|'] ts) := by
  induction ts with
  | nil => exact .empty
  | cons t ts ih =>
    cases ts with
    | nil => exact h t List.mem_cons_self
    | cons s ts =>
      have hrest := ih fun u hu => h u (List.mem_cons_of_mem _ hu)
      change Assembled mode known (t ++ ['|'] ++ Text.join ['|'] (s :: ts))
      exact ((h t List.mem_cons_self).append .bar).append hrest

theorem assembled_finish {t : Text} (h : Assembled mode known t) (n : Node) (closed : Bool) :
    Assembled mode known (n.finish mode closed t) := by
  unfold Node.finish
  split_ifs
  · exact h.append (.mark closed)
  · exact (h.group closed).append (.mark closed)
  · exact h

end Fragments

namespace Node

/-! ### What a tree takes as it is -/

mutual

def verbatims : Node → List Verbatim
  | leaf _ _ | charClass _ _ => []
  | verbatim _ v => [v]
  | sequence _ children | alternate _ children => verbatimsEach children

def verbatimsEach : List Node → List Verbatim
  | [] => []
  | n :: rest => n.verbatims ++ verbatimsEach rest

end

theorem verbatimsEach_eq (ns : List Node) : verbatimsEach ns = ns.flatMap verbatims := by
  induction ns with
  | nil => rfl
  | cons n rest ih => rw [verbatimsEach, ih, List.flatMap_cons]

theorem verbatims_inlined (n : Node) : n.inlined.flatMap verbatims = n.verbatims := by
  unfold inlined
  split
  · exact (verbatimsEach_eq _).symm
  · exact List.append_nil _

mutual

theorem verbatims_flatten : (n : Node) → n.flatten.verbatims = n.verbatims
  | leaf _ _ | charClass _ _ | verbatim _ _ => rfl
  | sequence _ children => by
    rw [flatten, verbatims, verbatims, verbatims_flattenInto children]
  | alternate _ children => by
    rw [flatten, verbatims, verbatims, verbatims_flattenEach children]

theorem verbatims_flattenInto : (ns : List Node) → verbatimsEach (flattenInto ns) = verbatimsEach ns
  | [] => rfl
  | n :: rest => by
    rw [flattenInto, verbatimsEach_eq, List.flatMap_append, verbatims_inlined, verbatims_flatten n, ← verbatimsEach_eq,
      verbatims_flattenInto rest, verbatimsEach]

theorem verbatims_flattenEach : (ns : List Node) → verbatimsEach (flattenEach ns) = verbatimsEach ns
  | [] => rfl
  | n :: rest => by
    rw [flattenEach, verbatimsEach, verbatims_flatten n, verbatims_flattenEach rest, verbatimsEach]

end

mutual

theorem verbatims_place : (n : Node) → (p : Position) → (n.place p).verbatims = n.verbatims
  | leaf _ _, _ | charClass _ _, _ | verbatim _ _, _ => rfl
  | sequence _ children, _ => by
    rw [place, verbatims, verbatims, verbatims_placeItems children]
  | alternate _ children, _ => by
    rw [place, verbatims, verbatims, verbatims_placeEach children]

theorem verbatims_placeItems : (ns : List Node) → (first : Bool) → verbatimsEach (placeItems first ns) = verbatimsEach ns
  | [], _ => rfl
  | [n], _ => by
    change (n.place _).verbatims ++ [] = n.verbatims ++ []
    rw [verbatims_place n]
  | n :: m :: rest, first => by
    change verbatimsEach (n.place (if first then .first else .middle) :: placeItems false (m :: rest)) = _
    rw [verbatimsEach, verbatims_place n, verbatims_placeItems (m :: rest) false]
    rfl

theorem verbatims_placeEach : (ns : List Node) → (p : Position) → verbatimsEach (placeEach p ns) = verbatimsEach ns
  | [], _ => rfl
  | n :: rest, p => by
    rw [placeEach, verbatimsEach, verbatims_place n, verbatims_placeEach rest, verbatimsEach]

end

theorem verbatims_optionalIf (n : Node) (yes : Bool) : (n.optionalIf yes).verbatims = n.verbatims := by
  unfold optionalIf
  split_ifs
  · cases n <;> rfl
  · rfl

theorem verbatims_ofSequence (ns : List Node) : (ofSequence ns).verbatims = ns.flatMap verbatims := by
  unfold ofSequence
  split
  · exact (List.append_nil _).symm
  · exact verbatimsEach_eq _

theorem verbatims_ofBranches (ns : List Node) : (ofBranches ns).verbatims = ns.flatMap verbatims := by
  unfold ofBranches
  split
  · exact (List.append_nil _).symm
  · exact verbatimsEach_eq _

section Words

variable {symbol : Char → Option Verbatim} {ignoreCase : Bool} {words : List Text} {v : Verbatim}

theorem symbol_of_mem_verbatims_ofChar {c : Char} (h : v ∈ (ofChar symbol c).verbatims) : symbol c = some v := by
  unfold ofChar at h
  split at h
  · rename_i v' hv
    rw [hv, List.mem_singleton.1 h]
  · exact absurd h List.not_mem_nil

/-- The tree of a list of words takes as they are what its characters stand for. -/
theorem exists_symbol_of_mem_ofWords (hwords : Listed words) (hv : v ∈ (ofWords symbol ignoreCase words).verbatims) :
    ∃ c, symbol c = some v := by
  refine ofWords_induction (P := fun _ n => ∀ v ∈ n.verbatims, ∃ c, symbol c = some v) ?_ ?_ ?_ ?_ words hwords v hv
  · intro w _ v hv
    rw [verbatims_ofSequence] at hv
    obtain ⟨n, hn, hv⟩ := List.mem_flatMap.1 hv
    obtain ⟨c, -, rfl⟩ := List.mem_map.1 hn
    exact ⟨c, symbol_of_mem_verbatims_ofChar hv⟩
  · intro _ parts rests _ _ _ _ _ _ _ hparts hrests v hv
    rw [verbatims_ofSequence, List.flatMap_cons, List.flatMap_cons, List.flatMap_nil, List.append_nil,
      verbatims_optionalIf] at hv
    exact (List.mem_append.1 hv).elim (hparts v) (hrests v)
  · intro _ rests parts _ _ _ _ _ _ _ hrests hparts v hv
    rw [verbatims_ofSequence, List.flatMap_cons, List.flatMap_cons, List.flatMap_nil, List.append_nil,
      verbatims_optionalIf] at hv
    exact (List.mem_append.1 hv).elim (hrests v) (hparts v)
  · intro _ lone others _ _ hothers v hv
    rw [verbatims_ofBranches] at hv
    obtain ⟨n, hn, hv⟩ := List.mem_flatMap.1 hv
    rcases mem_branches.1 hn with ⟨-, rfl⟩ | ⟨g, hg, rfl⟩
    · exact absurd hv List.not_mem_nil
    · exact (hothers g hg).2 v hv

theorem exists_symbol_of_mem_build (hwords : words ≠ [] → Listed words)
    (hv : v ∈ (build symbol ignoreCase words).verbatims) : ∃ c, symbol c = some v := by
  rw [build, verbatims_place, verbatims_flatten] at hv
  by_cases hne : words = []
  · rw [hne, ofWords] at hv
    exact absurd hv List.not_mem_nil
  · exact exists_symbol_of_mem_ofWords (hwords hne) hv

end Words

/-! ### The text of a tree -/

section Pattern

variable {mode : Mode} {known : Text → Prop}

mutual

theorem assembled_patternBefore (after : NextChars) : (n : Node) → (∀ v ∈ n.verbatims, known v.pattern) →
    Assembled mode known (n.patternBefore mode after)
  | leaf m t, _ => by
    rw [patternBefore]
    apply assembled_finish
    apply assembled_abbreviate
    intro s hs
    obtain ⟨c, -, rfl⟩ := List.mem_map.1 hs
    exact .char c
  | charClass m cls, _ => by
    rw [patternBefore]
    apply Assembled.append (.set cls)
    split_ifs
    · exact .mark _
    · exact .empty
  | verbatim m v, h => by
    rw [patternBefore]
    apply assembled_finish
    exact .verbatim (h v (List.mem_singleton_self v))
  | sequence m children, h => by
    rw [patternBefore]
    apply assembled_finish
    exact assembled_abbreviate (assembled_itemPatterns after children h) _
  | alternate m children, h => by
    have hbranches := assembled_join (assembled_branchPatterns after children h)
    rw [patternBefore]
    split_ifs
    · exact .nothing
    · exact assembled_finish hbranches _ _
    · exact assembled_finish (hbranches.group _) _ _

theorem assembled_itemPatterns (after : NextChars) : (ns : List Node) → (∀ v ∈ verbatimsEach ns, known v.pattern) →
    ∀ t ∈ itemPatterns mode after ns, Assembled mode known t
  | [], _, _, ht => absurd ht List.not_mem_nil
  | n :: rest, h, t, ht => by
    rw [itemPatterns] at ht
    rcases List.mem_cons.1 ht with rfl | ht
    · exact assembled_patternBefore _ n fun v hv => h v (List.mem_append_left _ hv)
    · exact assembled_itemPatterns after rest (fun v hv => h v (List.mem_append_right _ hv)) t ht

theorem assembled_branchPatterns (after : NextChars) : (ns : List Node) → (∀ v ∈ verbatimsEach ns, known v.pattern) →
    ∀ t ∈ branchPatterns mode after ns, Assembled mode known t
  | [], _, _, ht => absurd ht List.not_mem_nil
  | n :: rest, h, t, ht => by
    rw [branchPatterns] at ht
    rcases List.mem_cons.1 ht with rfl | ht
    · exact assembled_patternBefore after n fun v hv => h v (List.mem_append_left _ hv)
    · exact assembled_branchPatterns after rest (fun v hv => h v (List.mem_append_right _ hv)) t ht

end

/-- The text of a tree is put together from small texts. -/
theorem assembled_pattern {n : Node} (h : ∀ v ∈ n.verbatims, known v.pattern) : Assembled mode known (n.pattern mode) :=
  assembled_patternBefore .none n h

end Pattern

end Node

end WordPattern
