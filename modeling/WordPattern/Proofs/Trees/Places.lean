import WordPattern.Proofs.Writing.Nodes

/-! Flattening a tree and recording places changes nothing that the tree matches. -/

namespace WordPattern

open Regex

namespace Sense

variable {σ : Sense} {A : Char → Prop} {start : Bool} {known : Verbatim → Prop}

variable (σ) in
/-- An optional special is one that may also be left out. -/
def Uniform : Prop := ∀ yes v, σ.special yes v = (σ.special false v).optionalIf yes

theorem reach_optionalIf (hσ : σ.Uniform) {n : Node} (h : n.mark.optional = false) (yes : Bool) :
    σ.reach (n.optionalIf yes) = (σ.reach n).optionalIf yes := by
  cases yes with
  | false => rfl
  | true =>
    cases n with
    | verbatim m v =>
      have hm : m.optional = false := h
      simp only [Node.optionalIf, if_true, Node.withMark, reach, verbatim, Node.mark, hm]
      split_ifs
      · exact hσ true v
      · rfl
    | leaf m | charClass m | sequence m | alternate m =>
      have hm : m.optional = false := h
      simp only [Node.optionalIf, if_true, Node.withMark, reach, Node.mark, hm]
      rfl

theorem reach_ofSequence (ns : List Node) : σ.reach (.ofSequence ns) = σ.items ns := by
  unfold Node.ofSequence
  split
  · exact (σ.items_singleton _).symm
  · rfl

theorem branches_singleton (n : Node) : σ.branches [n] = σ.reach n := by
  funext p
  exact List.append_nil _

theorem reach_ofBranches (ns : List Node) : σ.reach (.ofBranches ns) = σ.branches ns := by
  unfold Node.ofBranches
  split
  · exact (branches_singleton _).symm
  · rfl

/-! ### Flattening -/

theorem items_inlined (n : Node) : σ.items n.inlined = σ.reach n := by
  unfold Node.inlined
  split
  · rfl
  · exact σ.items_singleton _

mutual

theorem reach_flatten : (n : Node) → σ.reach n.flatten = σ.reach n
  | .leaf _ _ | .charClass _ _ | .verbatim _ _ => rfl
  | .sequence m children => by rw [Node.flatten, reach, reach, items_flattenInto children]
  | .alternate m children => by rw [Node.flatten, reach, reach, branches_flattenEach children]

theorem items_flattenInto : (ns : List Node) → σ.items (Node.flattenInto ns) = σ.items ns
  | [] => rfl
  | n :: rest => by
    rw [Node.flattenInto, items_append, items_inlined, reach_flatten n, items_flattenInto rest, items]

theorem branches_flattenEach : (ns : List Node) → σ.branches (Node.flattenEach ns) = σ.branches ns
  | [] => rfl
  | n :: rest => by rw [Node.flattenEach, branches, reach_flatten n, branches_flattenEach rest, branches]

end

mutual

/-- Where a left boundary may stand at the start, it may as well not. -/
theorem Proper.weaken : {n : Node} → σ.Proper A false n → σ.Proper A start n
  | .leaf _ _, h => h
  | .charClass _ _, h => h
  | .verbatim _ _, h => fun hv => absurd (h hv) Bool.false_ne_true
  | .sequence _ _, h => ProperItems.weaken h
  | .alternate _ _, h => ProperBranches.weaken h

theorem ProperItems.weaken : {ns : List Node} → σ.ProperItems A false ns → σ.ProperItems A start ns
  | [], _ => trivial
  | _ :: _, h => ⟨Proper.weaken h.1, h.2⟩

theorem ProperBranches.weaken : {ns : List Node} → σ.ProperBranches A false ns → σ.ProperBranches A start ns
  | [], _ => trivial
  | _ :: _, h => ⟨Proper.weaken h.1, ProperBranches.weaken h.2⟩

end

theorem ProperItems.append {ns ms : List Node} (h : σ.ProperItems A start ns) (h' : σ.ProperItems A false ms) :
    σ.ProperItems A start (ns ++ ms) := by
  by_cases hne : ns = []
  · rw [hne]
    exact h'.weaken
  · exact (properItems_append hne).2 ⟨h, h'⟩

theorem properItems_inlined {n : Node} (h : σ.Proper A start n) : σ.ProperItems A start n.inlined := by
  unfold Node.inlined
  split
  · exact h
  · exact ⟨h, trivial⟩

mutual

theorem Proper.flatten : {n : Node} → {start : Bool} → σ.Proper A start n → σ.Proper A start n.flatten
  | .leaf _ _, _, h => h
  | .charClass _ _, _, h => h
  | .verbatim _ _, _, h => h
  | .sequence _ children, start, h => @ProperItems.flatten children start h
  | .alternate _ children, start, h => @ProperBranches.flatten children start h

theorem ProperItems.flatten : {ns : List Node} → {start : Bool} → σ.ProperItems A start ns →
    σ.ProperItems A start (Node.flattenInto ns)
  | [], _, _ => trivial
  | _ :: _, _, h => (properItems_inlined (Proper.flatten h.1)).append (ProperItems.flatten h.2)

theorem ProperBranches.flatten : {ns : List Node} → {start : Bool} → σ.ProperBranches A start ns →
    σ.ProperBranches A start (Node.flattenEach ns)
  | [], _, _ => trivial
  | _ :: _, _, h => ⟨Proper.flatten h.1, ProperBranches.flatten h.2⟩

end

/-! ### Places -/

mutual

theorem reach_place : (n : Node) → ∀ p : Position, σ.reach (n.place p) = σ.reach n
  | .leaf _ _, _ | .charClass _ _, _ | .verbatim _ _, _ => rfl
  | .sequence m children, p => by rw [Node.place, reach, reach, items_placeItems children]
  | .alternate m children, p => by rw [Node.place, reach, reach, branches_placeEach children]

theorem items_placeItems : (ns : List Node) → ∀ first : Bool, σ.items (Node.placeItems first ns) = σ.items ns
  | [], _ => rfl
  | [n], first => by rw [Node.placeItems, items_singleton, items_singleton, reach_place n]
  | n :: m :: rest, first => by
    have hplaced : Node.placeItems first (n :: m :: rest) =
        n.place (if first then .first else .middle) :: Node.placeItems false (m :: rest) := rfl
    rw [hplaced, items, reach_place n, items_placeItems (m :: rest) false]
    rfl

theorem branches_placeEach : (ns : List Node) → ∀ p : Position, σ.branches (Node.placeEach p ns) = σ.branches ns
  | [], _ => rfl
  | n :: rest, p => by rw [Node.placeEach, branches, reach_place n, branches_placeEach rest, branches]

end

mutual

theorem Proper.place : {n : Node} → {start : Bool} → σ.Proper A start n → (p : Position) → σ.Proper A start (n.place p)
  | .leaf _ _, _, h, _ => h
  | .charClass _ _, _, h, _ => h
  | .verbatim _ _, _, h, _ => h
  | .sequence _ children, start, h, _ => @ProperItems.place children start h true
  | .alternate _ children, start, h, p => @ProperBranches.place children start h (Node.branchPosition p)

theorem ProperItems.place : {ns : List Node} → {start : Bool} → σ.ProperItems A start ns → (first : Bool) →
    σ.ProperItems A start (Node.placeItems first ns)
  | [], _, _, _ => trivial
  | [_], _, h, _ => ⟨Proper.place h.1 _, trivial⟩
  | _ :: _ :: _, _, h, _ => ⟨Proper.place h.1 _, ProperItems.place h.2 false⟩

theorem ProperBranches.place : {ns : List Node} → {start : Bool} → σ.ProperBranches A start ns → (p : Position) →
    σ.ProperBranches A start (Node.placeEach p ns)
  | [], _, _, _ => trivial
  | _ :: _, _, h, p => ⟨Proper.place h.1 p, ProperBranches.place h.2 p⟩

end

end Sense

namespace Node

variable {known : Verbatim → Prop}

theorem branchPosition_ne_root (p : Position) : branchPosition p ≠ .root := by
  unfold branchPosition
  split_ifs with h
  · simp
  · exact h

theorem length_placeItems : (ns : List Node) → (first : Bool) → (placeItems first ns).length = ns.length
  | [], _ => rfl
  | [_], _ => rfl
  | _ :: m :: rest, _ => congrArg Nat.succ (length_placeItems (m :: rest) false)

theorem length_placeEach (p : Position) (ns : List Node) : (placeEach p ns).length = ns.length := by
  induction ns with
  | nil => rfl
  | cons n rest ih => rw [placeEach, List.length_cons, List.length_cons, ih]

section Map

variable {β : Type} {f : Node → β}

/-- What does not depend on the place of a node. -/
theorem map_placeItems (hf : ∀ n p, f (place p n) = f n) (ns : List Node) (first : Bool) :
    (placeItems first ns).map f = ns.map f := by
  induction ns generalizing first with
  | nil => rfl
  | cons n rest ih =>
    cases rest with
    | nil => exact congrArg (· :: []) (hf n _)
    | cons m rest => exact congrArg₂ List.cons (hf n _) (ih false)

theorem map_placeEach (hf : ∀ n p, f (place p n) = f n) (ns : List Node) (p : Position) :
    (placeEach p ns).map f = ns.map f := by
  induction ns with
  | nil => rfl
  | cons n rest ih => exact congrArg₂ List.cons (hf n p) ih

end Map

theorem ne_nil_of_length_eq {α : Type} {xs ys : List α} (h : xs.length = ys.length) (hys : ys ≠ []) : xs ≠ [] := by
  rw [← List.length_pos_iff] at hys ⊢
  omega

mutual

theorem Shaped.place : {n : Node} → n.Shaped known → {p : Position} → p ≠ .root → (n.place p).Shaped known
  | .leaf _ _, h, _, _ => h
  | .charClass _ _, h, _, _ => h
  | .verbatim _ _, h, _, _ => h
  | .sequence _ children, h, _, _ =>
    have hlength := length_placeItems children true
    ⟨ne_nil_of_length_eq hlength h.1, hlength ▸ h.2.1, ShapedEach.placeItems h.2.2 true⟩
  | .alternate _ children, h, _, hp =>
    ⟨hp, ne_nil_of_length_eq (length_placeEach _ children) h.2.1, ShapedEach.placeEach h.2.2 (branchPosition_ne_root _)⟩

theorem ShapedEach.placeItems : {ns : List Node} → ShapedEach known ns → (first : Bool) →
    ShapedEach known (placeItems first ns)
  | [], _, _ => trivial
  | [_], h, first => ⟨Shaped.place h.1 (by cases first <;> simp), trivial⟩
  | _ :: _ :: _, h, first => ⟨Shaped.place h.1 (by cases first <;> simp), ShapedEach.placeItems h.2 false⟩

theorem ShapedEach.placeEach : {ns : List Node} → ShapedEach known ns → {p : Position} → p ≠ .root →
    ShapedEach known (placeEach p ns)
  | [], _, _, _ => trivial
  | _ :: _, h, _, hp => ⟨Shaped.place h.1 hp, ShapedEach.placeEach h.2 hp⟩

end

/-- The tree of a pattern, in place. -/
theorem shapedRoot_place {n : Node} (h : n.Shaped known) : (n.place .root).ShapedRoot known := by
  cases n with
  | alternate m children =>
    exact ⟨rfl, ne_nil_of_length_eq (length_placeEach _ children) h.2.1,
      ShapedEach.placeEach h.2.2 (branchPosition_ne_root _)⟩
  | leaf | charClass | verbatim => exact h
  | sequence m children =>
    have hlength := length_placeItems children true
    exact ⟨ne_nil_of_length_eq hlength h.1, hlength ▸ h.2.1, ShapedEach.placeItems h.2.2 true⟩

end Node

end WordPattern
