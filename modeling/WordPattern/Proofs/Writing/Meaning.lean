import WordPattern.Node.NextChars
import WordPattern.Proofs.Folding
import WordPattern.Proofs.Reading.Classes
import WordPattern.Proofs.Reading.Items

/-! What the nodes of a tree match, and what they can begin with.

Boundaries assert something, and what a special matches is given from outside. Where characters match up to folding,
different characters of a tree may match the same character of a text; the tree has to be spelled in characters for
which this is not so. -/

namespace WordPattern

open Regex

def Regex.Reach.optionalIf (yes : Bool) (f : Reach) : Reach := if yes then f.optional else f

theorem Regex.Reach.mem_optionalIf {yes : Bool} {f : Reach} {p r : Cursor} :
    r ∈ f.optionalIf yes p ↔ r ∈ f p ∨ (yes = true ∧ r = p) := by
  cases yes <;> simp [Reach.optionalIf, Reach.optional]

/-- What the parts of a tree stand for. -/
structure Sense where
  /-- Characters match up to folding. -/
  folded : Bool
  /-- What a boundary asserts holds at a place. -/
  holds : Verbatim → Cursor → Bool
  /-- What a special matches, optional or not. -/
  special : Bool → Verbatim → Reach

namespace Sense

variable (σ : Sense)

def same (c d : Char) : Prop := sameChar σ.folded c d = true

def char (c : Char) : Reach := fun p => p.past .ahead (sameChar σ.folded c)

def text : Text → Reach
  | [] => fun p => [p]
  | c :: rest => (σ.char c).andThen (text rest)

/-- A class of one character is written as that character. -/
def classTest (cls : CharClass) (d : Char) : Bool :=
  match cls.members with
  | [c] => sameChar σ.folded c d
  | _ => CharSet.contains ⟨classItems cls, false, σ.folded⟩ d

def charClass (cls : CharClass) : Reach := fun p => p.past .ahead (σ.classTest cls)

def assertion (v : Verbatim) : Reach := fun p => if σ.holds v p then [p] else []

def verbatim (yes : Bool) (v : Verbatim) : Reach :=
  if v.role = .pattern then σ.special yes v else (σ.assertion v).optionalIf yes

mutual

/-- Where a match of a node can end, in order of preference. -/
def reach : Node → Reach
  | .leaf m t => (σ.text t).optionalIf m.optional
  | .charClass m cls => (σ.charClass cls).optionalIf m.optional
  | .verbatim m v => σ.verbatim m.optional v
  | .sequence m children => (items children).optionalIf m.optional
  | .alternate m children => (branches children).optionalIf m.optional

def items : List Node → Reach
  | [] => fun p => [p]
  | n :: rest => (reach n).andThen (items rest)

def branches : List Node → Reach
  | [] => fun _ => []
  | n :: rest => (reach n).orElse (branches rest)

end

theorem items_append (ns ms : List Node) : σ.items (ns ++ ms) = (σ.items ns).andThen (σ.items ms) := by
  induction ns with
  | nil => exact (Reach.nil_andThen _).symm
  | cons n ns ih => rw [List.cons_append, items, ih, items, Reach.andThen_assoc]

theorem items_singleton (n : Node) : σ.items [n] = σ.reach n := Reach.andThen_nil _

theorem items_leaves (t : Text) : σ.items (t.map fun c => .ofText [c]) = σ.text t := by
  induction t with
  | nil => rfl
  | cons c t ih =>
    rw [List.map_cons, items, ih, text]
    congr 1
    exact Reach.andThen_nil _

/-! ### The next character -/

def Meets (next : NextChars) (p : Cursor) : Prop :=
  match next with
  | .any => True
  | .chars cs => ∃ c ∈ cs, ∃ d q, p.step? .ahead = some (d, q) ∧ σ.same c d

variable {σ}

theorem meets_union {F G : NextChars} {p : Cursor} : σ.Meets (F.union G) p ↔ σ.Meets F p ∨ σ.Meets G p := by
  cases F <;> cases G <;> simp [NextChars.union, Meets, or_and_right, exists_or]

theorem not_meets_none {p : Cursor} : ¬ σ.Meets .none p := by simp [NextChars.none, Meets]

theorem mem_char {c : Char} {p r : Cursor} : r ∈ σ.char c p ↔ ∃ d, p.step? .ahead = some (d, r) ∧ σ.same c d :=
  Cursor.mem_past

theorem meets_of_mem_char {c : Char} {p r : Cursor} (h : r ∈ σ.char c p) : σ.Meets (.chars [c]) p := by
  obtain ⟨d, hd, hsame⟩ := mem_char.1 h
  exact ⟨c, List.mem_cons_self, d, r, hd, hsame⟩

theorem meets_of_mem_text {t : Text} {p r : Cursor} (h : r ∈ σ.text t p) :
    σ.Meets (.chars (t.take 1)) p ∨ (t.isEmpty = true ∧ r = p) := by
  cases t with
  | nil => exact .inr ⟨rfl, List.mem_singleton.1 h⟩
  | cons c t =>
    obtain ⟨q, hq, -⟩ := List.mem_flatMap.1 h
    exact .inl (meets_of_mem_char hq)

theorem exists_same_of_classTest {cls : CharClass} {d : Char} (h : σ.classTest cls d = true) :
    ∃ c ∈ cls.members, σ.same c d := by
  unfold classTest at h
  split at h
  · rename_i c hc
    exact ⟨c, by rw [hc]; exact List.mem_cons_self, h⟩
  · obtain ⟨c, hc, hsame⟩ := contains_classItems.1 h
    refine ⟨c, hc, ?_⟩
    unfold same sameChar
    split_ifs at hsame ⊢
    · exact decide_eq_true (fold_eq_of_mem_foldClass hsame)
    · exact decide_eq_true hsame

theorem meets_of_mem_charClass {cls : CharClass} {p r : Cursor} (h : r ∈ σ.charClass cls p) :
    σ.Meets (.chars cls.members) p := by
  obtain ⟨d, hd, htest⟩ := Cursor.mem_past.1 h
  obtain ⟨c, hc, hsame⟩ := exists_same_of_classTest htest
  exact ⟨c, hc, d, r, hd, hsame⟩

theorem mem_assertion {v : Verbatim} {p r : Cursor} : r ∈ σ.assertion v p ↔ σ.holds v p = true ∧ r = p := by
  unfold assertion
  split_ifs with h <;> simp [h]

theorem mem_verbatim {yes : Bool} {v : Verbatim} {p r : Cursor} (hv : v.role ≠ .pattern)
    (h : r ∈ σ.verbatim yes v p) : r = p := by
  rw [verbatim, if_neg hv, Reach.mem_optionalIf, mem_assertion] at h
  rcases h with ⟨-, h⟩ | ⟨-, h⟩ <;> exact h

mutual

/-- A match begins with one of the first characters or takes nothing. -/
theorem meets_of_mem_reach : (n : Node) → ∀ {p r : Cursor}, r ∈ σ.reach n p →
    σ.Meets n.first p ∨ (n.nullable = true ∧ r = p)
  | .leaf m t, p, r, h => by
    rw [reach, Reach.mem_optionalIf] at h
    rw [Node.first, Node.nullable, Bool.or_eq_true]
    rcases h with h | ⟨hm, rfl⟩
    · exact (meets_of_mem_text h).imp_right fun ⟨ht, hr⟩ => ⟨.inr ht, hr⟩
    · exact .inr ⟨.inl hm, rfl⟩
  | .charClass m cls, p, r, h => by
    rw [reach, Reach.mem_optionalIf] at h
    rw [Node.first, Node.nullable]
    exact h.imp_left meets_of_mem_charClass
  | .verbatim m v, p, r, h => by
    rw [reach] at h
    rw [Node.first, Node.nullable]
    cases hs : v.isSilent with
    | false => exact .inl trivial
    | true =>
      refine .inr ⟨by simp, mem_verbatim ?_ h⟩
      intro hp
      simp [Verbatim.isSilent, hp] at hs
  | .sequence m children, p, r, h => by
    rw [reach, Reach.mem_optionalIf] at h
    rw [Node.first, Node.nullable, Bool.or_eq_true]
    rcases h with h | ⟨hm, rfl⟩
    · exact (meets_of_mem_items children h).imp_right fun ⟨hn, hr⟩ => ⟨.inr hn, hr⟩
    · exact .inr ⟨.inl hm, rfl⟩
  | .alternate m children, p, r, h => by
    rw [reach, Reach.mem_optionalIf] at h
    rw [Node.first, Node.nullable, Bool.or_eq_true]
    rcases h with h | ⟨hm, rfl⟩
    · exact (meets_of_mem_branches children h).imp_right fun ⟨hn, hr⟩ => ⟨.inr hn, hr⟩
    · exact .inr ⟨.inl hm, rfl⟩

theorem meets_of_mem_items : (ns : List Node) → ∀ {p r : Cursor}, r ∈ σ.items ns p →
    σ.Meets (Node.follow ns .none) p ∨ (Node.allNullable ns = true ∧ r = p)
  | [], p, r, h => .inr ⟨rfl, List.mem_singleton.1 h⟩
  | n :: rest, p, r, h => by
    rw [items] at h
    obtain ⟨q, hq, hr⟩ := List.mem_flatMap.1 h
    rw [Node.follow, Node.allNullable, Bool.and_eq_true]
    rcases meets_of_mem_reach n hq with hm | ⟨hn, rfl⟩
    · left
      split_ifs
      · exact meets_union.2 (.inl hm)
      · exact hm
    · rw [if_pos hn, meets_union]
      exact (meets_of_mem_items rest hr).imp .inr fun ⟨hall, h⟩ => ⟨⟨hn, hall⟩, h⟩

theorem meets_of_mem_branches : (ns : List Node) → ∀ {p r : Cursor}, r ∈ σ.branches ns p →
    σ.Meets (Node.firstOfAny ns) p ∨ (Node.anyNullable ns = true ∧ r = p)
  | [], p, r, h => by simp [branches] at h
  | n :: rest, p, r, h => by
    rw [branches, Reach.orElse, List.mem_append] at h
    rw [Node.firstOfAny, Node.anyNullable, Bool.or_eq_true, meets_union]
    rcases h with h | h
    · exact (meets_of_mem_reach n h).imp .inl fun ⟨hn, hr⟩ => ⟨.inl hn, hr⟩
    · exact (meets_of_mem_branches rest h).imp .inr fun ⟨hn, hr⟩ => ⟨.inr hn, hr⟩

end

/-! ### Spelling -/

variable (σ)

/-- Every one of the characters matches no more than one that is used for spelling. -/
def Spelled (A : Char → Prop) (next : NextChars) : Prop :=
  match next with
  | .any => True
  | .chars cs => ∀ c ∈ cs, ∃ c' ∈ cs, A c' ∧ ∀ d, σ.same c d → σ.same c' d

/-- Different characters that are used for spelling match different characters of a text, and the assertion of the end
of the text is one. -/
structure Lawful (A : Char → Prop) : Prop where
  apart : ∀ {c c' d : Char}, A c → A c' → σ.same c d → σ.same c' d → c = c'
  finish : ∀ {v : Verbatim} {p : Cursor}, v.role = .finish → 0 < p.room .ahead → σ.holds v p = false

variable {σ} {A : Char → Prop}

theorem spelled_union {F G : NextChars} (hF : σ.Spelled A F) (hG : σ.Spelled A G) : σ.Spelled A (F.union G) := by
  cases F with
  | any => trivial
  | chars cs =>
    cases G with
    | any => trivial
    | chars ds =>
      intro c hc
      rcases List.mem_append.1 hc with hc | hc
      · obtain ⟨c', hc', h⟩ := hF c hc
        exact ⟨c', List.mem_append_left _ hc', h⟩
      · obtain ⟨c', hc', h⟩ := hG c hc
        exact ⟨c', List.mem_append_right _ hc', h⟩

theorem spelled_none : σ.Spelled A .none := fun c hc => by simp at hc

/-- Sets that have no character in common are not met at one place. -/
theorem not_meets_of_isDisjoint (hσ : σ.Lawful A) {F G : NextChars} (hF : σ.Spelled A F) (hG : σ.Spelled A G)
    (h : F.isDisjoint G = true) {p : Cursor} (hp : σ.Meets F p) : ¬ σ.Meets G p := by
  cases F with
  | any => contradiction
  | chars cs =>
    cases G with
    | any => contradiction
    | chars ds =>
      rintro ⟨c₂, hc₂, d₂, q₂, hstep₂, hsame₂⟩
      obtain ⟨c₁, hc₁, d₁, q₁, hstep₁, hsame₁⟩ := hp
      obtain ⟨rfl, -⟩ := Prod.mk.inj (Option.some.inj (hstep₁.symm.trans hstep₂))
      obtain ⟨c₁', hc₁', hA₁, himp₁⟩ := hF c₁ hc₁
      obtain ⟨c₂', hc₂', hA₂, himp₂⟩ := hG c₂ hc₂
      obtain rfl := hσ.apart hA₁ hA₂ (himp₁ d₁ hsame₁) (himp₂ d₁ hsame₂)
      have := List.all_eq_true.1 h c₁' hc₁'
      simp [hc₂'] at this

mutual

/-- The tree is spelled in the given characters, and a left boundary stands only at the start of the pattern. -/
def Proper (σ : Sense) (A : Char → Prop) (start : Bool) : Node → Prop
  | .leaf _ t => ∀ c ∈ t, A c
  | .charClass _ cls => σ.Spelled A (.chars cls.members)
  | .verbatim _ v => v.role = .leftBoundary → start = true
  | .sequence _ children => ProperItems σ A start children
  | .alternate _ children => ProperBranches σ A start children

def ProperItems (σ : Sense) (A : Char → Prop) (start : Bool) : List Node → Prop
  | [] => True
  | n :: rest => Proper σ A start n ∧ ProperItems σ A false rest

def ProperBranches (σ : Sense) (A : Char → Prop) (start : Bool) : List Node → Prop
  | [] => True
  | n :: rest => Proper σ A start n ∧ ProperBranches σ A start rest

end

mutual

theorem spelled_first : (n : Node) → ∀ {start : Bool}, Proper σ A start n → σ.Spelled A n.first
  | .leaf _ t, _, h => fun c hc => ⟨c, hc, h c (List.mem_of_mem_take hc), fun _ hs => hs⟩
  | .charClass _ _, _, h => h
  | .verbatim _ v, _, _ => by
    rw [Node.first]
    split_ifs
    · exact spelled_none
    · trivial
  | .sequence _ children, _, h => spelled_follow children h spelled_none
  | .alternate _ children, _, h => spelled_firstOfAny children h

theorem spelled_follow : (ns : List Node) → ∀ {start : Bool}, ProperItems σ A start ns → ∀ {F : NextChars},
    σ.Spelled A F → σ.Spelled A (Node.follow ns F)
  | [], _, _, _, hF => hF
  | n :: rest, _, h, _, hF => by
    rw [Node.follow]
    split_ifs
    · exact spelled_union (spelled_first n h.1) (spelled_follow rest h.2 hF)
    · exact spelled_first n h.1

theorem spelled_firstOfAny : (ns : List Node) → ∀ {start : Bool}, ProperBranches σ A start ns →
    σ.Spelled A (Node.firstOfAny ns)
  | [], _, _ => spelled_none
  | n :: rest, _, h => spelled_union (spelled_first n h.1) (spelled_firstOfAny rest h.2)

end

end Sense

end WordPattern
