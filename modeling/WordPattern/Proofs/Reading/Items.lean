import WordPattern.Proofs.Matching.Plan
import WordPattern.Proofs.Reading.Atomic
import WordPattern.Proofs.Reading.Fragments

/-! Where the matches of what a fragment adds can end.

What a fragment adds matches the same wherever it stands. Where the reading is strict, what is added can be repeated. -/

namespace WordPattern.Regex

/-- The places that can be reached from a place. -/
abbrev Reach := Cursor → List Cursor

def Reach.andThen (f g : Reach) : Reach := fun p => (f p).flatMap g

def Reach.orElse (f g : Reach) : Reach := fun p => f p ++ g p

/-- Nothing if the reach is empty. -/
def Reach.optional (f : Reach) : Reach := fun p => f p ++ [p]

def Reach.preferred (f : Reach) : Reach := fun p => (f p).take 1

theorem Reach.andThen_assoc (f g h : Reach) : (f.andThen g).andThen h = f.andThen (g.andThen h) := by
  funext p
  exact List.flatMap_assoc

theorem Reach.nil_andThen (f : Reach) : Reach.andThen (fun p => [p]) f = f := by
  funext p
  exact List.flatMap_singleton ..

theorem Reach.andThen_nil (f : Reach) : f.andThen (fun p => [p]) = f := by
  funext p
  exact List.flatMap_singleton' ..

/-- Where expressions that follow each other can end. -/
def itemsEnds : List Expr → Reach
  | [] => fun p => [p]
  | e :: es => Reach.andThen (e.ends .ahead) (itemsEnds es)

def branchesEnds (bs : List Expr) : Reach := fun p => bs.flatMap fun b => b.ends .ahead p

theorem itemsEnds_append (es fs : List Expr) : itemsEnds (es ++ fs) = (itemsEnds es).andThen (itemsEnds fs) := by
  induction es with
  | nil => exact (Reach.nil_andThen _).symm
  | cons e es ih => rw [List.cons_append, itemsEnds, ih, itemsEnds, Reach.andThen_assoc]

theorem itemsEnds_singleton (e : Expr) : itemsEnds [e] = e.ends .ahead := Reach.andThen_nil _

theorem ends_sequence (es : List Expr) : (Expr.sequence es).ends .ahead = itemsEnds es := by
  have hfold : ∀ es : List Expr, (es.foldr Expr.seq .empty).ends .ahead = itemsEnds es := by
    intro es
    induction es with
    | nil => rfl
    | cons e es ih =>
      funext p
      rw [List.foldr_cons, Expr.ends, ih]
      rfl
  unfold Expr.sequence
  split
  · rfl
  · exact (itemsEnds_singleton _).symm
  · exact hfold _

theorem ends_choice (bs : List Expr) : (Expr.choice bs).ends .ahead = branchesEnds bs := by
  have hfold : ∀ bs : List Expr, (bs.foldr Expr.alt .fail).ends .ahead = branchesEnds bs := by
    intro bs
    induction bs with
    | nil => rfl
    | cons b bs ih =>
      funext p
      rw [List.foldr_cons, Expr.ends, ih]
      rfl
  unfold Expr.choice
  split
  · rfl
  · funext p
    exact (List.flatMap_singleton ..).symm
  · exact hfold _

/-! ### Expressions that compile -/

namespace Expr

/-- Nothing in the expression can be refused but for its size: counts are in order, and there is no look behind. -/
def Tame : Expr → Prop
  | seq first rest | alt first rest => first.Tame ∧ rest.Tame
  | rounds low high _ body => low ≤ high.getD low ∧ body.Tame
  | capture _ body | atomic body => body.Tame
  | look direction _ body => direction = .ahead ∧ body.Tame
  | _ => True

/-- The expression is plain, and tame if the reading is strict. -/
def Fine (strict : Prop) (e : Expr) : Prop := e.Plain ∧ (strict → e.Tame)

/-- The expression is fine, and can be repeated if the reading is strict. -/
def Firm (strict : Prop) (e : Expr) : Prop := e.Fine strict ∧ (strict → e.isRepeatable)

variable {strict : Prop}

theorem fine_sequence {es : List Expr} (h : ∀ e ∈ es, e.Fine strict) : (sequence es).Fine strict := by
  have hfold : ∀ es : List Expr, (∀ e ∈ es, e.Fine strict) → (es.foldr seq empty).Fine strict := by
    intro es h
    induction es with
    | nil => exact ⟨trivial, fun _ => trivial⟩
    | cons e es ih =>
      have he := h e List.mem_cons_self
      have hes := ih fun x hx => h x (List.mem_cons_of_mem _ hx)
      exact ⟨⟨he.1, hes.1⟩, fun hs => ⟨he.2 hs, hes.2 hs⟩⟩
  unfold sequence
  split
  · exact hfold [] h
  · exact h _ List.mem_cons_self
  · exact hfold _ h

theorem fine_choice {bs : List Expr} (h : ∀ b ∈ bs, b.Fine strict) : (choice bs).Fine strict := by
  have hfold : ∀ bs : List Expr, (∀ b ∈ bs, b.Fine strict) → (bs.foldr alt fail).Fine strict := by
    intro bs h
    induction bs with
    | nil => exact ⟨trivial, fun _ => trivial⟩
    | cons b bs ih =>
      have hb := h b List.mem_cons_self
      have hbs := ih fun x hx => h x (List.mem_cons_of_mem _ hx)
      refine ⟨⟨hb.1, hbs.1, ?_⟩, fun hs => ⟨hb.2 hs, hbs.2 hs⟩⟩
      cases bs with
      | nil => exact .inl rfl
      | cons c cs => exact .inr ⟨_, _, rfl⟩
  unfold choice
  split
  · exact hfold [] h
  · exact h _ List.mem_cons_self
  · exact hfold _ h

theorem isRepeatable_sequence {es : List Expr} (hne : es ≠ []) (h : ∀ e ∈ es, e.isRepeatable = true) :
    (sequence es).isRepeatable = true := by
  unfold sequence
  split
  · contradiction
  · exact h _ List.mem_cons_self
  · cases es with
    | nil => contradiction
    | cons e es => rfl

theorem isRepeatable_choice {bs : List Expr} (h : ∀ b ∈ bs, b.isRepeatable = true) :
    (choice bs).isRepeatable = true := by
  unfold choice
  split
  · rfl
  · exact h _ List.mem_cons_self
  · cases bs with
    | nil => rfl
    | cons b bs => rfl

theorem firm_sequence {es : List Expr} (hne : strict → es ≠ []) (h : ∀ e ∈ es, e.Firm strict) :
    (sequence es).Firm strict :=
  ⟨fine_sequence fun e he => (h e he).1, fun hs => isRepeatable_sequence (hne hs) fun e he => (h e he).2 hs⟩

theorem firm_choice {bs : List Expr} (h : ∀ b ∈ bs, b.Firm strict) : (choice bs).Firm strict :=
  ⟨fine_choice fun b hb => (h b hb).1, fun hs => isRepeatable_choice fun b hb => (h b hb).2 hs⟩

/-- Repeats with a count. -/
theorem fine_rounds {e : Expr} (h : e.Fine strict) {low high : Nat} (hle : low ≤ high) (greedy : Bool) :
    (rounds low (some high) greedy e).Fine strict :=
  ⟨⟨fun hn => by simp at hn, h.1⟩, fun hs => ⟨hle, h.2 hs⟩⟩

end Expr

/-! ### What a fragment matches -/

open ParseState

/-- With some flags in force, the tokens are read as one item, which can end as given. -/
def ReadsItem (strict : Prop) (φ : Flags) (ts : List Token) (f : Reach) : Prop :=
  ReadsOne strict φ ts fun e => e.Firm strict ∧ e.ends .ahead = f

def ReadsItems (strict : Prop) (φ : Flags) (ts : List Token) (f : Reach) : Prop :=
  ReadsMany strict φ ts fun es => (∀ e ∈ es, e.Firm strict) ∧ (strict → ts ≠ [] → es ≠ []) ∧ itemsEnds es = f

section Reading

variable {strict : Prop} {φ : Flags} {ts us : List Token} {f g : Reach}

theorem ReadsItems.append (h : ReadsItems strict φ ts f) (h' : ReadsItems strict φ us g) :
    ReadsItems strict φ (ts ++ us) (f.andThen g) := by
  refine ReadsMany.append h h' ?_
  rintro es es' ⟨hfirm, hne, rfl⟩ ⟨hfirm', hne', rfl⟩
  refine ⟨?_, ?_, itemsEnds_append es es'⟩
  · intro e he
    exact (List.mem_append.1 he).elim (hfirm e) (hfirm' e)
  · intro hstrict hts
    rw [Ne, List.append_eq_nil_iff, not_and_or] at hts ⊢
    exact hts.imp (hne hstrict) (hne' hstrict)

/-- An item that is changed by what follows it is an item again. -/
theorem firm_singleton {e : Expr} (h : e.Firm strict) :
    (∀ x ∈ [e], x.Firm strict) ∧ (strict → ts ≠ [] → [e] ≠ []) ∧ itemsEnds [e] = e.ends .ahead :=
  ⟨fun _ hx => List.mem_singleton.1 hx ▸ h, fun _ _ => List.cons_ne_nil e [], itemsEnds_singleton e⟩

theorem ReadsItem.items (h : ReadsItem strict φ ts f) : ReadsItems strict φ ts f := by
  refine ReadsOne.many h ?_
  rintro e ⟨hfirm, rfl⟩
  by_cases he : e = .empty
  · subst he
    rw [itemOf_empty]
    exact ⟨by simp, fun hstrict => absurd (hfirm.2 hstrict) (by decide), rfl⟩
  · rw [itemOf_of_ne he]
    exact firm_singleton hfirm

/-- A token that is always read as the same item. -/
theorem readsItem_of_step {t : Token} {e : Expr} (h : ∀ s : ParseState, s.flags = φ → s.step t = .ok (s.push e))
    (he : e.Firm strict) : ReadsItem strict φ [t] (e.ends .ahead) :=
  readsOne_of_step h ⟨he, rfl⟩

/-! ### Repeats -/

theorem ends_optional (e : Expr) : (Expr.rounds 0 (some 1) true e).ends .ahead = Reach.optional (e.ends .ahead) := by
  funext p
  simp [Expr.ends, Rounds.times, Rounds.upTo, Rounds.prefer, Reach.optional]

theorem ends_exactly (e : Expr) (k : Nat) :
    (Expr.rounds k (some k) true e).ends .ahead = Rounds.times (e.ends .ahead) k := by
  funext p
  simp [Expr.ends, Rounds.upTo]

theorem firm_rounds {e : Expr} (h : e.Firm strict) {low high : Nat} (hle : low ≤ high) (greedy : Bool) :
    (Expr.rounds low (some high) greedy e).Firm strict :=
  ⟨Expr.fine_rounds h.1 hle greedy, fun _ => rfl⟩

theorem ReadsItem.question (h : ReadsItem strict φ ts f) : ReadsItems strict φ (ts ++ [.question]) f.optional := by
  refine ReadsOne.question h (fun hstrict e he => he.1.2 hstrict) ?_
  rintro e ⟨hfirm, rfl⟩
  rw [← ends_optional]
  exact firm_singleton (firm_rounds hfirm (Nat.zero_le 1) true)

theorem ReadsItem.possessiveQuestion (h : ReadsItem strict φ ts f) :
    ReadsItems strict φ (ts ++ [.question, .plus]) f.optional.preferred := by
  refine ReadsOne.possessiveQuestion h (fun hstrict e he => he.1.2 hstrict) ?_
  rintro e ⟨hfirm, rfl⟩
  have hends : (Expr.atomic (.rounds 0 (some 1) true e)).ends .ahead = (Reach.optional (e.ends .ahead)).preferred := by
    funext p
    rw [Expr.ends, ends_optional]
    rfl
  rw [← hends]
  exact firm_singleton ⟨(firm_rounds hfirm (Nat.zero_le 1) true).1, fun _ => rfl⟩

theorem ReadsItem.count (h : ReadsItem strict φ ts f) (source : Text) (k : Nat) :
    ReadsItems strict φ (ts ++ [.count source k (some k)]) (Rounds.times f k) := by
  refine ReadsOne.count h source k (fun hstrict e he => he.1.2 hstrict) ?_
  rintro e ⟨hfirm, rfl⟩
  rw [← ends_exactly]
  exact firm_singleton (firm_rounds hfirm (Nat.le_refl k) true)

/-- A single token that is read as items is read as one item. -/
theorem ReadsItems.item_of_token {t : Token} (h : ReadsItems strict φ [t] f) : ReadsItem strict φ [t] f := by
  refine ReadsMany.one_of_token h fun e he => ?_
  by_cases hempty : e = .empty
  · subst hempty
    rw [itemOf_empty] at he
    obtain ⟨-, hne, rfl⟩ := he
    have hstrict : ¬ strict := fun hstrict => hne hstrict (List.cons_ne_nil t []) rfl
    exact ⟨⟨⟨trivial, fun _ => trivial⟩, fun h => absurd h hstrict⟩, rfl⟩
  · rw [itemOf_of_ne hempty] at he
    obtain ⟨hfirm, -, rfl⟩ := he
    exact ⟨hfirm e List.mem_cons_self, (itemsEnds_singleton e).symm⟩

/-! ### One reading -/

theorem Refused.items (h : Refused strict φ ts) (f : Reach) : ReadsItems strict φ ts f := h.many

/-- Tokens that are ever accepted are read in one way. -/
theorem ReadsItems.unique (h : ReadsItems strict φ ts f) (h' : ReadsItems strict φ ts g)
    (hts : ¬ Refused strict φ ts) : f = g := by
  obtain ⟨es, ⟨-, -, rfl⟩, ⟨-, -, rfl⟩⟩ := ReadsMany.exists_both h h' hts
  rfl

end Reading

end WordPattern.Regex
