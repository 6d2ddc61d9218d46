import WordPattern.Proofs.Reading.Groups
import WordPattern.Proofs.Reading.Units

/-! Fragments that can be read wherever they stand.

Whatever is said with a fragment, it cannot be refused: it ends in the group in which it begins, and where it is solid a
repeat count can follow the group. The flags in force do not matter for this. -/

namespace WordPattern.Regex

namespace Expr

theorem isRepeatable_sequence_of_two {e f : Expr} {es : List Expr} : (sequence (e :: f :: es)).isRepeatable = true := rfl

/-- One item or several can be repeated. -/
theorem isRepeatable_sequence_iff {es : List Expr} :
    (sequence es).isRepeatable = true ↔ 2 ≤ es.length ∨ ∃ e, es = [e] ∧ e.isRepeatable = true := by
  cases es with
  | nil => simp [sequence, isRepeatable]
  | cons e es =>
    cases es with
    | nil => simp [sequence]
    | cons f es => simp [isRepeatable_sequence_of_two]

/-- Alternatives can be repeated, whatever they are. -/
theorem isRepeatable_choice_iff {b : Expr} {bs : List Expr} :
    (choice (b :: bs)).isRepeatable = true ↔ bs ≠ [] ∨ b.isRepeatable = true := by
  cases bs with
  | nil => simp [choice]
  | cons c cs => simp [choice, isRepeatable]

end Expr

/-- There is something in the group that a repeat could apply to. -/
theorem Frame.isRepeatable_body_iff {f : Frame} : f.body.isRepeatable = true ↔
    f.branches ≠ [] ∨ 2 ≤ f.items.length ∨ ∃ e, f.items = [e] ∧ e.isRepeatable = true := by
  have hbranch : f.branch.isRepeatable = true ↔ 2 ≤ f.items.length ∨ ∃ e, f.items = [e] ∧ e.isRepeatable = true := by
    rw [branch, Expr.isRepeatable_sequence_iff, List.length_reverse]
    simp [List.reverse_eq_iff]
  cases hb : f.branches with
  | nil => simp [body, hb, Expr.choice, hbranch]
  | cons b bs =>
    have htwo : 2 ≤ ((f.branch :: b :: bs).reverse).length := by simp
    cases hr : (f.branch :: b :: bs).reverse with
    | nil => simp [hr] at htwo
    | cons c cs =>
      have hcs : cs ≠ [] := by
        rintro rfl
        simp [hr] at htwo
      simp [body, hb, hr, Expr.isRepeatable_choice_iff, hcs]

namespace ParseState

/-- A state is further on in the same group, in which there is more. -/
structure Further (solid : Prop) (s s' : ParseState) : Prop where
  around : s'.around = s.around
  kind : s'.top.kind = s.top.kind
  repeatable : solid ∨ s.top.body.isRepeatable = true → s'.top.body.isRepeatable = true

variable {solid solid' : Prop} {s s' s'' : ParseState}

theorem Further.refl (s : ParseState) : Further False s s := ⟨rfl, rfl, fun h => h.resolve_left id⟩

theorem Further.trans (h : Further solid s s') (h' : Further solid' s' s'') : Further (solid ∨ solid') s s'' where
  around := h'.around.trans h.around
  kind := h'.kind.trans h.kind
  repeatable := by
    rintro ((hsolid | hsolid) | hbody)
    · exact h'.repeatable (.inr (h.repeatable (.inl hsolid)))
    · exact h'.repeatable (.inl hsolid)
    · exact h'.repeatable (.inr (h.repeatable (.inr hbody)))

theorem Further.mono (h : Further solid s s') (hsolid : solid' → solid) : Further solid' s s' :=
  ⟨h.around, h.kind, fun hbody => h.repeatable (hbody.imp_left hsolid)⟩

theorem further_push (s : ParseState) (e : Expr) : Further (e.isRepeatable = true) s (s.push e) where
  around := rfl
  kind := rfl
  repeatable := by
    simp only [Frame.isRepeatable_body_iff, push, modifyTop]
    by_cases he : e = .empty
    · subst he
      rw [if_pos rfl]
      exact fun h => h.resolve_left Bool.false_ne_true
    · rw [if_neg he]
      rintro (hrepeat | hbranches | hitems | ⟨x, hx, -⟩)
      · cases s.top.items <;> simp [hrepeat]
      · exact .inl hbranches
      · exact .inr (.inl (Nat.le_succ_of_le hitems))
      · simp [hx]

/-- The last item is changed into one that can be repeated. -/
theorem further_changeLast (s : ParseState) (tail : Tail) {g : Expr → Expr} (hg : ∀ e, (g e).isRepeatable = true) :
    Further (s.top.items ≠ []) s (s.changeLast tail g) where
  around := rfl
  kind := rfl
  repeatable := by
    simp only [Frame.isRepeatable_body_iff, changeLast, modifyTop]
    cases hitems : s.top.items with
    | nil => simp
    | cons e es => cases es <;> simp [hg]

theorem further_endBranch (s : ParseState) : Further True s s.endBranch :=
  ⟨rfl, rfl, fun _ => Frame.isRepeatable_body_iff.2 (.inl (List.cons_ne_nil _ _))⟩

theorem further_literals (source : Text) (s : ParseState) :
    Further False s (source.foldl (fun s c => s.push (.char c s.flags.ignoreCase)) s) := by
  induction source generalizing s with
  | nil => exact .refl s
  | cons c source ih => exact ((further_push s _).trans (ih _)).mono False.elim

end ParseState

open ParseState

/-! ### Fragments -/

/-- The tokens can be read from every state; if they are solid, there is something after them that can be repeated. -/
def Stands (solid : Prop) (ts : List Token) : Prop :=
  ∀ s : ParseState, ∃ s' : ParseState, s.steps ts = .ok s' ∧ Further solid s s'

/-- The tokens are read from every state as one item, which can be repeated. -/
def StandsAsOne (ts : List Token) : Prop :=
  ∀ s : ParseState, ∃ (s₁ : ParseState) (e : Expr), s.steps ts = .ok (s₁.push e) ∧ e.isRepeatable = true ∧
    s₁.top = s.top ∧ s₁.around = s.around

section Fragments

variable {solid solid' : Prop} {t : Token} {ts us : List Token}

theorem steps_singleton (s : ParseState) (t : Token) : s.steps [t] = s.step t := by
  rw [steps]
  cases s.step t <;> rfl

theorem stands_nil : Stands False [] := fun s => ⟨s, rfl, .refl s⟩

theorem Stands.mono (h : Stands solid ts) (hsolid : solid' → solid) : Stands solid' ts := by
  intro s
  obtain ⟨s', hs', hfurther⟩ := h s
  exact ⟨s', hs', hfurther.mono hsolid⟩

theorem Stands.append (h : Stands solid ts) (h' : Stands solid' us) : Stands (solid ∨ solid') (ts ++ us) := by
  intro s
  obtain ⟨s₁, hs₁, hfurther⟩ := h s
  obtain ⟨s₂, hs₂, hfurther'⟩ := h' s₁
  refine ⟨s₂, ?_, hfurther.trans hfurther'⟩
  rw [steps_append, hs₁]
  exact hs₂

theorem Stands.bar (h : Stands solid ts) (h' : Stands solid' us) : Stands True (ts ++ .bar :: us) := by
  have hbar : Stands True [.bar] := fun s => ⟨s.endBranch, rfl, further_endBranch s⟩
  exact (h.append (hbar.append h')).mono fun _ => .inr (.inl trivial)

/-- A token that is always read as some item that can be repeated. -/
theorem standsAsOne_of_step (h : ∀ s : ParseState, ∃ e, s.step t = .ok (s.push e) ∧ e.isRepeatable = true) :
    StandsAsOne [t] := by
  intro s
  obtain ⟨e, hstep, he⟩ := h s
  exact ⟨s, e, by rw [steps_singleton, hstep], he, rfl, rfl⟩

theorem StandsAsOne.stands (h : StandsAsOne ts) : Stands True ts := by
  intro s
  obtain ⟨s₁, e, hs, he, htop, haround⟩ := h s
  obtain ⟨haround', hkind', hrepeat⟩ := further_push s₁ e
  rw [haround] at haround'
  rw [htop] at hkind' hrepeat
  exact ⟨s₁.push e, hs, haround', hkind', fun _ => hrepeat (.inl he)⟩

/-! ### Repeats -/

/-- A repeat can follow an item. -/
theorem StandsAsOne.quantified (h : StandsAsOne ts) {f : Expr → Expr} (hf : Quantifies us f) : Stands True (ts ++ us) := by
  intro s
  obtain ⟨s₁, e, hs, he, htop, haround⟩ := h s
  have htail : (s₁.push e).top.tail = .item := by rw [tail_push, he, if_pos rfl]
  have hitems : (s₁.push e).top.items ≠ [] := by
    simp [push, modifyTop, ne_empty_of_isRepeatable he]
  obtain ⟨tail, hsteps⟩ := hf.steps htail
  obtain ⟨haround', hkind', hrepeat⟩ := further_changeLast (s₁.push e) tail hf.isRepeatable
  refine ⟨(s₁.push e).changeLast tail f, ?_, haround'.trans haround, ?_, fun _ => hrepeat (.inl hitems)⟩
  · rw [steps_append, hs]
    exact hsteps
  · rw [hkind', ← htop]
    rfl

/-- A single token that is read wherever it stands and leaves something is an item, or a bar. -/
theorem Stands.one_of_token (h : Stands True [t]) : StandsAsOne [t] ∨ t = .bar := by
  -- a group in which there is nothing yet, and nothing to repeat
  have hempty : ∀ φ : Flags, ∃ s', ParseState.step ⟨φ, .start .plain {}, [], 0, [], []⟩ t = .ok s' ∧ s'.around = [] ∧
      s'.top.body.isRepeatable = true := by
    intro φ
    obtain ⟨s', hs', hfurther⟩ := h ⟨φ, .start .plain {}, [], 0, [], []⟩
    rw [steps_singleton] at hs'
    exact ⟨s', hs', hfurther.around, hfurther.repeatable (.inl trivial)⟩
  obtain ⟨s', hs', haround, hbody⟩ := hempty {}
  cases t with
  | char | named | set | dot | anchor => exact .inl (standsAsOne_of_step fun s => ⟨_, rfl, rfl⟩)
  | caret | dollar => exact .inl (standsAsOne_of_step fun s => ⟨_, rfl, rfl⟩)
  | beforeFinalNewlines | flags =>
    obtain rfl := Except.ok.inj hs'
    exact absurd hbody Bool.false_ne_true
  | opening o => cases o <;> obtain rfl := Except.ok.inj hs' <;> exact absurd haround (List.cons_ne_nil _ _)
  | close | star | plus | question | backref => contradiction
  | bar => exact .inr rfl
  | count source low high =>
    -- after an item that cannot be repeated a count is refused
    obtain ⟨s', hs', -⟩ := h ⟨{}, ⟨.plain, {}, [], [], .rigid⟩, [], 0, [], []⟩
    contradiction

theorem stands_bar_count (source : Text) (low : Nat) (high : Option Nat) :
    Stands True [.bar, .count source low high] := by
  intro s
  refine ⟨source.foldl (fun s c => s.push (.char c s.flags.ignoreCase)) s.endBranch, rfl, ?_⟩
  exact ((further_endBranch s).trans (further_literals source _)).mono .inl

/-- A count can follow a token that leaves something; after a bar it is text. -/
theorem Stands.count_of_token (h : Stands True [t]) (source : Text) (low : Nat) (high : Option Nat) :
    Stands True [t, .count source low high] := by
  rcases h.one_of_token with hone | rfl
  · exact hone.quantified (.greedy rfl)
  · exact stands_bar_count source low high

/-! ### Groups -/

/-- A group can be repeated if it looks at nothing and what is inside can be. -/
theorem Stands.group (h : Stands True ts) {o : Opening} (ho : ∀ d negated, o ≠ .look d negated) :
    StandsAsOne (.opening o :: ts ++ [.close]) := by
  intro s
  have hopen : ∃ s₁, s.step (.opening o) = .ok s₁ ∧ s₁.around = s.top :: s.around ∧
      ∀ e : Expr, e.isRepeatable = true → (s₁.top.kind.wrap e).isRepeatable = true := by
    cases o with
    | look d negated => exact absurd rfl (ho d negated)
    | plain | atomic | capture | named => exact ⟨_, rfl, rfl, fun _ he => by first | exact he | rfl⟩
  obtain ⟨s₁, hstep, haround, hwrap⟩ := hopen
  obtain ⟨s₂, hs₂, hfurther⟩ := h s₁
  obtain ⟨sizes, hclose⟩ := closeGroup_eq (hfurther.around.trans haround)
  have hbody := hfurther.repeatable (.inl trivial)
  have hsteps : s.steps (.opening o :: ts ++ [.close]) = s₂.closeGroup := by
    rw [List.cons_append, steps, hstep]
    change s₁.steps (ts ++ [.close]) = _
    rw [steps_append, hs₂]
    exact steps_singleton s₂ .close
  refine ⟨_, _, hsteps.trans hclose, ?_, rfl, rfl⟩
  rw [hfurther.kind]
  exact hwrap _ hbody

/-- A whole source that can be read wherever it stands. -/
theorem Stands.exists_parse (h : Stands True ts) {source : Text} (hts : tokens source = .ok ts) :
    ∃ parsed, parse source = .ok parsed ∧ parsed.expr.isRepeatable = true := by
  obtain ⟨s, hs, hfurther⟩ := h .start
  have haround : s.around = [] := hfurther.around
  refine ⟨⟨s.top.body, s.names.reverse⟩, ?_, hfurther.repeatable (.inl trivial)⟩
  simp only [parse, hts, bind, Except.bind, hs, haround]
  rfl

end Fragments

end WordPattern.Regex
