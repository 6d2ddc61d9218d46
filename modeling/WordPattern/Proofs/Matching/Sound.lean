import WordPattern.Proofs.Matching.Choices

/-! What a continuation answers, given the choices that have been tried.

A sweep passes over a choice that it has met before at the same position. This is right as long as every choice that it
can meet again has been followed to the end in vain, and that is what a sweep keeps up: before it goes on, all
choices further on in the text have led nowhere, and so have those at its own position that it can still meet before it
takes a character. -/

namespace WordPattern.Regex

/-- Where group 0 has started and stopped. -/
abbrev Record := Option Cursor × Option Cursor

/-- What is asked of a path in the end: its place, and what it has recorded of group 0. -/
abbrev View := Cursor × Record

/-- How it goes on from a place, given what is on record. -/
abbrev Outcome := Cursor → Record → Option View

def Path.record (p : Path) : Record := (p.starts.lookup 0, p.stops.lookup 0)

def Path.view (p : Path) : View := (p.cursor, p.record)

namespace Outcome

/-- There is no way to go on from the place. -/
def Fails (K : Outcome) (p : Cursor) : Prop := ∀ z, K p z = none

/-- Whether there is a way to go on does not depend on the record. -/
def Blind (K : Outcome) : Prop := ∀ p z, K p z = none → K.Fails p

def after (K : Outcome) (ends : Cursor → List Cursor) : Outcome := fun p z => (ends p).findSome? (K · z)

theorem after_fails {K : Outcome} {ends : Cursor → List Cursor} {p : Cursor} :
    (K.after ends).Fails p ↔ ∀ q ∈ ends p, K.Fails q := by
  simp only [Fails, after, List.findSome?_eq_none_iff]
  exact ⟨fun h q hq z => h z q hq, fun h z q hq => h q hq z⟩

theorem fails_after (K : Outcome) (ends : Cursor → List Cursor) :
    (K.after ends).Fails = fun p => ∀ q ∈ ends p, K.Fails q := by
  funext p
  exact propext after_fails

theorem Blind.after {K : Outcome} (hK : K.Blind) (ends : Cursor → List Cursor) : (K.after ends).Blind := by
  intro p z h
  rw [after_fails]
  intro q hq
  exact hK q z (List.findSome?_eq_none_iff.1 h q hq)

theorem findSome?_flatMap {α β γ : Type} (f : α → List β) (g : β → Option γ) (xs : List α) :
    (xs.flatMap f).findSome? g = xs.findSome? fun x => (f x).findSome? g := by
  induction xs with
  | nil => rfl
  | cons x xs ih =>
    rw [List.flatMap_cons, List.findSome?_append, ih, List.findSome?_cons]
    cases (f x).findSome? g <;> rfl

theorem after_after (K : Outcome) (ends ends' : Cursor → List Cursor) :
    (K.after ends').after ends = K.after fun p => (ends p).flatMap ends' := by
  funext p z
  exact (findSome?_flatMap ..).symm

theorem after_of_nil {K : Outcome} {ends : Cursor → List Cursor} {p : Cursor} (h : ends p = []) (z : Record) :
    K.after ends p z = none := by
  rw [after, h, List.findSome?_nil]

theorem after_of_singleton {K : Outcome} {ends : Cursor → List Cursor} {p q : Cursor} (h : ends p = [q]) (z : Record) :
    K.after ends p z = K q z := by
  rw [after, h, List.findSome?_cons]
  cases K q z <;> rfl

theorem after_self (K : Outcome) : K.after (fun p => [p]) = K := by
  funext p z
  exact after_of_singleton rfl z

theorem after_prefer (K : Outcome) (greedy : Bool) (f : Cursor → List Cursor) :
    K.after (fun p => Rounds.prefer greedy (f p) [p]) =
      fun p z => if greedy then (K.after f p z).or (K p z) else (K p z).or (K.after f p z) := by
  funext p z
  cases greedy with
  | true =>
    simp only [after, Rounds.prefer, if_true, List.findSome?_append]
    rw [List.findSome?_cons]
    cases K p z <;> rfl
  | false =>
    simp only [after, Rounds.prefer, Bool.false_eq_true, if_false, List.singleton_append]
    rw [List.findSome?_cons]
    cases K p z <;> rfl

end Outcome

section Sound

variable (T : Text) (d : Direction) (D : Choice → Prop)

/-- The position lies further on. -/
def Beyond (p : Cursor) (x : Nat) : Prop :=
  match d with
  | .ahead => p.position < x
  | .behind => x < p.position

/-- Of the choices that have been tried, those further on have led nowhere, and so have those at this position that
are among `A`. -/
def Settled (A : Choice → Prop) (p : Cursor) (tried : Tried) : Prop :=
  ∀ c ∈ tried, Beyond d p c.position ∨ (c.position = p.position ∧ A c) → D c

/-- A result is the expected one, and all choices that a failure has met lead nowhere. -/
def Answers (tried : Tried) (expected : Option View) : Except Tried Path → Prop
  | .ok q => expected = some q.view
  | .error tried' => expected = none ∧ ∀ c ∈ tried', c ∈ tried ∨ D c

/-- Within a text, with less room than `R`, a continuation goes on as expected. `A` are the choices that it can meet
before it takes a character. -/
def Sound (R : Nat) (A : Choice → Prop) (k : Continuation) (K : Outcome) : Prop :=
  ∀ p tried, p.cursor.text = T → p.cursor.room d < R → Settled d D A p.cursor tried →
    Answers D tried (K p.cursor p.record) (k p tried)

variable {T d D}

theorem Sound.mono {R R' : Nat} {A A' : Choice → Prop} {k : Continuation} {K : Outcome} (h : Sound T d D R A k K)
    (hR : R' ≤ R) (hA : ∀ c, A c → A' c) : Sound T d D R' A' k K := by
  intro p tried hT hr hs
  exact h p tried hT (Nat.lt_of_lt_of_le hr hR) fun c hc hb => hs c hc (hb.imp_right fun h => ⟨h.1, hA c h.2⟩)

theorem Answers.mono {tried tried' : Tried} {expected : Option View} {out : Except Tried Path}
    (h : Answers D tried' expected out) (ht : ∀ c ∈ tried', c ∈ tried ∨ D c) : Answers D tried expected out := by
  cases out with
  | ok q => exact h
  | error tried'' => exact ⟨h.1, fun c hc => (h.2 c hc).elim (ht c) .inr⟩

theorem Settled.mono {A : Choice → Prop} {p : Cursor} {tried tried' : Tried} (h : Settled d D A p tried)
    (ht : ∀ c ∈ tried', c ∈ tried ∨ D c) : Settled d D A p tried' :=
  fun c hc hb => (ht c hc).elim (fun hc => h c hc hb) id

theorem beyond_of_step {p q : Cursor} {c : Char} {x : Nat} (h : p.step? d = some (c, q))
    (hx : Beyond d q x ∨ x = q.position) : Beyond d p x := by
  obtain ⟨before, after⟩ := p
  cases d with
  | ahead =>
    cases after with
    | nil => simp [Cursor.step?] at h
    | cons b after =>
      simp only [Cursor.step?, Option.some.injEq, Prod.mk.injEq] at h
      obtain ⟨-, rfl⟩ := h
      simp only [Beyond, Cursor.position, List.length_cons] at *
      omega
  | behind =>
    cases before with
    | nil => simp [Cursor.step?] at h
    | cons b before =>
      simp only [Cursor.step?, Option.some.injEq, Prod.mk.injEq] at h
      obtain ⟨-, rfl⟩ := h
      simp only [Beyond, Cursor.position, List.length_cons] at *
      omega

/-! ### One lemma for each walk -/

section Walks

variable {R : Nat} {A : Choice → Prop} {k : Continuation} {K : Outcome}

theorem Sound.fail (R : Nat) (A : Choice → Prop) (k : Continuation) :
    Sound T d D R A (Walk.fail k) fun _ _ => none :=
  fun _ _ _ _ _ => ⟨rfl, fun _ hc => .inl hc⟩

theorem Sound.one (hk : Sound T d D R A k K) (test : Char → Bool) :
    Sound T d D (R + 1) (fun _ => False) (Walk.one d test k) (K.after (·.past d test)) := by
  intro p tried hT hr hs
  unfold Walk.one
  cases hstep : p.cursor.step? d with
  | none =>
    rw [Outcome.after_of_nil (by simp [Cursor.past, hstep])]
    exact ⟨rfl, fun _ hc => .inl hc⟩
  | some cq =>
    obtain ⟨c, q⟩ := cq
    by_cases ht : test c
    · rw [Outcome.after_of_singleton (q := q) (by simp [Cursor.past, hstep, ht])]
      simp only [ht, if_true]
      have hroom := Cursor.step?_room hstep
      refine hk (p.moveTo q) tried ((Cursor.step?_text hstep).trans hT) (by simp only [Path.moveTo]; omega) ?_
      exact fun c hc hb => hs c hc (.inl (beyond_of_step hstep (hb.imp_right (·.1))))
    · rw [Outcome.after_of_nil (by simp [Cursor.past, hstep, ht])]
      simp only [ht, Bool.false_eq_true, if_false]
      exact ⟨rfl, fun _ hc => .inl hc⟩

theorem Sound.check (hk : Sound T d D R A k K) (test : Cursor → Bool) :
    Sound T d D R A (Walk.check (fun p => test p.cursor) k) (K.after fun p => if test p then [p] else []) := by
  intro p tried hT hr hs
  unfold Walk.check
  by_cases ht : test p.cursor
  · rw [Outcome.after_of_singleton (q := p.cursor) (by simp [ht])]
    simp only [ht, if_true]
    exact hk p tried hT hr hs
  · rw [Outcome.after_of_nil (by simp [ht])]
    simp only [ht, Bool.false_eq_true, if_false]
    exact ⟨rfl, fun _ hc => .inl hc⟩

theorem Sound.orElse {m n : Walk} {L : Outcome} (hm : Sound T d D R A (m k) K) (hn : Sound T d D R A (n k) L) :
    Sound T d D R A (Walk.orElse m n k) fun p z => (K p z).or (L p z) := by
  intro p tried hT hr hs
  have h := hm p tried hT hr hs
  unfold Walk.orElse
  cases hmk : m k p tried with
  | ok q =>
    rw [hmk] at h
    change K p.cursor p.record = some q.view at h
    simp only [h, Option.some_or]
    rfl
  | error tried' =>
    rw [hmk] at h
    obtain ⟨hK, ht⟩ := h
    simp only [hK, Option.none_or]
    exact (hn p tried' hT hr (hs.mono ht)).mono ht

theorem Sound.maybe {m : Walk} {f : Cursor → List Cursor} (greedy : Bool) (hm : Sound T d D R A (m k) (K.after f))
    (hk : Sound T d D R A k K) :
    Sound T d D R A (Walk.maybe greedy m k) (K.after fun p => Rounds.prefer greedy (f p) [p]) := by
  rw [Outcome.after_prefer]
  cases greedy with
  | true => exact hm.orElse (n := id) hk
  | false => exact Sound.orElse (m := id) (n := m) hk hm

/-- A choice is met once at each position; if it was met before, it has been followed in vain. -/
theorem Sound.unlessTried {m : Walk} {π : List Nat} {i : Nat} (hm : Sound T d D R A (m k) K) (hb : K.Blind)
    (hA : ∀ x, ¬ A ⟨π, i, x⟩) (hD : ∀ p : Cursor, p.text = T → (D ⟨π, i, p.position⟩ ↔ K.Fails p)) :
    Sound T d D R (fun c => A c ∨ (c.place = π ∧ c.round = i)) (m.unlessTried π i k) K := by
  intro p tried hT hr hs
  unfold Walk.unlessTried
  by_cases hc : (⟨π, i, p.cursor.position⟩ : Choice) ∈ tried
  · simp only [hc, if_true]
    have hdead := (hD _ hT).1 (hs _ hc (.inr ⟨rfl, .inr ⟨rfl, rfl⟩⟩))
    exact ⟨hdead _, fun _ h => .inl h⟩
  · simp only [hc, if_false]
    have hset : Settled d D A p.cursor (⟨π, i, p.cursor.position⟩ :: tried) := by
      intro c hc hbc
      rcases List.mem_cons.1 hc with rfl | hc
      · rcases hbc with hbc | ⟨-, hbc⟩
        · cases d <;> exact absurd hbc (Nat.lt_irrefl _)
        · exact absurd hbc (hA _)
      · exact hs c hc (hbc.imp_right fun h => ⟨h.1, .inl h.2⟩)
    have h := hm p _ hT hr hset
    cases hout : m k p (⟨π, i, p.cursor.position⟩ :: tried) with
    | ok q => rw [hout] at h; exact h
    | error tried' =>
      rw [hout] at h
      obtain ⟨hK, ht⟩ := h
      refine ⟨hK, fun c hc => ?_⟩
      rcases ht c hc with hc | hc
      · rcases List.mem_cons.1 hc with rfl | hc
        · exact .inr ((hD _ hT).2 (hb _ _ hK))
        · exact .inl hc
      · exact .inr hc

theorem Sound.capture (hk : Sound T d D R A k K) {group : Nat} (h0 : group ≠ 0) :
    Sound T d D R A (fun q => k (q.stopGroup group)) K := by
  intro p tried hT hr hs
  have h := hk (p.stopGroup group) tried hT hr hs
  have hrec : (p.stopGroup group).record = p.record := by
    simp [Path.record, Path.stopGroup, List.lookup_cons, beq_eq_false_iff_ne.2 h0.symm]
  rw [hrec] at h
  exact h

theorem Sound.enter (hk : Sound T d D R A k K) {group : Nat} (h0 : group ≠ 0) :
    Sound T d D R A (fun p => k (p.startGroup group)) K := by
  intro p tried hT hr hs
  have h := hk (p.startGroup group) tried hT hr hs
  have hrec : (p.startGroup group).record = p.record := by
    simp [Path.record, Path.startGroup, List.lookup_cons, beq_eq_false_iff_ne.2 h0.symm]
  rw [hrec] at h
  exact h

end Walks

end Sound

end WordPattern.Regex
