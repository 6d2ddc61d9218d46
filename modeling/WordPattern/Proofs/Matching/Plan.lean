import WordPattern.Proofs.Matching.Sweep
import WordPattern.Proofs.Success
import WordPattern.Regex.Plan

/-! Plans find the preferred match.

A plan may match a part in one way only. This hides nothing where all matches of the part end at the same place, and
nothing where whatever follows goes on from all places or from none. -/

namespace WordPattern.Regex

/-- A continuation goes on as expected, whatever has been tried. -/
def Follows (k : Continuation) (K : Outcome) : Prop :=
  ∀ p tried, (k p tried).toOption.map Path.view = K p.cursor p.record

/-- With the same record one can go on from all places or from none. -/
def Outcome.Uniform (K : Outcome) : Prop := ∀ p q z, K p z = none → K q z = none

/-- A walk goes to the preferred of some places that one can go on from. If `total`, this is asked only where one can go
on from all of them or from none. -/
def Realizes (total : Prop) (m : Walk) (ends : Cursor → List Cursor) : Prop :=
  ∀ ⦃k : Continuation⦄ ⦃K : Outcome⦄, Follows k K → (total → K.Uniform) → Follows (m k) (K.after ends)

def Tests (m : Walk) (test : Cursor → Prop) : Prop :=
  ∀ ⦃k : Continuation⦄ ⦃K : Outcome⦄, Follows k K → K.Uniform → ∀ p tried,
    (test p.cursor → ∃ q, (m k p tried).toOption.map Path.view = K q p.record) ∧
      (¬ test p.cursor → (m k p tried).toOption.map Path.view = none)

theorem follows_finish : Follows Walk.finish Outcome.finish := fun _ _ => rfl

theorem Outcome.finish_uniform : Outcome.finish.Uniform := fun p q z h => by simp [finish] at h

theorem Outcome.uniform_const (L : Record → Option View) : Outcome.Uniform fun _ => L := fun _ _ _ h => h

namespace Outcome

variable {K : Outcome} {ends : Cursor → List Cursor} {p q : Cursor} {z : Record}

/-- If one can go on from all places or from none, the first one is as good as any. -/
theorem Uniform.after_eq (hK : K.Uniform) (h : (ends p).head? = some q) : K.after ends p z = K q z := by
  obtain ⟨rest, hrest⟩ := List.head?_eq_some_iff.1 h
  rw [after, hrest, List.findSome?_cons]
  cases hq : K q z with
  | some v => rfl
  | none =>
    rw [List.findSome?_eq_none_iff]
    intro r _
    exact hK q r z hq

theorem findSome?_of_same {α β : Type} {xs : List α} {x : α} (f : α → Option β) (hx : x ∈ xs) (h : ∀ y ∈ xs, y = x) :
    xs.findSome? f = f x := by
  cases xs with
  | nil => simp at hx
  | cons y rest =>
    obtain rfl := h y List.mem_cons_self
    rw [List.findSome?_cons]
    cases hy : f y with
    | some v => rfl
    | none =>
      rw [List.findSome?_eq_none_iff]
      intro r hr
      rw [h r (List.mem_cons_of_mem _ hr), hy]

/-- If all places are the same, the first one is as good as any. -/
theorem after_eq_of_same (h : (ends p).head? = some q) (hsame : ∀ r ∈ ends p, r = q) : K.after ends p z = K q z :=
  findSome?_of_same (K · z) (List.mem_of_mem_head? h) hsame

end Outcome

/-! ### One lemma for each walk -/

section Walks

variable {total : Prop} {m n : Walk} {f g : Cursor → List Cursor}

theorem Realizes.mono {total' : Prop} (h : Realizes total m f) (ht : total → total') : Realizes total' m f :=
  fun _ _ hk hu => h hk fun t => hu (ht t)

theorem Realizes.congr (h : Realizes total m f) (he : ∀ K p z, Outcome.after K f p z = Outcome.after K g p z) :
    Realizes total m g := by
  intro k K hk hu
  have hfg : K.after f = K.after g := funext fun p => funext fun z => he K p z
  exact hfg ▸ h hk hu

theorem realizes_id (total : Prop) : Realizes total id fun p => [p] := by
  intro k K hk _
  rw [Outcome.after_self]
  exact hk

theorem Realizes.seq (hm : Realizes False m f) (hn : Realizes total n g) :
    Realizes total (fun k => m (n k)) fun p => (f p).flatMap g := by
  intro k K hk hu
  rw [← Outcome.after_after]
  exact hm (hn hk hu) False.elim

theorem follows_orElse {k : Continuation} {K L : Outcome} (hm : Follows (m k) K) (hn : Follows (n k) L) :
    Follows (Walk.orElse m n k) fun p z => (K p z).or (L p z) := by
  intro p tried
  have h := hm p tried
  unfold Walk.orElse
  cases hmk : m k p tried with
  | ok q =>
    rw [hmk] at h
    simp only [← h]
    rfl
  | error tried' =>
    rw [hmk] at h
    simp only [← h]
    exact hn p tried'

theorem Realizes.orElse (hm : Realizes total m f) (hn : Realizes total n g) :
    Realizes total (Walk.orElse m n) fun p => f p ++ g p := by
  intro k K hk hu
  have he : K.after (fun p => f p ++ g p) = fun p z => (K.after f p z).or (K.after g p z) := by
    funext p z
    exact List.findSome?_append
  rw [he]
  exact follows_orElse (hm hk hu) (hn hk hu)

theorem Realizes.maybe (greedy : Bool) (hm : Realizes total m f) :
    Realizes total (Walk.maybe greedy m) fun p => Rounds.prefer greedy (f p) [p] := by
  cases greedy with
  | true => exact hm.orElse (realizes_id total)
  | false => exact (realizes_id total).orElse hm

theorem Realizes.times (hm : Realizes False m f) (n : Nat) {i : Nat} :
    Realizes False (Walk.times (fun _ => m) i n) (Rounds.times f n) := by
  induction n generalizing i with
  | zero => exact realizes_id False
  | succ n ih => exact hm.seq ih

theorem Realizes.upTo (greedy : Bool) (hm : Realizes False m f) (n : Nat) {i : Nat} :
    Realizes False (Walk.upTo (fun _ => id) greedy (fun _ => m) i n) (Rounds.upTo f greedy n) := by
  induction n generalizing i with
  | zero => exact realizes_id False
  | succ n ih => exact (hm.seq ih).maybe greedy

theorem Realizes.spin (greedy : Bool) (hm : Realizes False m f) (fuel : Nat) :
    Realizes False (Walk.spin greedy m fuel) (Rounds.spin f greedy fuel) := by
  induction fuel with
  | zero => exact fun k K _ _ p tried => rfl
  | succ fuel ih =>
    intro k K hk _ p tried
    let back (q : Cursor) : List Cursor := if q = p.cursor then [q] else Rounds.spin f greedy fuel q
    have hround : Follows (fun q => if q.cursor = p.cursor then k q else Walk.spin greedy m fuel k q)
        (K.after back) := by
      intro q tried
      by_cases hq : q.cursor = p.cursor
      · simp only [hq, if_true]
        rw [Outcome.after_of_singleton (q := p.cursor) (by simp [back])]
        have := hk q tried
        rwa [hq] at this
      · simp only [hq, if_false]
        have hb : K.after back q.cursor q.record = K.after (Rounds.spin f greedy fuel) q.cursor q.record := by
          simp [Outcome.after, back, hq]
        rw [hb]
        exact ih hk False.elim q tried
    have hbody : Follows (m fun q => if q.cursor = p.cursor then k q else Walk.spin greedy m fuel k q)
        (K.after fun x => (f x).flatMap back) := by
      rw [← Outcome.after_after]
      exact hm hround False.elim
    have he : K.after (Rounds.spin f greedy (fuel + 1)) p.cursor p.record =
        K.after (fun x => Rounds.prefer greedy ((f x).flatMap back) [x]) p.cursor p.record := rfl
    rw [he, Outcome.after_prefer]
    unfold Walk.spin
    let round : Walk := fun k => m fun q => if q.cursor = p.cursor then k q else Walk.spin greedy m fuel k q
    change Follows (round k) _ at hbody
    change (Walk.maybe greedy round k p tried).toOption.map Path.view = _
    generalize round = round at hbody
    cases greedy with
    | true => exact follows_orElse (n := id) hbody hk p tried
    | false => exact follows_orElse (m := id) hk hbody p tried

theorem realizes_capture {group : Nat} (h0 : group ≠ 0) (hm : Realizes total m f) :
    Realizes total (fun k p => m (fun q => k (q.stopGroup group)) (p.startGroup group)) f := by
  intro k K hk hu p tried
  have hstop : Follows (fun q => k (q.stopGroup group)) K := by
    intro q tried
    have hrec : (q.stopGroup group).record = q.record := by
      simp [Path.record, Path.stopGroup, List.lookup_cons, beq_eq_false_iff_ne.2 h0.symm]
    have := hk (q.stopGroup group) tried
    rwa [hrec] at this
  have hrec : (p.startGroup group).record = p.record := by
    simp [Path.record, Path.startGroup, List.lookup_cons, beq_eq_false_iff_ne.2 h0.symm]
  have := hm hstop hu (p.startGroup group) tried
  rwa [hrec] at this

theorem realizes_once (hm : Realizes True m f) : Realizes total m.once fun p => (f p).take 1 := by
  intro k K hk _ p tried
  have h := hm follows_finish (fun _ => Outcome.finish_uniform) p []
  unfold Walk.once
  cases hmk : m Walk.finish p [] with
  | ok q =>
    rw [hmk] at h
    cases hf : f p.cursor with
    | nil => simp [Outcome.after, hf, Except.toOption] at h
    | cons r rest =>
      rw [Outcome.finish_uniform.after_eq (q := r) (by simp [hf])] at h
      obtain ⟨h1, h2⟩ := Prod.mk.inj (Option.some.inj h)
      rw [Outcome.after_of_singleton (q := r) (by simp [hf])]
      simpa only [h1, h2] using hk q tried
  | error tried' =>
    rw [hmk] at h
    have hf : f p.cursor = [] := by
      cases hf : f p.cursor with
      | nil => rfl
      | cons r rest =>
        rw [Outcome.finish_uniform.after_eq (q := r) (by simp [hf])] at h
        simp [Outcome.finish, Except.toOption] at h
    rw [Outcome.after_of_nil (by simp [hf])]
    rfl

/-! ### Looks -/

theorem Realizes.tests (hm : Realizes True m f) : Tests m fun p => f p ≠ [] := by
  intro k K hk hu p tried
  have h := hm hk (fun _ => hu) p tried
  cases hf : f p.cursor with
  | nil =>
    rw [Outcome.after_of_nil hf] at h
    exact ⟨fun hn => absurd hf hn, fun _ => h⟩
  | cons r rest =>
    rw [hu.after_eq (q := r) (by simp [hf])] at h
    exact ⟨fun _ => ⟨r, h⟩, fun hn => absurd (by simp [hf]) hn⟩

theorem Tests.inPlace {test : Cursor → Prop} [DecidablePred test] (hm : Tests m test) :
    Realizes total m.inPlace fun p => if test p then [p] else [] := by
  intro k K hk _ p tried
  have hback : Follows (fun q => k (q.moveTo p.cursor)) fun _ => K p.cursor := fun q tried => hk (q.moveTo p.cursor) tried
  have h := hm hback (Outcome.uniform_const _) p tried
  by_cases ht : test p.cursor
  · rw [Outcome.after_of_singleton (q := p.cursor) (by simp [ht])]
    obtain ⟨-, h⟩ := h.1 ht
    exact h
  · rw [Outcome.after_of_nil (by simp [ht])]
    exact h.2 ht

theorem Tests.absent {test : Cursor → Prop} [DecidablePred test] (hm : Tests m test) :
    Realizes total m.absent fun p => if test p then [] else [p] := by
  intro k K hk _ p tried
  have h := hm follows_finish Outcome.finish_uniform p []
  unfold Walk.absent
  by_cases ht : test p.cursor
  · rw [Outcome.after_of_nil (by simp [ht])]
    obtain ⟨q, h⟩ := h.1 ht
    cases hmk : m Walk.finish p [] with
    | ok r => rfl
    | error tried' => rw [hmk] at h; simp [Outcome.finish, Except.toOption] at h
  · rw [Outcome.after_of_singleton (q := p.cursor) (by simp [ht])]
    have h := h.2 ht
    cases hmk : m Walk.finish p [] with
    | ok r => rw [hmk] at h; simp [Except.toOption] at h
    | error tried' => exact hk p tried

/-- A look, which asks for a test or for its opposite. -/
theorem Tests.look {test : Cursor → Prop} [DecidablePred test] (negated : Bool) {body : Plan}
    (hm : Tests body.walk test) :
    Realizes total (Plan.look negated body).walk fun p => if decide (test p) != negated then [p] else [] := by
  cases negated with
  | false =>
    have he : (fun p => if decide (test p) != false then [p] else []) = fun p => if test p then [p] else [] := by
      funext p
      by_cases ht : test p <;> simp [ht]
    rw [he]
    exact hm.inPlace
  | true =>
    have he : (fun p => if decide (test p) != true then [p] else []) = fun p => if test p then [] else [p] := by
      funext p
      by_cases ht : test p <;> simp [ht]
    rw [he]
    exact hm.absent

end Walks

/-! ### Parts that are swept -/

theorem lookup_filter {α : Type} {groups : List Nat} {g : Nat} (h : g ∉ groups) (l : List (Nat × α)) :
    (l.filter (·.1 ∉ groups)).lookup g = l.lookup g := by
  induction l with
  | nil => rfl
  | cons x l ih =>
    by_cases hx : x.1 ∈ groups
    · have hne : (g == x.1) = false := beq_eq_false_iff_ne.2 fun he => h (he ▸ hx)
      rw [List.filter_cons_of_neg (by simpa using hx), ih]
      obtain ⟨a, b⟩ := x
      rw [List.lookup_cons, hne]
    · rw [List.filter_cons_of_pos (by simpa using hx)]
      obtain ⟨a, b⟩ := x
      rw [List.lookup_cons, List.lookup_cons, ih]

theorem record_forget {groups : List Nat} (h : 0 ∉ groups) (p : Path) : (p.forget groups).record = p.record := by
  unfold Path.forget
  split_ifs
  · rfl
  · simp only [Path.record, lookup_filter h]

theorem cursor_forget (groups : List Nat) (p : Path) : (p.forget groups).cursor = p.cursor := by
  unfold Path.forget
  split_ifs <;> rfl

namespace Expr

/-- Expressions that refer to no group and leave group 0 alone, whose choices are chains, and in which what is repeated
without an upper bound takes characters. -/
def Plain : Expr → Prop
  | seq first rest => first.Plain ∧ rest.Plain
  | alt first rest => first.Plain ∧ rest.Plain ∧ (rest = fail ∨ ∃ a b, rest = alt a b)
  | rounds _ high _ body => (high = none → 0 < body.size.least) ∧ body.Plain
  | capture group body => group ≠ 0 ∧ body.Plain
  | atomic body | look _ _ body => body.Plain
  | backref _ _ _ => False
  | _ => True

theorem Plain.productive {e : Expr} (h : e.Plain) : e.Productive := by
  induction e with
  | seq first rest ih ih' => exact ⟨ih h.1, ih' h.2⟩
  | alt first rest ih ih' => exact ⟨ih h.1, ih' h.2.1⟩
  | rounds low high greedy body ih => exact ⟨h.1, ih h.2⟩
  | capture group body ih => exact ih h.2
  | atomic body ih | look d negated body ih => exact ih h
  | empty | fail | char | set | anyChar | anchor | backref => trivial

theorem Plain.zero_notMem_groups {e : Expr} (h : e.Plain) : 0 ∉ e.groups := by
  induction e with
  | seq first rest ih ih' => simp only [groups, List.mem_append, not_or]; exact ⟨ih h.1, ih' h.2⟩
  | alt first rest ih ih' => simp only [groups, List.mem_append, not_or]; exact ⟨ih h.1, ih' h.2.1⟩
  | rounds low high greedy body ih => exact ih h.2
  | capture group body ih => simp only [groups, List.mem_cons, not_or]; exact ⟨h.1.symm, ih h.2⟩
  | atomic body ih | look d negated body ih => exact ih h
  | empty | fail | char | set | anyChar | anchor | backref => simp [groups]

theorem ordered_of_checkCounts {e : Expr} (h : e.checkCounts = .ok ()) : e.Ordered := by
  induction e with
  | seq first rest ih ih' | alt first rest ih ih' =>
    simp only [checkCounts, bind, Except.bind] at h
    cases hf : first.checkCounts with
    | error err => simp [hf] at h
    | ok u =>
      rw [hf] at h
      exact ⟨ih hf, ih' h⟩
  | rounds low high greedy body ih =>
    simp only [checkCounts, bind, Except.bind] at h
    split_ifs at h with h1 h2
    exact ⟨Nat.not_lt.1 h1, ih h⟩
  | capture group body ih => exact ih h
  | atomic body ih | look d negated body ih => exact ih h
  | empty | fail | char | set | anyChar | anchor | backref => trivial

theorem ordered_of_swept {e : Expr} {P : Plan} (h : e.swept = .ok P) : e.Ordered ∧ P = .sweep e := by
  simp only [swept, checkSweep, bind, Except.bind] at h
  cases hc : e.checkCounts with
  | error err => simp [hc] at h
  | ok u =>
    simp only [hc] at h
    split_ifs at h
    simp only [pure, Except.pure, Except.ok.injEq] at h
    exact ⟨ordered_of_checkCounts hc, h.symm⟩

end Expr

section Swept

variable {e : Expr}

theorem realizes_sweep {total : Prop} (hr : e.Sweepable) (ho : e.Ordered) (hp : e.Plain)
    (hs : total ∨ e.size.fixed = true) : Realizes total (Plan.sweep e).walk (e.ends .ahead) := by
  intro k K hk hu p tried
  have h := sweep_finish hr ho hp.productive hp.zero_notMem_groups .ahead (p.forget e.groups)
  have hrec := record_forget hp.zero_notMem_groups p
  have hcur := cursor_forget e.groups p
  simp only [Plan.walk, Walk.once]
  cases hm : e.sweep .ahead [] false Walk.finish (p.forget e.groups) [] with
  | error tried' =>
    rw [hm, hcur] at h
    rw [Outcome.after_of_nil (List.head?_eq_none_iff.1 (Option.map_eq_none_iff.1 h.symm))]
    rfl
  | ok q =>
    rw [hm] at h
    obtain ⟨r, hr, hview⟩ := Option.map_eq_some_iff.1 h.symm
    obtain ⟨rfl, hq⟩ := Prod.mk.inj hview
    rw [hcur] at hr
    have he : K.after (e.ends .ahead) p.cursor p.record = K q.cursor p.record := by
      rcases hs with ht | hf
      · exact (hu ht).after_eq hr
      · exact Outcome.after_eq_of_same hr fun x hx => Expr.eq_of_fixed hf hx (List.mem_of_mem_head? hr)
    rw [he, ← hrec, hq]
    exact hk q tried

/-- Going back along an expression finds out whether a match of it stops at a place. -/
theorem backAlong_tests (hr : e.Sweepable) (ho : e.Ordered) (hp : e.Plain) :
    Tests (Plan.backAlong e).walk fun p => e.ends .behind p ≠ [] := by
  intro k K hk hu p tried
  have h0 := hp.zero_notMem_groups
  have h := sweep_finish hr ho hp.productive h0 .behind p
  simp only [Plan.walk, Walk.backAlong]
  cases hm : e.sweep .behind [] false Walk.finish p [] with
  | error tried' =>
    rw [hm] at h
    have hnil := List.head?_eq_none_iff.1 (Option.map_eq_none_iff.1 h.symm)
    exact ⟨fun hne => absurd hnil hne, fun _ => rfl⟩
  | ok q =>
    rw [hm] at h
    obtain ⟨s, hs, hview⟩ := Option.map_eq_some_iff.1 h.symm
    obtain ⟨rfl, -⟩ := Prod.mk.inj hview
    have hturn := (Expr.mem_ends_turn hr ho hp.productive).1 (List.mem_of_mem_head? hs)
    refine ⟨fun _ => ?_, fun hne => absurd (List.ne_nil_of_mem (List.mem_of_mem_head? hs)) hne⟩
    let inside (c : Cursor) : Bool := c.position ≤ p.cursor.position
    let p' : Path := (p.forget e.groups).moveTo q.cursor
    have hsound := sweep_alone (d := .ahead) hr ho hp.productive h0 (fun _ _ _ => (finish_sound _ _).check inside)
      (Outcome.finish_blind.after _) p'
    have hrec : p'.record = p.record := record_forget h0 p
    let m : Walk := fun k => e.sweep .ahead [] false (Walk.check (fun r => inside r.cursor) k)
    change ∃ x, ((Walk.once m k p' tried).toOption.map Path.view) = _
    unfold Walk.once
    cases hm' : e.sweep .ahead [] false (Walk.check (fun r => inside r.cursor) Walk.finish) p' [] with
    | error tried' =>
      rw [hm'] at hsound
      have hnone := List.findSome?_eq_none_iff.1 hsound.symm p.cursor hturn
      simp [Outcome.after, Outcome.finish, inside] at hnone
    | ok r =>
      rw [hm'] at hsound
      obtain ⟨x, -, hx⟩ := List.exists_of_findSome?_eq_some hsound.symm
      obtain ⟨y, -, hy⟩ := List.exists_of_findSome?_eq_some hx
      have hr' : r.record = p.record := by
        rw [← hrec]
        exact (congrArg Prod.snd (Option.some.inj hy)).symm
      have hfound : m Walk.finish p' [] = .ok r := hm'
      exact ⟨r.cursor, by rw [hfound, ← hr']; exact hk r tried⟩

end Swept

/-! ### Looking behind -/

theorem mem_backs_of_mem_ends {e : Expr} {p s : Cursor} (h : p ∈ e.ends .ahead s) : s ∈ p.backs := by
  obtain ⟨n, hn, -⟩ := e.fits_of_mem_ends h
  exact Cursor.mem_backs.2 ⟨n, Cursor.go?_turn.2 hn⟩

theorem any_backs {e : Expr} {p : Cursor} :
    (p.backs.any fun s => p ∈ e.ends .ahead s) = true ↔ ∃ s, p ∈ e.ends .ahead s := by
  simp only [List.any_eq_true, decide_eq_true_eq]
  exact ⟨fun ⟨s, _, h⟩ => ⟨s, h⟩, fun ⟨s, h⟩ => ⟨s, mem_backs_of_mem_ends h, h⟩⟩

/-- Going back by a fixed size and matching ahead. -/
theorem back_tests {e : Expr} {body : Plan} (hfix : e.size.fixed = true) (hbody : Realizes True body.walk (e.ends .ahead)) :
    Tests (Plan.seq (.back e.size.least) body).walk fun p => ∃ s, p ∈ e.ends .ahead s := by
  intro k K hk hu p tried
  have hmem : ∀ s x, x ∈ e.ends .ahead s → x.back? e.size.least = some s := by
    intro s x hx
    obtain ⟨n, hn, -, hf⟩ := e.fits_of_mem_ends hx
    rw [Cursor.back?_eq_go?, ← hf hfix]
    exact Cursor.go?_turn.2 hn
  simp only [Plan.walk]
  cases hb : p.cursor.back? e.size.least with
  | none =>
    refine ⟨?_, fun _ => rfl⟩
    rintro ⟨s, hs⟩
    rw [hmem s _ hs] at hb
    contradiction
  | some q =>
    have h := hbody.tests hk hu (p.moveTo q) tried
    refine ⟨?_, fun hn => h.2 ?_⟩
    · rintro ⟨s, hs⟩
      obtain rfl : q = s := Option.some.inj (hb.symm.trans (hmem s _ hs))
      exact h.1 (List.ne_nil_of_mem hs)
    · intro hne
      obtain ⟨x, hx⟩ := List.exists_mem_of_ne_nil _ hne
      refine hn ⟨q, ?_⟩
      have hback := hmem q x hx
      rw [Cursor.back?_eq_go?, Cursor.go?_turn] at hback hb
      exact Option.some.inj (hback.symm.trans hb) ▸ hx

theorem Tests.congr {m : Walk} {test test' : Cursor → Prop} (h : Tests m test) (he : ∀ p, test p ↔ test' p) :
    Tests m test' := by
  obtain rfl : test = test' := funext fun p => propext (he p)
  exact h

/-- A look behind for an expression of a kind that can be looked for as a whole. -/
theorem planBehind_realizes {referenced : List Nat} {negated : Bool} {e : Expr} {body : Except SyntaxError Plan}
    {P : Plan} {total : Prop} (h : e.planBehind referenced negated body = .ok P) (hp : e.Plain)
    (hbody : ∀ Q, body = .ok Q → Realizes True Q.walk (e.ends .ahead)) :
    Realizes total P.walk ((Expr.look .behind negated e).ends .ahead) := by
  have key : ∀ {Q : Plan}, Tests Q.walk (fun p => ∃ s, p ∈ e.ends .ahead s) →
      Realizes total (Plan.look negated Q).walk ((Expr.look .behind negated e).ends .ahead) := by
    intro Q hQ
    have hlook : Realizes total (Plan.look negated Q).walk _ := (hQ.congr fun p => any_backs.symm).look negated
    simp only [Bool.decide_eq_true] at hlook
    exact hlook
  unfold Expr.planBehind at h
  split_ifs at h with hfix hreg
  · cases body with
    | error err => simp [bind, Except.bind] at h
    | ok Q =>
      simp only [bind, Except.bind, pure, Except.pure, Except.ok.injEq] at h
      subst h
      exact key (back_tests hfix (hbody Q rfl))
  · simp only [Expr.checkSweep, bind, Except.bind] at h
    cases hc : e.checkCounts with
    | error err => simp [hc] at h
    | ok u =>
      simp only [hc] at h
      split_ifs at h
      simp only [pure, Except.pure, Except.ok.injEq] at h
      subst h
      have ho := Expr.ordered_of_checkCounts hc
      have hreg := Expr.sweepable_of_isRegular hreg
      refine key ((backAlong_tests hreg ho hp).congr fun p => ?_)
      simp only [ne_eq, List.eq_nil_iff_forall_not_mem, not_forall, not_not,
        Expr.mem_ends_turn hreg ho hp.productive]

/-! ### All plans -/

namespace Expr

/-- Every plan for an expression finds its preferred match. -/
def Planned (e : Expr) : Prop :=
  ∀ ⦃referenced stepwise leading P⦄, e.plan referenced stepwise leading = .ok P →
    Realizes (stepwise = false) P.walk (e.ends .ahead)

def BranchesPlanned (e : Expr) : Prop :=
  ∀ ⦃referenced negated P⦄ ⦃total : Prop⦄, e.planBranches referenced negated = .ok P →
    Realizes total P.walk ((look .behind negated e).ends .ahead)

theorem planned_of_swept {referenced : List Nat} {stepwise leading : Bool} {e : Expr} {P : Plan} (hp : e.Plain)
    (hs : e.isSwept referenced stepwise leading) (h : e.swept = .ok P) :
    Realizes (stepwise = false) P.walk (e.ends .ahead) := by
  obtain ⟨ho, rfl⟩ := ordered_of_swept h
  simp only [isSwept, Bool.and_eq_true] at hs
  refine realizes_sweep (sweepable_of_isRegular hs.1) ho hp ?_
  have h2 := hs.2
  split at h2
  · rw [Bool.or_eq_true] at h2
    exact h2.imp_left (by simp)
  · exact .inl (by simpa using (Bool.and_eq_true_iff.1 h2).1)
  · exact .inl (by simpa using h2)

/-- An expression is planned for if what is planned where it is not swept as a whole is right. -/
theorem planned_of_steps {e : Expr} {steps : List Nat → Bool → Bool → Except SyntaxError Plan} (hp : e.Plain)
    (heq : ∀ referenced stepwise leading, e.plan referenced stepwise leading =
      if e.isSwept referenced stepwise leading then e.swept else steps referenced stepwise leading)
    (h : ∀ referenced stepwise leading P, steps referenced stepwise leading = .ok P →
      Realizes (stepwise = false) P.walk (e.ends .ahead)) : e.Planned := by
  intro referenced stepwise leading P hplan
  rw [heq] at hplan
  split_ifs at hplan with hs
  · exact planned_of_swept hp hs hplan
  · exact h referenced stepwise leading P hplan

theorem ends_look_fail (negated : Bool) (p : Cursor) :
    (look .behind negated fail).ends .ahead p = if negated then [p] else [] := by
  have h : (p.backs.any fun s => decide (p ∈ fail.ends .ahead s)) = false := by simp [ends]
  change (if ((p.backs.any fun s => decide (p ∈ fail.ends .ahead s)) != negated) = true then [p] else []) = _
  rw [h]
  cases negated <;> rfl

theorem ends_look_alt (first rest : Expr) (negated : Bool) (p : Cursor) :
    (look .behind negated (alt first rest)).ends .ahead p =
      if ((p.backs.any fun s => decide (p ∈ first.ends .ahead s)) ||
        (p.backs.any fun s => decide (p ∈ rest.ends .ahead s))) != negated then [p] else [] := by
  have h : (p.backs.any fun s => decide (p ∈ (alt first rest).ends .ahead s)) =
      ((p.backs.any fun s => decide (p ∈ first.ends .ahead s)) ||
        (p.backs.any fun s => decide (p ∈ rest.ends .ahead s))) := by
    rw [Bool.eq_iff_iff, Bool.or_eq_true, any_backs, any_backs, any_backs, ← exists_or]
    simp only [ends, List.mem_append]
  change (if ((p.backs.any fun s => decide (p ∈ (alt first rest).ends .ahead s)) != negated) = true then [p] else []) = _
  rw [h]

theorem branchesPlanned_fail : BranchesPlanned fail := by
  intro referenced negated P total h
  obtain rfl := Except.ok.inj h
  have hends : (look .behind negated fail).ends .ahead = (if negated then empty else fail).ends .ahead := by
    funext p
    rw [ends_look_fail]
    cases negated <;> rfl
  rw [hends]
  cases negated <;> exact realizes_sweep trivial trivial trivial (.inr rfl)

theorem branchesPlanned_alt {first rest : Expr} (hp : first.Plain) (ih : first.Planned) (ih' : rest.BranchesPlanned) :
    BranchesPlanned (alt first rest) := by
  intro referenced negated P total h
  obtain ⟨one, hone, h⟩ := bind_eq_ok h
  obtain ⟨others, hothers, h⟩ := bind_eq_ok h
  obtain rfl := Except.ok.inj h
  have hfirst : ∀ total : Prop, Realizes total one.walk ((look .behind negated first).ends .ahead) :=
    fun total => planBehind_realizes hone hp fun Q hQ => (ih hQ).mono fun _ => trivial
  have hrest : Realizes total others.walk ((look .behind negated rest).ends .ahead) := ih' hothers
  have hlook : ∀ e p, (look .behind negated e).ends .ahead p =
      if (p.backs.any fun s => decide (p ∈ e.ends .ahead s)) != negated then [p] else [] := fun _ _ => rfl
  cases negated with
  | false =>
    refine ((hfirst total).orElse hrest).congr fun K p z => ?_
    rw [Outcome.after, Outcome.after, ends_look_alt, hlook, hlook]
    cases p.backs.any fun s => decide (p ∈ first.ends .ahead s) with
    | true => cases p.backs.any fun s => decide (p ∈ rest.ends .ahead s) <;> cases hK : K p z <;> simp [hK]
    | false => simp
  | true =>
    refine ((hfirst False).seq hrest).congr fun K p z => ?_
    rw [Outcome.after, Outcome.after, ends_look_alt, hlook]
    cases p.backs.any fun s => decide (p ∈ first.ends .ahead s) with
    | true => simp
    | false => simp [hlook]

theorem planned_seq {first rest : Expr} (hp : (seq first rest).Plain) (ih : first.Planned) (ih' : rest.Planned) :
    Planned (seq first rest) := by
  refine planned_of_steps hp (fun _ _ _ => rfl) fun referenced stepwise leading P h => ?_
  split_ifs at h with hl
  · obtain ⟨one, hone, h⟩ := bind_eq_ok h
    obtain ⟨two, htwo, h⟩ := bind_eq_ok h
    obtain rfl := Except.ok.inj h
    simp only [Bool.and_eq_true] at hl
    obtain ⟨ho, rfl⟩ := ordered_of_swept hone
    exact (realizes_sweep (sweepable_of_isRegular hl.1.2) ho hp.1 (.inr hl.2)).seq (ih' htwo)
  · obtain ⟨one, hone, h⟩ := bind_eq_ok h
    obtain ⟨two, htwo, h⟩ := bind_eq_ok h
    obtain rfl := Except.ok.inj h
    exact ((ih hone).mono (by simp)).seq (ih' htwo)

theorem planned_alt {first rest : Expr} (hp : (alt first rest).Plain) (ih : first.Planned) (ih' : rest.Planned) :
    Planned (alt first rest) := by
  refine planned_of_steps hp (fun _ _ _ => rfl) fun referenced stepwise leading P h => ?_
  obtain ⟨one, hone, h⟩ := bind_eq_ok h
  obtain ⟨two, htwo, h⟩ := bind_eq_ok h
  obtain rfl := Except.ok.inj h
  exact (ih hone).orElse (ih' htwo)

theorem planned_rounds {low : Nat} {high : Option Nat} {greedy : Bool} {body : Expr}
    (hp : (rounds low high greedy body).Plain) (ih : body.Planned) : Planned (rounds low high greedy body) := by
  refine planned_of_steps hp (fun _ _ _ => rfl) fun referenced stepwise leading P h => ?_
  obtain ⟨one, hone, h⟩ := bind_eq_ok h
  obtain rfl := Except.ok.inj h
  have hbody := ih hone
  by_cases honce : low = 0 ∧ high = some 1
  · obtain ⟨rfl, rfl⟩ := honce
    simp only [true_and, decide_true, Bool.not_true, Bool.or_false] at hbody
    have he : (rounds 0 (some 1) greedy body).ends .ahead = fun p => Rounds.prefer greedy (body.ends .ahead p) [p] := by
      funext p
      simp [ends, Rounds.times, Rounds.upTo]
    rw [he]
    exact hbody.maybe greedy
  · have hstep : Realizes False one.walk (body.ends .ahead) := hbody.mono (by simp [honce])
    cases high with
    | some high =>
      exact ((hstep.times (min low high) (i := 0)).seq (hstep.upTo greedy (high - low) (i := 0))).mono False.elim
    | none =>
      have hspin : Realizes False (fun k p => Walk.spin greedy one.walk (p.cursor.room .ahead + 2) k p)
          fun q => Rounds.spin (body.ends .ahead) greedy (q.room .ahead + 2) q :=
        fun k K hk hu p tried => hstep.spin greedy (p.cursor.room .ahead + 2) hk hu p tried
      exact ((hstep.times low (i := 0)).seq hspin).mono False.elim

theorem planned_capture {group : Nat} {body : Expr} (hp : (capture group body).Plain) (ih : body.Planned) :
    Planned (capture group body) := by
  refine planned_of_steps hp (fun _ _ _ => rfl) fun referenced stepwise leading P h => ?_
  obtain ⟨one, hone, h⟩ := bind_eq_ok h
  obtain rfl := Except.ok.inj h
  exact realizes_capture hp.1 (ih hone)

theorem planned_atomic {body : Expr} (hp : (atomic body).Plain) (ih : body.Planned) : Planned (atomic body) := by
  refine planned_of_steps hp (fun _ _ _ => rfl) fun referenced stepwise leading P h => ?_
  obtain ⟨one, hone, h⟩ := bind_eq_ok h
  obtain rfl := Except.ok.inj h
  exact (realizes_once ((ih hone).mono fun _ => trivial)).mono False.elim

theorem planned_look {direction : Direction} {negated : Bool} {body : Expr} (hp : (look direction negated body).Plain)
    (ih : body.Planned) (ih' : (body = fail ∨ ∃ a b, body = alt a b) → body.BranchesPlanned) :
    Planned (look direction negated body) := by
  cases direction with
  | ahead =>
    refine planned_of_steps hp (fun _ _ _ => rfl) fun referenced stepwise leading P h => ?_
    obtain ⟨one, hone, h⟩ := bind_eq_ok h
    obtain rfl := Except.ok.inj h
    refine (((ih hone).mono fun _ => trivial).tests.look negated).congr fun K p z => ?_
    have hbool : decide (body.ends .ahead p ≠ []) = !(body.ends .ahead p).isEmpty := by
      cases body.ends .ahead p <;> simp
    simp only [Outcome.after, ends, hbool]
    cases (body.ends .ahead p).isEmpty <;> cases negated <;> rfl
  | behind =>
    -- the plan depends on whether the body is a choice, so that `planned_of_steps` would need cases on it
    intro referenced stepwise leading P h
    unfold plan at h
    simp only [isSwept, isRegular, Bool.false_and, Bool.false_eq_true, if_false] at h
    split_ifs at h with hfix
    · exact planBehind_realizes h hp fun Q hQ => (ih hQ).mono fun _ => trivial
    · split at h
      · exact ih' (.inr ⟨_, _, rfl⟩) h
      · exact planBehind_realizes h hp fun Q hQ => by simp at hQ

/-- All plans for an expression find its preferred match. -/
theorem planned_and_branchesPlanned {e : Expr} (hp : e.Plain) :
    e.Planned ∧ (e = fail ∨ (∃ a b, e = alt a b) → e.BranchesPlanned) := by
  induction e with
  | empty | fail | char | set | anyChar | anchor =>
    refine ⟨planned_of_steps hp (fun _ _ _ => rfl) fun referenced stepwise leading P h => ?_,
      by simp [branchesPlanned_fail]⟩
    obtain ⟨ho, rfl⟩ := ordered_of_swept h
    exact realizes_sweep trivial ho hp (.inr rfl)
  | seq first rest ih ih' => exact ⟨planned_seq hp (ih hp.1).1 (ih' hp.2).1, by simp⟩
  | alt first rest ih ih' =>
    exact ⟨planned_alt hp (ih hp.1).1 (ih' hp.2.1).1,
      fun _ => branchesPlanned_alt hp.1 (ih hp.1).1 ((ih' hp.2.1).2 hp.2.2)⟩
  | rounds low high greedy body ih => exact ⟨planned_rounds hp (ih hp.2).1, by simp⟩
  | capture group body ih => exact ⟨planned_capture hp (ih hp.2).1, by simp⟩
  | atomic body ih => exact ⟨planned_atomic hp (ih hp).1, by simp⟩
  | look direction negated body ih => exact ⟨planned_look hp (ih hp).1 (ih hp).2, by simp⟩
  | backref => exact hp.elim

end Expr

end WordPattern.Regex
