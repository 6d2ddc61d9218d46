import WordPattern.Proofs.Matching.Plan
import WordPattern.Regex.Search

/-! The matches of a compiled expression in a text.

A match starts where it is looked for and stops at the preferred end of the expression, also where a look at the end of
the expression is taken out and matched as what follows group 0. -/

namespace WordPattern.Regex

def Match.span (m : Match) : Cursor × Cursor := (m.start, m.stop)

namespace Expr

theorem ends_look_ahead (body : Expr) (p : Cursor) :
    (look .ahead false body).ends .ahead p = if body.ends .ahead p = [] then [] else [p] := by
  simp only [ends]
  cases body.ends .ahead p <;> simp

theorem finalLook?_ends {e front body : Expr} (h : e.finalLook? = some (front, body)) (p : Cursor) :
    e.ends .ahead p = (front.ends .ahead p).flatMap fun q => if body.ends .ahead q = [] then [] else [q] := by
  induction e generalizing front p with
  | seq first rest ih ih' =>
    unfold finalLook? at h
    split at h
    · rename_i look he
      obtain ⟨rfl, rfl⟩ := Expr.seq.inj he
      obtain ⟨rfl, rfl⟩ := Prod.mk.inj (Option.some.inj h)
      simp only [ends, List.flatMap_singleton', List.flatMap_singleton]
      exact ends_look_ahead look p
    · rename_i hne he
      obtain ⟨rfl, rfl⟩ := Expr.seq.inj he
      obtain ⟨⟨front', body'⟩, hrest, hfront⟩ := Option.map_eq_some_iff.1 h
      obtain ⟨rfl, rfl⟩ := Prod.mk.inj hfront
      simp only [ends, List.flatMap_assoc]
      exact List.flatMap_congr fun q _ => ih' hrest q
    · contradiction
  | _ => simp [finalLook?] at h

theorem finalLook?_plain {e front body : Expr} (h : e.finalLook? = some (front, body)) (hp : e.Plain) :
    front.Plain ∧ body.Plain := by
  induction e generalizing front with
  | seq first rest ih ih' =>
    unfold finalLook? at h
    split at h
    · rename_i he
      obtain ⟨rfl, rfl⟩ := Expr.seq.inj he
      obtain ⟨rfl, rfl⟩ := Prod.mk.inj (Option.some.inj h)
      exact ⟨trivial, hp.1⟩
    · rename_i hne he
      obtain ⟨rfl, rfl⟩ := Expr.seq.inj he
      obtain ⟨⟨front', body'⟩, hrest, hfront⟩ := Option.map_eq_some_iff.1 h
      obtain ⟨rfl, rfl⟩ := Prod.mk.inj hfront
      exact ⟨⟨hp.1, (ih' hrest hp.2).1⟩, (ih' hrest hp.2).2⟩
    · contradiction
  | _ => simp [finalLook?] at h

end Expr

/-! ### Group 0 -/

section GroupZero

variable {e : Expr} {k : Continuation} {K : Outcome}

theorem forget_start (groups : List Nat) (p : Cursor) : (Path.start p).forget groups = .start p := by
  unfold Path.forget
  split_ifs <;> rfl

/-- Going on after group 0, which has matched from a place on. -/
def Outcome.afterZero (K : Outcome) (ends : Cursor → List Cursor) (p : Cursor) : Option View :=
  (ends p).findSome? fun q => K q (some p, some q)

theorem captureZero_walk {m : Walk} {ends : Cursor → List Cursor} (hm : Realizes False m ends) (hk : Follows k K)
    (p : Path) (tried : Tried) :
    (m (fun q => k (q.stopGroup 0)) (p.startGroup 0) tried).toOption.map Path.view = K.afterZero ends p.cursor := by
  have hstop : Follows (fun q => k (q.stopGroup 0)) fun q z => K q (z.1, some q) := fun q tried => hk (q.stopGroup 0) tried
  exact hm hstop False.elim (p.startGroup 0) tried

theorem captureZero_sweep (hr : e.Sweepable) (ho : e.Ordered) (hp : e.Plain) (hfix : e.size.fixed = true)
    (hk : Follows k K) (p : Cursor) (tried : Tried) :
    ((Plan.sweep (.capture 0 e)).walk k (.start p) tried).toOption.map Path.view =
      K.afterZero (e.ends .ahead) p := by
  have h := captureZero_sound (T := p.text) (d := .ahead) (π := []) (R := p.room .ahead + 1)
    (D := fun c => (Expr.capture 0 e).Barren .ahead p.text c [] Outcome.finish.Fails) hr ho hp.productive
    hp.zero_notMem_groups (finish_sound _ fun _ => False) Outcome.finish_blind (fun _ _ h => h) (fun _ _ => Iff.rfl)
    (.start p) [] rfl (Nat.lt_succ_self _) (finish_settled _ _)
  replace h := h.view_eq
  simp only [Plan.walk, Walk.once, forget_start]
  cases hm : (Expr.capture 0 e).sweep .ahead [] false Walk.finish (.start p) [] with
  | error tried' =>
    rw [hm] at h
    have hnil : e.ends .ahead p = [] := by
      rw [List.eq_nil_iff_forall_not_mem]
      intro q hq
      have := List.findSome?_eq_none_iff.1 h.symm q hq
      simp [Outcome.finish] at this
    simp [Outcome.afterZero, hnil, Except.toOption]
  | ok r =>
    rw [hm] at h
    obtain ⟨q, hq, hview⟩ := List.exists_of_findSome?_eq_some h.symm
    obtain ⟨hcur, hrec⟩ := Prod.mk.inj (Option.some.inj hview)
    have hout := hk r tried
    rw [← hcur, ← hrec] at hout
    exact hout.trans (Outcome.findSome?_of_same (fun q => K q (some p, some q)) hq fun x hx =>
      Expr.eq_of_fixed hfix hx hq).symm

/-- The sweep of group 0 and of what follows it. -/
theorem captureZero_sweep_seq {rest : Expr} (hs : (Expr.seq (.capture 0 e) rest).Sweepable)
    (ho : (Expr.seq (.capture 0 e) rest).Ordered) (hp : e.Plain) (hp' : rest.Plain) (p : Cursor) (tried : Tried) :
    ((Plan.sweep (.seq (.capture 0 e) rest)).walk Walk.finish (.start p) tried).toOption.map Path.view =
      (Outcome.finish.after (rest.ends .ahead)).afterZero (e.ends .ahead) p := by
  let D (c : Choice) : Prop := (Expr.seq (.capture 0 e) rest).Barren .ahead p.text c [] Outcome.finish.Fails
  have hne : ∀ {c : Choice} {P : Prop}, [0] <:+ c.place → [1] <:+ c.place → P :=
    fun h0 h1 => absurd (suffix_unique h0 h1) (by simp)
  have hD : Coherent p.text .ahead D (.seq (.capture 0 e) rest) [] .finish := fun _ _ => Iff.rfl
  have hrest := sweep_sweeps (d := .ahead) hs.2 ho.2 hp'.productive hp'.zero_notMem_groups [1] false
    (finish_sound (p.room .ahead + 1) fun _ => False) Outcome.finish_blind (fun _ _ h => h)
    (hD.of_below fun c hc => ⟨fun h => h.2 hc, fun h => ⟨fun h0 => hne h0 hc, fun _ => h⟩⟩)
  have hfirst := captureZero_sound (e := e) (π := [0]) hs.1 ho.1 hp.productive hp.zero_notMem_groups hrest
    (Outcome.finish_blind.after _) ?_ ?_
  · replace hfirst := (hfirst (.start p) [] rfl (by simp only [Path.start]; omega) (finish_settled _ _)).view_eq
    change _ = (Outcome.finish.after (rest.ends .ahead)).afterZero (e.ends .ahead) p at hfirst
    rw [← hfirst]
    simp only [Plan.walk, Walk.once, forget_start, Expr.sweep]
    split <;> rename_i heq <;> rw [heq] <;> rfl
  · rintro c hl (h | ⟨-, h⟩)
    · exact hne (suffix_of_cons (Expr.suffix_of_late hl)) (Expr.suffix_of_early h)
    · exact h
  · refine hD.of_below fun c hc => ?_
    rw [Outcome.fails_after]
    exact ⟨fun h => h.1 hc, fun h => ⟨fun _ => h, fun h1 => hne hc h1⟩⟩

end GroupZero

/-! ### Whole expressions -/

namespace Expr

theorem sequence_pair (a b : Expr) : sequence [a, b] = seq a (seq b empty) := rfl

/-- A plan for a whole expression with a look at its end: what is matched is where group 0 stops. -/
theorem plan_captureZero {front body : Expr} (hf : front.Plain) (hb : body.Plain) {referenced : List Nat} {P : Plan}
    (h : (sequence [capture 0 front, body]).plan referenced false true = .ok P) (p : Cursor) :
    (P.walk Walk.finish (.start p) []).toOption.map Path.view =
      (Outcome.finish.after (body.ends .ahead)).afterZero (front.ends .ahead) p := by
  have hrest : (seq body empty).Plain := ⟨hb, trivial⟩
  have hbody : (seq body empty).ends .ahead = body.ends .ahead := by
    funext q
    simp [ends]
  rw [sequence_pair] at h
  rw [← hbody]
  have hfollows : ∀ {Q : Plan} {stepwise : Bool}, (seq body empty).plan referenced stepwise true = .ok Q →
      stepwise = false → Follows (Q.walk Walk.finish) (Outcome.finish.after ((seq body empty).ends .ahead)) := by
    intro Q stepwise hQ _
    exact (planned_and_branchesPlanned hrest).1 hQ follows_finish fun _ => Outcome.finish_uniform
  unfold plan at h
  split_ifs at h with hs
  · obtain ⟨ho, rfl⟩ := ordered_of_swept h
    simp only [isSwept, Bool.and_eq_true] at hs
    exact captureZero_sweep_seq (sweepable_of_isRegular hs.1) ho hf hrest p []
  · simp only at h
    split_ifs at h with hl
    · obtain ⟨one, hone, h⟩ := bind_eq_ok h
      obtain ⟨two, htwo, h⟩ := bind_eq_ok h
      obtain rfl := Except.ok.inj h
      simp only [Bool.and_eq_true] at hl
      obtain ⟨ho, rfl⟩ := ordered_of_swept hone
      exact captureZero_sweep (e := front) (sweepable_of_isRegular (e := capture 0 front) hl.1.2) ho hf hl.2
        ((planned_and_branchesPlanned hrest).1 htwo follows_finish fun _ => Outcome.finish_uniform) p []
    · obtain ⟨one, hone, h⟩ := bind_eq_ok h
      obtain ⟨two, htwo, h⟩ := bind_eq_ok h
      obtain rfl := Except.ok.inj h
      unfold plan at hone
      simp only [isSwept, Bool.not_true, Bool.and_false, Bool.false_eq_true, if_false] at hone
      obtain ⟨inner, hinner, hone⟩ := bind_eq_ok hone
      obtain rfl := Except.ok.inj hone
      have hwalk : Realizes False inner.walk _ := ((planned_and_branchesPlanned hf).1 hinner).mono (by simp)
      exact captureZero_walk hwalk
        ((planned_and_branchesPlanned hrest).1 htwo follows_finish fun _ => Outcome.finish_uniform) (.start p) []

end Expr

theorem span_of_view {p q : Cursor} {path : Path} (h : path.view = (q, (none, none))) :
    Match.span ⟨p, path⟩ = (p, q) := by
  obtain ⟨rfl, hrec⟩ := Prod.mk.inj h
  obtain ⟨hs, hp⟩ := Prod.mk.inj hrec
  simp [Match.span, Match.stop, Match.capture?, Path.capture?, hs]

theorem span_of_view_zero {p q r : Cursor} {path : Path} (h : path.view = (r, (some p, some q))) :
    Match.span ⟨p, path⟩ = (p, q) := by
  obtain ⟨rfl, hrec⟩ := Prod.mk.inj h
  obtain ⟨hs, hp⟩ := Prod.mk.inj hrec
  simp [Match.span, Match.stop, Match.capture?, Path.capture?, hs, hp]

/-- The preferred way through group 0 and what follows it stops group 0 at the first place from which it can go on. -/
theorem afterZero_finish {front body : Cursor → List Cursor} {p : Cursor} {out : Option View}
    (h : (Outcome.finish.after body).afterZero front p = out) :
    ∃ last : Option Cursor, (front p).findSome? (fun q => if body q = [] then none else some q) = last ∧
      match last with
      | none => out = none
      | some q => ∃ r, out = some (r, (some p, some q)) := by
  subst h
  refine ⟨_, rfl, ?_⟩
  unfold Outcome.afterZero
  induction front p with
  | nil => rfl
  | cons q rest ih =>
    rw [List.findSome?_cons, List.findSome?_cons, Outcome.finish_after]
    cases hb : body q with
    | nil => exact ih
    | cons r more => exact ⟨r, rfl⟩

/-- A match stops at the preferred end of the expression. -/
theorem span_matchAt? {e : Expr} (hp : e.Plain) {P : Plan} (h : e.planWhole = .ok P) (p : Cursor) :
    (matchAt? P p).map Match.span = (e.ends .ahead p).head?.map (p, ·) := by
  have hmatch : (matchAt? P p).map Match.span =
      (P.walk Walk.finish (.start p) []).toOption.map fun q => Match.span ⟨p, q⟩ := by
    unfold matchAt?
    cases P.walk Walk.finish (.start p) [] <;> rfl
  rw [hmatch]
  unfold Expr.planWhole at h
  split at h
  · rename_i front body hlook
    obtain ⟨hf, hb⟩ := Expr.finalLook?_plain hlook hp
    obtain ⟨last, hlast, hview⟩ := afterZero_finish (Expr.plan_captureZero hf hb h p).symm
    have hhead : (e.ends .ahead p).head? = last := by
      rw [Expr.finalLook?_ends hlook, List.head?_flatMap, ← hlast]
      congr 1
      funext q
      split_ifs <;> rfl
    rw [hhead]
    cases last with
    | none => rw [Option.map_eq_none_iff.1 hview]; rfl
    | some q =>
      obtain ⟨r, hr⟩ := hview
      obtain ⟨path, hpath, hv⟩ := Option.map_eq_some_iff.1 hr
      rw [hpath, Option.map_some, Option.map_some, span_of_view_zero hv]
  · have hview := (Expr.planned_and_branchesPlanned hp).1 h follows_finish (fun _ => Outcome.finish_uniform) (.start p) []
    rw [Outcome.finish_after] at hview
    change _ = (e.ends .ahead p).head?.map (·, ((none, none) : Record)) at hview
    cases hhead : (e.ends .ahead p).head? with
    | none =>
      rw [hhead, Option.map_none] at hview
      rw [Option.map_eq_none_iff.1 hview]
      rfl
    | some q =>
      rw [hhead] at hview
      obtain ⟨path, hpath, hv⟩ := Option.map_eq_some_iff.1 hview
      rw [hpath, Option.map_some, Option.map_some, span_of_view hv]

/-! ### Searching a text -/

section Search

variable {P Q : Plan}

/-- Plans whose matches have the same spans find matches with the same spans one after the other. -/
theorem spans_matchesFrom (h : ∀ p, (matchAt? P p).map Match.span = (matchAt? Q p).map Match.span)
    (before after : Text) (inside : Nat) (touching : Bool) :
    (matchesFrom P before after inside touching).map Match.span =
      (matchesFrom Q before after inside touching).map Match.span := by
  have hempty : ∀ {m n : Match}, m.span = n.span → m.isEmpty = n.isEmpty := by
    intro m n hmn
    obtain ⟨h1, h2⟩ := Prod.mk.inj hmn
    simp only [Match.isEmpty, h1, h2]
  have htext : ∀ {m n : Match}, m.span = n.span → m.text = n.text := by
    intro m n hmn
    obtain ⟨h1, h2⟩ := Prod.mk.inj hmn
    simp only [Match.text, h1, h2]
  induction after generalizing before inside touching with
  | nil =>
    cases inside with
    | succ n => rfl
    | zero =>
      have hp := h ⟨before, []⟩
      simp only [matchesFrom]
      cases hP : matchAt? P ⟨before, []⟩ with
      | none =>
        rw [hP, Option.map_none, eq_comm, Option.map_eq_none_iff] at hp
        rw [hp]
      | some m =>
        rw [hP, Option.map_some] at hp
        obtain ⟨n, hn, hmn⟩ := Option.map_eq_some_iff.1 hp.symm
        rw [hn, Option.filter_some, Option.filter_some, hempty hmn]
        split_ifs
        · simp [hmn]
        · rfl
  | cons c after ih =>
    cases inside with
    | succ n => exact ih (c :: before) n touching
    | zero =>
      have hp := h ⟨before, c :: after⟩
      simp only [matchesFrom]
      cases hP : matchAt? P ⟨before, c :: after⟩ with
      | none =>
        rw [hP, Option.map_none, eq_comm, Option.map_eq_none_iff] at hp
        rw [hp]
        exact ih (c :: before) 0 false
      | some m =>
        rw [hP, Option.map_some] at hp
        obtain ⟨n, hn, hmn⟩ := Option.map_eq_some_iff.1 hp.symm
        rw [hn]
        simp only [hempty hmn, htext hmn]
        split_ifs
        · exact ih (c :: before) 0 false
        · simp only [List.map_cons, hmn, ih (c :: before) 0 false]
        · simp only [List.map_cons, hmn, ih (c :: before) (m.text.length - 1) true]

/-- The leftmost match from a place on: at all places before it there is none. -/
theorem findFrom?_eq_some {before after : Text} {m : Match} (h : findFrom? P before after = some m) :
    ∃ taken rest, after = taken ++ rest ∧ matchAt? P ⟨taken.reverse ++ before, rest⟩ = some m ∧
      ∀ taken' rest', after = taken' ++ rest' → taken'.length < taken.length →
        matchAt? P ⟨taken'.reverse ++ before, rest'⟩ = none := by
  induction after generalizing before with
  | nil => exact ⟨[], [], rfl, h, fun _ _ _ hlt => absurd hlt (Nat.not_lt_zero _)⟩
  | cons c after ih =>
    rw [findFrom?] at h
    split at h
    · rename_i n hn
      exact ⟨[], c :: after, rfl, hn.trans h, fun _ _ _ hlt => absurd hlt (Nat.not_lt_zero _)⟩
    · rename_i hnone
      obtain ⟨taken, rest, rfl, hm, hfirst⟩ := ih h
      refine ⟨c :: taken, rest, rfl, by simpa using hm, ?_⟩
      intro taken' rest' heq hlt
      cases taken' with
      | nil =>
        obtain rfl : c :: (taken ++ rest) = rest' := heq
        exact hnone
      | cons c' taken' =>
        obtain ⟨rfl, htail⟩ := List.cons.inj heq
        simpa using hfirst taken' rest' htail (by simpa using hlt)

theorem findFrom?_eq_none {before after : Text} (h : findFrom? P before after = none) (taken rest : Text)
    (heq : after = taken ++ rest) : matchAt? P ⟨taken.reverse ++ before, rest⟩ = none := by
  induction after generalizing before taken with
  | nil =>
    obtain ⟨rfl, rfl⟩ := List.append_eq_nil_iff.1 heq.symm
    exact h
  | cons c after ih =>
    rw [findFrom?] at h
    split at h
    · contradiction
    · rename_i hnone
      cases taken with
      | nil =>
        obtain rfl : c :: after = rest := heq
        exact hnone
      | cons c' taken =>
        obtain ⟨rfl, htail⟩ := List.cons.inj heq
        simpa using ih h taken htail

/-- A text has a match if there is one at some place in it. -/
theorem isMatch_iff {r : WordPattern.Regex} {t : Text} :
    r.isMatch t = true ↔ ∃ p : Cursor, p.text = t ∧ (matchAt? r.plan p).isSome = true := by
  unfold Regex.isMatch Regex.find?
  constructor
  · intro h
    obtain ⟨m, hm⟩ := Option.isSome_iff_exists.1 h
    obtain ⟨taken, rest, rfl, hm, -⟩ := findFrom?_eq_some hm
    exact ⟨⟨taken.reverse ++ [], rest⟩, by simp [Cursor.text], by rw [hm]; rfl⟩
  · rintro ⟨p, rfl, hp⟩
    by_contra hnone
    rw [Option.not_isSome_iff_eq_none] at hnone
    have := findFrom?_eq_none hnone p.before.reverse p.after rfl
    rw [List.reverse_reverse, List.append_nil] at this
    rw [this] at hp
    contradiction

end Search

end WordPattern.Regex
