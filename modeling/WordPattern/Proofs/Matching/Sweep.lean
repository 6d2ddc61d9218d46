import WordPattern.Proofs.Matching.Sound

/-! Sweeps find the preferred match.

Every part of an expression hands on what it was given: if the continuation is sound, so is the sweep of the part before
it. Loops need their rounds to take characters, for then no choice that is still open is met again. -/

namespace WordPattern.Regex

section Sound

variable {T : Text} {d : Direction} {D : Choice → Prop}

/-! ### Rounds -/

/-- What is settled about the choices within an expression is whether they lead nowhere. -/
def Coherent (T : Text) (d : Direction) (D : Choice → Prop) (e : Expr) (π : List Nat) (K : Outcome) : Prop :=
  ∀ c, π <:+ c.place → (D c ↔ e.Barren d T c π K.Fails)

/-- A walk sweeps an expression at a place, whatever follows. -/
def Sweeps (T : Text) (d : Direction) (D : Choice → Prop) (e : Expr) (π : List Nat) (m : Walk) : Prop :=
  ∀ ⦃R : Nat⦄ ⦃A : Choice → Prop⦄ ⦃k : Continuation⦄ ⦃K : Outcome⦄, Sound T d D R A k K → K.Blind →
    (∀ c, e.Late d π c → ¬ A c) → Coherent T d D e π K →
    Sound T d D (R + min 1 e.size.least) (fun c => e.Early d π c ∨ (e.Thin ∧ A c)) (m k) (K.after (e.ends d))

theorem Cursor.eq_of_position {p q : Cursor} (ht : p.text = q.text) (h : p.position = q.position) : p = q :=
  Cursor.eq_of_room (d := .behind) ht h

section Rounds

variable {low : Nat} {high : Option Nat} {greedy looping : Bool} {body : Expr} {π : List Nat} {round : Nat → Walk}
variable {R : Nat} {A : Choice → Prop} {k : Continuation} {K : Outcome}

/-- A round is the one that is due, or a later one if rounds need take no character. -/
def Due (body : Expr) (i j : Nat) : Prop := j = i ∨ (body.Thin ∧ i ≤ j)

/-- What can be met before the choice to begin round `i` is left behind. -/
def AtChoice (d : Direction) (body : Expr) (π : List Nat) (A : Choice → Prop) (i : Nat) (c : Choice) : Prop :=
  (c.place = π ∧ Due body i c.round) ∨ (∃ j, Due body i j ∧ body.Early d (j :: π) c) ∨ A c

/-- What can be met at the start of round `i`, which has to be gone through. -/
def AtRound (d : Direction) (body : Expr) (π : List Nat) (A : Choice → Prop) (i : Nat) (c : Choice) : Prop :=
  (∃ j, Due body i j ∧ body.Early d (j :: π) c) ∨ (body.Thin ∧ (c.place = π ∨ A c))

theorem late_not_atChoice (hfresh : ∀ c, (Expr.rounds low high greedy body).Late d π c → ¬ A c) {i : Nat}
    (hi : low ≤ i + 1) (c : Choice) (hl : body.Late d (i :: π) c) : ¬ AtChoice d body π A (i + 1) c := by
  rintro (⟨hp, -⟩ | ⟨j, hj, h⟩ | h)
  · exact not_here_of_below (Expr.suffix_of_late hl) hp
  · have := suffix_unique (Expr.suffix_of_late hl) (Expr.suffix_of_early h)
    obtain h | h := hj <;> omega
  · exact hfresh c (.inr ⟨i, .inl hi, hl⟩) h

theorem late_not_atRound (hfresh : ∀ c, (Expr.rounds low high greedy body).Late d π c → ¬ A c) {i : Nat} (c : Choice)
    (hl : body.Late d (i :: π) c) : ¬ AtRound d body π A (i + 1) c := by
  rintro (⟨j, hj, h⟩ | ⟨ht, h | h⟩)
  · have := suffix_unique (Expr.suffix_of_late hl) (Expr.suffix_of_early h)
    obtain h | h := hj <;> omega
  · exact not_here_of_below (Expr.suffix_of_late hl) h
  · exact hfresh c (.inr ⟨i, .inr ht, hl⟩) h

theorem early_of_atRound {c : Choice} (h : AtRound d body π A 0 c) :
    (Expr.rounds low high greedy body).Early d π c ∨ ((Expr.rounds low high greedy body).Thin ∧ A c) := by
  obtain ⟨j, hj, h⟩ | ⟨ht, h | h⟩ := h
  · exact .inl (.inr ⟨j, hj.imp_right And.left, h⟩)
  · exact .inl (.inl ⟨h, Expr.thin_rounds ht⟩)
  · exact .inr ⟨Expr.thin_rounds ht, h⟩

theorem coherent_choice (h : Coherent T d D (.rounds low high greedy body) π K) {i : Nat} {p : Cursor}
    (hp : p.text = T) :
    D ⟨π, i, p.position⟩ ↔ (K.after (Rounds.from d low high greedy (body.ends d) (max low i))).Fails p := by
  rw [h _ (List.suffix_refl _), Expr.Barren, Outcome.after_fails]
  constructor
  · intro hb
    exact hb.1 rfl p hp rfl
  · intro hf
    refine ⟨fun _ q hq hpos => ?_, fun j hj => absurd hj (not_cons_suffix π j)⟩
    rw [Cursor.eq_of_position (hq.trans hp.symm) hpos]
    exact hf

theorem coherent_body (h : Coherent T d D (.rounds low high greedy body) π K) (i : Nat) :
    Coherent T d D body (i :: π) (K.after (Rounds.from d low high greedy (body.ends d) (i + 1))) := by
  intro c hc
  rw [h c (suffix_of_cons hc), Expr.Barren, Outcome.fails_after]
  constructor
  · intro hb
    exact hb.2 i hc
  · intro hb
    refine ⟨fun he => absurd he (not_here_of_below hc), fun j hj => ?_⟩
    rw [suffix_unique hj hc]
    exact hb

theorem from_of_lt {r : Cursor → List Cursor} {i : Nat} (h : i < low) (p : Cursor) :
    Rounds.from d low high greedy r i p = (r p).flatMap (Rounds.from d low high greedy r (i + 1)) := by
  have hlow : low - i = low - (i + 1) + 1 := by omega
  have hmax : max low i = max low (i + 1) := by omega
  cases high with
  | none =>
    simp only [Rounds.from, hlow, Rounds.times, List.flatMap_assoc]
    rfl
  | some high =>
    simp only [Rounds.from, hlow, hmax, Rounds.times, List.flatMap_assoc]
    rfl

theorem from_some {r : Cursor → List Cursor} {high i : Nat} (h : low ≤ i) (p : Cursor) :
    Rounds.from d low (some high) greedy r i p = Rounds.upTo r greedy (high - i) p := by
  rw [Rounds.from, Nat.sub_eq_zero_of_le h, Nat.max_eq_right h, Rounds.times, List.flatMap_singleton]

theorem from_none {r : Cursor → List Cursor} {i : Nat} (h : low ≤ i) (p : Cursor) :
    Rounds.from d low none greedy r i p = Rounds.spin r greedy (p.room d + 2) p := by
  rw [Rounds.from, Nat.sub_eq_zero_of_le h, Rounds.times, List.flatMap_singleton]

/-- Going round again or leaving, where every round takes characters. -/
theorem from_none_unroll {r : Cursor → List Cursor} (hr : Rounds.Consumes d r) {i : Nat} (h : low ≤ i) (p : Cursor) :
    Rounds.from d low none greedy r i p =
      Rounds.prefer greedy ((r p).flatMap (Rounds.from d low none greedy r low)) [p] := by
  rw [from_none h, Rounds.spin]
  congr 1
  apply List.flatMap_congr
  intro q hq
  have hlt := hr p q hq
  rw [if_neg (by rintro rfl; omega), from_none (Nat.le_refl _), Rounds.spin_fuel hr (n := q.room d + 2) (by omega)
    (by omega)]

theorem ends_eq_from (h : low ≤ high.getD low) (p : Cursor) :
    (Expr.rounds low high greedy body).ends d p = Rounds.from d low high greedy (body.ends d) 0 p := by
  cases high with
  | none => rfl
  | some high =>
    rw [Option.getD_some] at h
    simp only [Expr.ends, Rounds.from, Nat.sub_zero, Nat.min_eq_left h, Nat.max_eq_left (Nat.zero_le low)]

/-- A choice to go round again or not. -/
theorem Sound.choose (looping : Bool) {m : Walk} (hD : Coherent T d D (.rounds low high greedy body) π K)
    (hfresh : ∀ c, (Expr.rounds low high greedy body).Late d π c → ¬ A c) (hK : K.Blind) {i j : Nat}
    (hj : max low i = j) {B : Choice → Prop}
    (hB : ∀ c, B c → (c.place = π ∧ i < c.round) ∨ (∃ j, body.Early d (j :: π) c) ∨ A c)
    (hm : Sound T d D R B (m k) (K.after (Rounds.from d low high greedy (body.ends d) j))) :
    Sound T d D R (fun c => B c ∨ (c.place = π ∧ c.round = i)) ((if looping then m.unlessTried π i else m) k)
      (K.after (Rounds.from d low high greedy (body.ends d) j)) := by
  subst hj
  cases looping with
  | false => exact hm.mono (Nat.le_refl _) fun c => .inl
  | true =>
    refine hm.unlessTried (hK.after _) (fun x hb => ?_) fun p hp => coherent_choice hD hp
    obtain ⟨-, h⟩ | ⟨j, h⟩ | h := hB _ hb
    · exact Nat.lt_irrefl _ h
    · exact not_cons_suffix π j (Expr.suffix_of_early h)
    · exact hfresh _ (.inl rfl) h

theorem upTo_sound (looping : Bool) {high : Nat} (hbody : ∀ i, Sweeps T d D body (i :: π) (round i)) (hk : Sound T d D R A k K)
    (hK : K.Blind) (hfresh : ∀ c, (Expr.rounds low (some high) greedy body).Late d π c → ¬ A c)
    (hD : Coherent T d D (.rounds low (some high) greedy body) π K) {n i : Nat} (hi : low ≤ i) (hn : i + n = high) :
    Sound T d D R (AtChoice d body π A i)
      (Walk.upTo (fun i m => if looping then m.unlessTried π i else m) greedy round i n k)
      (K.after (Rounds.from d low (some high) greedy (body.ends d) i)) := by
  induction n generalizing i with
  | zero =>
    have he : Rounds.from d low (some high) greedy (body.ends d) i = fun p => [p] := by
      funext p
      rw [from_some hi, show high - i = 0 by omega, Rounds.upTo]
    rw [he, Outcome.after_self]
    exact hk.mono (Nat.le_refl _) fun c hc => .inr (.inr hc)
  | succ n ih =>
    have he : Rounds.from d low (some high) greedy (body.ends d) i = fun p => Rounds.prefer greedy
        ((body.ends d p).flatMap (Rounds.from d low (some high) greedy (body.ends d) (i + 1))) [p] := by
      funext p
      have hf : Rounds.from d low (some high) greedy (body.ends d) (i + 1) =
          Rounds.upTo (body.ends d) greedy (high - (i + 1)) := funext (from_some (by omega))
      rw [from_some hi, show high - i = high - (i + 1) + 1 by omega, Rounds.upTo, hf]
    have hrest := ih (i := i + 1) (by omega) (by omega)
    have hround := hbody i hrest (hK.after _) (late_not_atChoice hfresh (by omega)) (coherent_body hD i)
    rw [Outcome.after_after] at hround
    let B (c : Choice) : Prop :=
      (c.place = π ∧ body.Thin ∧ i < c.round) ∨ (∃ j, Due body i j ∧ body.Early d (j :: π) c) ∨ A c
    have hB : ∀ c, body.Early d (i :: π) c ∨ (body.Thin ∧ AtChoice d body π A (i + 1) c) → B c := by
      rintro c (h | ⟨ht, ⟨hp, hdue⟩ | ⟨j, hdue, h⟩ | h⟩)
      · exact .inr (.inl ⟨i, .inl rfl, h⟩)
      · exact .inl ⟨hp, ht, by obtain h | h := hdue <;> omega⟩
      · exact .inr (.inl ⟨j, .inr ⟨ht, by obtain h | h := hdue <;> omega⟩, h⟩)
      · exact .inr (.inr h)
    have hmaybe := Sound.maybe (k := k) (m := fun k => round i (Walk.upTo _ greedy round (i + 1) n k)) greedy
      (hround.mono (by omega) hB) (hk.mono (Nat.le_refl _) fun c hc => .inr (.inr hc))
    rw [← he] at hmaybe
    refine (hmaybe.choose looping hD hfresh hK (Nat.max_eq_right hi) ?_).mono (Nat.le_refl _) ?_
    · intro c hc
      obtain h | ⟨j, -, h⟩ | h := hc
      · exact .inl ⟨h.1, h.2.2⟩
      · exact .inr (.inl ⟨j, h⟩)
      · exact .inr (.inr h)
    rintro c ((⟨hp, ht, hr⟩ | h) | ⟨hp, hr⟩)
    · exact .inl ⟨hp, .inr ⟨ht, by omega⟩⟩
    · exact .inr h
    · exact .inl ⟨hp, .inl hr⟩

/-- Rounds that have to be gone through. `B` are the choices that can be met after them. -/
theorem times_sound {B : Choice → Prop} (hbody : ∀ i, Sweeps T d D body (i :: π) (round i))
    (hK : K.Blind) (hfresh : ∀ c, (Expr.rounds low high greedy body).Late d π c → ¬ A c)
    (hD : Coherent T d D (.rounds low high greedy body) π K)
    (hk : Sound T d D R B k (K.after (Rounds.from d low high greedy (body.ends d) low)))
    (hlate : ∀ c, body.Late d ((low - 1) :: π) c → ¬ B c)
    (hB : body.Thin → ∀ c, B c → c.place = π ∨ (∃ j, low ≤ j ∧ body.Early d (j :: π) c) ∨ A c)
    {n i : Nat} (hn : i + (n + 1) = low) :
    Sound T d D (R + min 1 body.size.least) (AtRound d body π A i) (Walk.times round i (n + 1) k)
      (K.after (Rounds.from d low high greedy (body.ends d) i)) := by
  have he : Rounds.from d low high greedy (body.ends d) i = fun p =>
      (body.ends d p).flatMap (Rounds.from d low high greedy (body.ends d) (i + 1)) :=
    funext (from_of_lt (by omega))
  induction n generalizing i with
  | zero =>
    have hlow : low = i + 1 := by omega
    subst hlow
    have hround := hbody i hk (hK.after _) hlate (coherent_body hD i)
    rw [Outcome.after_after, ← he] at hround
    refine hround.mono (Nat.le_refl _) ?_
    rintro c (h | ⟨ht, h⟩)
    · exact .inl ⟨i, .inl rfl, h⟩
    · obtain h | ⟨j, hj, h⟩ | h := hB ht c h
      · exact .inr ⟨ht, .inl h⟩
      · exact .inl ⟨j, .inr ⟨ht, by omega⟩, h⟩
      · exact .inr ⟨ht, .inr h⟩
  | succ n ih =>
    have hrest := ih (i := i + 1) (by omega) (funext (from_of_lt (by omega)))
    have hround := hbody i hrest (hK.after _) (late_not_atRound hfresh) (coherent_body hD i)
    rw [Outcome.after_after, ← he] at hround
    refine hround.mono (by omega) ?_
    rintro c (h | ⟨ht, ⟨j, hj, h⟩ | ⟨-, h⟩⟩)
    · exact .inl ⟨i, .inl rfl, h⟩
    · exact .inl ⟨j, .inr ⟨ht, by obtain h | h := hj <;> omega⟩, h⟩
    · exact .inr ⟨ht, h⟩

/-- What can be met at the start of a loop whose rounds take characters. -/
def AtLoop (d : Direction) (low : Nat) (body : Expr) (π : List Nat) (A : Choice → Prop) (c : Choice) : Prop :=
  c.place = π ∨ body.Early d ((low - 1) :: π) c ∨ A c

theorem late_not_atLoop (hfresh : ∀ c, (Expr.rounds low none greedy body).Late d π c → ¬ A c)
    (hsize : 0 < body.size.least) (c : Choice) (hl : body.Late d ((low - 1) :: π) c) : ¬ AtLoop d low body π A c := by
  rintro (h | h | h)
  · exact not_here_of_below (Expr.suffix_of_late hl) h
  · have : body.Thin := Expr.thin_of_early_of_late h hl
    unfold Expr.Thin at this
    omega
  · exact hfresh c (.inr ⟨low - 1, .inl (by omega), hl⟩) h

theorem loop_sound (hbody : ∀ i, Sweeps T d D body (i :: π) (round i)) (hr : Rounds.Consumes d (body.ends d))
    (hsize : 0 < body.size.least) (hk : Sound T d D R A k K) (hK : K.Blind)
    (hfresh : ∀ c, (Expr.rounds low none greedy body).Late d π c → ¬ A c)
    (hD : Coherent T d D (.rounds low none greedy body) π K) (fuel : Nat) :
    Sound T d D (min fuel R) (AtLoop d low body π A)
      (Walk.loop (fun m => if looping then m.unlessTried π (low - 1) else m) greedy (round (low - 1)) fuel k)
      (K.after (Rounds.from d low none greedy (body.ends d) low)) := by
  induction fuel with
  | zero =>
    intro p tried _ hroom
    omega
  | succ fuel ih =>
    have hfrom : Rounds.from d low none greedy (body.ends d) (low - 1 + 1) =
        Rounds.from d low none greedy (body.ends d) low := by
      funext p
      rw [from_none (by omega), from_none (Nat.le_refl _)]
    have hnext := coherent_body hD (low - 1)
    rw [hfrom] at hnext
    have hround := hbody (low - 1) ih (hK.after _) (late_not_atLoop hfresh hsize) hnext
    have he : Rounds.from d low none greedy (body.ends d) low = fun p => Rounds.prefer greedy
        ((body.ends d p).flatMap (Rounds.from d low none greedy (body.ends d) low)) [p] :=
      funext (from_none_unroll hr (Nat.le_refl _))
    rw [Outcome.after_after] at hround
    let B (c : Choice) : Prop := body.Early d ((low - 1) :: π) c ∨ A c
    have hB : ∀ c, body.Early d ((low - 1) :: π) c ∨ (body.Thin ∧ AtLoop d low body π A c) → B c := by
      rintro c (h | ⟨ht, -⟩)
      · exact .inl h
      · unfold Expr.Thin at ht
        omega
    have hleave : Sound T d D (min (fuel + 1) R) B k K := hk.mono (by omega) fun c hc => .inr hc
    have hmaybe := Sound.maybe (k := k) (m := fun k => round (low - 1) (Walk.loop _ greedy (round (low - 1)) fuel k))
      greedy (hround.mono (by omega) hB) hleave
    rw [← he] at hmaybe
    refine (hmaybe.choose looping hD hfresh hK (by omega) ?_).mono (Nat.le_refl _) ?_
    · exact fun c hc => .inr (Or.imp_left (fun h => ⟨_, h⟩) hc)
    rintro c ((h | h) | ⟨h, -⟩)
    · exact .inr (.inl h)
    · exact .inr (.inr h)
    · exact .inl h

theorem rounds_sweeps (looping : Bool) (hbody : ∀ looping i, Sweeps T d D body (i :: π)
    (body.sweep d (i :: π) looping)) (ho : body.Ordered) (hcounts : low ≤ high.getD low)
    (hsize : high = none → 0 < body.size.least) :
    Sweeps T d D (.rounds low high greedy body) π ((Expr.rounds low high greedy body).sweep d π looping) := by
  intro R A k K hk hK hfresh hD
  unfold Expr.sweep
  generalize (looping || Expr.isLoop high body) = looping
  replace hbody := hbody looping
  have hends : (Expr.rounds low high greedy body).ends d = Rounds.from d low high greedy (body.ends d) 0 :=
    funext (ends_eq_from hcounts)
  have hleast : (Expr.rounds low high greedy body).size.least = low * body.size.least := rfl
  rw [hends, hleast]
  have hmin : min 1 (low * body.size.least) ≤ min 1 body.size.least := by
    cases body.size.least with
    | zero => simp
    | succ least =>
      rw [Nat.min_eq_left (Nat.le_add_left 1 least)]
      exact Nat.min_le_left _ _
  cases high with
  | some high =>
    rw [Option.getD_some] at hcounts
    have hup := upTo_sound looping (n := high - low) hbody hk hK hfresh hD (Nat.le_refl _) (by omega)
    cases low with
    | zero =>
      refine hup.mono (by simp) ?_
      have ht : (Expr.rounds 0 (some high) greedy body).Thin := by simp [Expr.Thin, Expr.size]
      rintro c (⟨h, -⟩ | ⟨j, hj, h⟩ | h)
      · exact .inl (.inl ⟨h, ht⟩)
      · exact .inl (.inr ⟨j, hj.imp_right And.left, h⟩)
      · exact .inr ⟨ht, h⟩
    | succ n =>
      refine (times_sound hbody hK hfresh hD hup (late_not_atChoice hfresh (Nat.le_refl _)) ?_ (Nat.zero_add _)).mono
        (by omega) fun c => early_of_atRound
      rintro - c (⟨h, -⟩ | ⟨j, hj, h⟩ | h)
      · exact .inl h
      · exact .inr (.inl ⟨j, by obtain h | h := hj <;> omega, h⟩)
      · exact .inr (.inr h)
  | none =>
    have hpos := hsize rfl
    have hloop : Sound T d D R (AtLoop d low body π A) (fun p => Walk.loop
        (fun m => if looping then m.unlessTried π (low - 1) else m) greedy
        (body.sweep d ((low - 1) :: π) looping) (p.cursor.room d + 2) k p)
        (K.after (Rounds.from d low none greedy (body.ends d) low)) := by
      intro p tried hT hroom hs
      exact loop_sound hbody (Expr.consumes_of_size ho hpos d) hpos hk hK hfresh hD _ p tried hT (by omega) hs
    cases low with
    | zero =>
      simp only [if_true, Nat.pos_iff_ne_zero.1 hpos, if_false]
      refine hloop.mono (by simp) ?_
      have ht : (Expr.rounds 0 none greedy body).Thin := by simp [Expr.Thin, Expr.size]
      rintro c (h | h | h)
      · exact .inl (.inl ⟨h, ht⟩)
      · exact .inl (.inr ⟨0, .inl rfl, h⟩)
      · exact .inr ⟨ht, h⟩
    | succ n =>
      simp only [Nat.succ_ne_zero, if_false]
      refine (times_sound hbody hK hfresh hD hloop (late_not_atLoop hfresh hpos) ?_ (Nat.zero_add _)).mono
        (by omega) fun c => early_of_atRound
      intro ht
      unfold Expr.Thin at ht
      omega

end Rounds

/-! ### All expressions -/

theorem Coherent.of_below {e e' : Expr} {π : List Nat} {K K' : Outcome} {i : Nat} (h : Coherent T d D e π K)
    (hb : ∀ c, (i :: π) <:+ c.place → (e.Barren d T c π K.Fails ↔ e'.Barren d T c (i :: π) K'.Fails)) :
    Coherent T d D e' (i :: π) K' :=
  fun c hc => (h c (suffix_of_cons hc)).trans (hb c hc)

theorem seq_sweeps {first rest : Expr} {π : List Nat} {looping : Bool}
    (hm : Sweeps T d D first (0 :: π) (first.sweep d (0 :: π) looping))
    (hn : Sweeps T d D rest (1 :: π) (rest.sweep d (1 :: π) looping)) :
    Sweeps T d D (.seq first rest) π ((Expr.seq first rest).sweep d π looping) := by
  intro R A k K hk hK hfresh hD
  have hne : ∀ {c : Choice} {P : Prop}, (0 :: π) <:+ c.place → (1 :: π) <:+ c.place → P :=
    fun h0 h1 => absurd (suffix_unique h0 h1) (by simp)
  have hleast : (Expr.seq first rest).size.least = first.size.least + rest.size.least := rfl
  cases d with
  | ahead =>
    have hrest := hn hk hK (fun c hl => hfresh c (.inl hl))
      (hD.of_below fun c hc => ⟨fun h => h.2 hc, fun h => ⟨fun h0 => hne h0 hc, fun _ => h⟩⟩)
    have hfirst := hm hrest (hK.after _) ?_ ?_
    · rw [Outcome.after_after] at hfirst
      refine hfirst.mono (by omega) ?_
      rintro c (h | ⟨ht, h | ⟨ht', h⟩⟩)
      · exact .inl (.inl h)
      · exact .inl (.inr ⟨ht, h⟩)
      · exact .inr ⟨Expr.thin_seq ht ht', h⟩
    · rintro c hl (h | ⟨ht, h⟩)
      · exact hne (Expr.suffix_of_late hl) (Expr.suffix_of_early h)
      · exact hfresh c (.inr ⟨ht, hl⟩) h
    · refine hD.of_below fun c hc => ?_
      rw [Outcome.fails_after]
      exact ⟨fun h => h.1 hc, fun h => ⟨fun _ => h, fun h1 => hne hc h1⟩⟩
  | behind =>
    have hfirst := hm hk hK (fun c hl => hfresh c (.inl hl))
      (hD.of_below fun c hc => ⟨fun h => h.2 hc, fun h => ⟨fun h1 => hne hc h1, fun _ => h⟩⟩)
    have hrest := hn hfirst (hK.after _) ?_ ?_
    · rw [Outcome.after_after] at hrest
      refine hrest.mono (by omega) ?_
      rintro c (h | ⟨ht, h | ⟨ht', h⟩⟩)
      · exact .inl (.inl h)
      · exact .inl (.inr ⟨ht, h⟩)
      · exact .inr ⟨Expr.thin_seq ht' ht, h⟩
    · rintro c hl (h | ⟨ht, h⟩)
      · exact hne (Expr.suffix_of_early h) (Expr.suffix_of_late hl)
      · exact hfresh c (.inr ⟨ht, hl⟩) h
    · refine hD.of_below fun c hc => ?_
      rw [Outcome.fails_after]
      exact ⟨fun h => h.1 hc, fun h => ⟨fun _ => h, fun h0 => hne h0 hc⟩⟩

theorem alt_sweeps {first rest : Expr} {π : List Nat} {looping : Bool}
    (hm : Sweeps T d D first (0 :: π) (first.sweep d (0 :: π) looping))
    (hn : Sweeps T d D rest (1 :: π) (rest.sweep d (1 :: π) looping)) :
    Sweeps T d D (.alt first rest) π ((Expr.alt first rest).sweep d π looping) := by
  intro R A k K hk hK hfresh hD
  have hne : ∀ {c : Choice} {P : Prop}, (0 :: π) <:+ c.place → (1 :: π) <:+ c.place → P :=
    fun h0 h1 => absurd (suffix_unique h0 h1) (by simp)
  let B (c : Choice) : Prop :=
    first.Early d (0 :: π) c ∨ rest.Early d (1 :: π) c ∨ ((Expr.alt first rest).Thin ∧ A c)
  have hfirst := hm hk hK (fun c hl => hfresh c (.inr (.inl hl))) (hD.of_below fun c hc =>
    ⟨fun h => h.2.1 hc, fun h => ⟨fun he => absurd he (not_here_of_below hc), fun _ => h, fun h1 => hne hc h1⟩⟩)
  have hrest := hn hk hK (fun c hl => hfresh c (.inr (.inr hl))) (hD.of_below fun c hc =>
    ⟨fun h => h.2.2 hc, fun h => ⟨fun he => absurd he (not_here_of_below hc), fun h0 => hne h0 hc, fun _ => h⟩⟩)
  have hfirst' : Sound T d D (R + min 1 (Expr.alt first rest).size.least) B (first.sweep d (0 :: π) looping k)
      (K.after (first.ends d)) := by
    refine hfirst.mono ?_ fun c hc => hc.imp_right fun h => .inr ⟨Expr.thin_alt (.inl h.1), h.2⟩
    by_cases hr : rest = .fail
    · subst hr; exact Nat.le_refl _
    · simp only [Expr.size_alt hr, Size.either]
      omega
  have hrest' : Sound T d D (R + min 1 (Expr.alt first rest).size.least) B (rest.sweep d (1 :: π) looping k)
      (K.after (rest.ends d)) := by
    by_cases hr : rest = .fail
    · rw [hr]
      exact Sound.fail _ _ _
    · refine hrest.mono ?_ fun c hc => .inr (hc.imp_right fun h => ⟨Expr.thin_alt (.inr ⟨h.1, hr⟩), h.2⟩)
      simp only [Expr.size_alt hr, Size.either]
      omega
  have hboth := hfirst'.orElse hrest'
  have he : K.after ((Expr.alt first rest).ends d) =
      fun p z => (K.after (first.ends d) p z).or (K.after (rest.ends d) p z) := by
    funext p z
    exact List.findSome?_append
  rw [← he] at hboth
  cases looping with
  | false =>
    refine hboth.mono (Nat.le_refl _) ?_
    rintro c (h | h | h)
    · exact .inl (.inr (.inl h))
    · exact .inl (.inr (.inr h))
    · exact .inr h
  | true =>
    refine (hboth.unlessTried (hK.after _) (π := π) (i := 0) ?_ ?_).mono (Nat.le_refl _) ?_
    · rintro x (h | h | ⟨ht, h⟩)
      · exact not_cons_suffix π 0 (Expr.suffix_of_early h)
      · exact not_cons_suffix π 1 (Expr.suffix_of_early h)
      · exact hfresh _ (.inl ⟨rfl, ht⟩) h
    · intro p hp
      rw [hD _ (List.suffix_refl _), Expr.Barren, Outcome.after_fails]
      constructor
      · intro hb
        exact hb.1 rfl p hp rfl
      · intro hf
        refine ⟨fun _ q hq hpos => ?_, fun h => absurd h (not_cons_suffix π 0), fun h => absurd h (not_cons_suffix π 1)⟩
        rw [Cursor.eq_of_position (hq.trans hp.symm) hpos]
        exact hf
    · rintro c ((h | h | h) | ⟨h, -⟩)
      · exact .inl (.inr (.inl h))
      · exact .inl (.inr (.inr h))
      · exact .inr h
      · exact .inl (.inl h)

/-- The sweep of an expression finds the preferred of its ends that one can go on from. -/
theorem sweep_sweeps {e : Expr} (hr : e.Sweepable) (ho : e.Ordered)
    (hp : e.Productive) (h0 : 0 ∉ e.groups) (π : List Nat) (looping : Bool) :
    Sweeps T d D e π (e.sweep d π looping) := by
  induction e generalizing π looping with
  | empty =>
    intro R A k K hk _ _ _
    exact (Outcome.after_self K).symm ▸ hk.mono (Nat.le_refl _) fun c hc => .inr ⟨rfl, hc⟩
  | fail =>
    intro R A k K _ _ _ _
    exact Sound.fail _ _ _
  | char | set | anyChar =>
    intro R A k K hk _ _ _
    exact (hk.one _).mono (Nat.le_refl _) fun c => False.elim
  | anchor a =>
    intro R A k K hk _ _ _
    exact (hk.check a.holds).mono (Nat.le_refl _) fun c hc => .inr ⟨rfl, hc⟩
  | seq first rest ih ih' =>
    simp only [Expr.groups, List.mem_append, not_or] at h0
    exact seq_sweeps (ih hr.1 ho.1 hp.1 h0.1 _ _) (ih' hr.2 ho.2 hp.2 h0.2 _ _)
  | alt first rest ih ih' =>
    simp only [Expr.groups, List.mem_append, not_or] at h0
    exact alt_sweeps (ih hr.1 ho.1 hp.1 h0.1 _ _) (ih' hr.2 ho.2 hp.2 h0.2 _ _)
  | rounds low high greedy body ih =>
    exact rounds_sweeps looping (fun _ _ => ih hr ho.2 hp.2 h0 _ _) ho.2 ho.1 hp.1
  | capture group body ih =>
    simp only [Expr.groups, List.mem_cons, not_or] at h0
    intro R A k K hk hK hfresh hD
    have hbody := ih hr ho hp h0.2 (0 :: π) looping (hk.capture (Ne.symm h0.1)) hK hfresh
      (hD.of_below fun c hc => ⟨fun h => h hc, fun h _ => h⟩)
    exact hbody.enter (Ne.symm h0.1)
  | atomic | look | backref => exact hr.elim

/-! ### Sweeps on their own -/

def Outcome.finish : Outcome := fun p z => some (p, z)

theorem Outcome.finish_blind : Outcome.finish.Blind := fun p z h => by simp [finish] at h

/-- The first place is preferred. -/
theorem Outcome.finish_after (ends : Cursor → List Cursor) (p : Cursor) (z : Record) :
    Outcome.finish.after ends p z = (ends p).head?.map (·, z) := by
  unfold Outcome.after Outcome.finish
  cases ends p <;> rfl

theorem finish_sound (R : Nat) (A : Choice → Prop) : Sound T d D R A Walk.finish .finish := fun _ _ _ _ _ => rfl

theorem finish_settled (A : Choice → Prop) (p : Cursor) : Settled d D A p [] := fun c hc => by simp at hc

theorem Answers.view_eq {tried : Tried} {expected : Option View} {out : Except Tried Path}
    (h : Answers D tried expected out) : out.toOption.map Path.view = expected := by
  cases out with
  | ok q => exact Eq.symm h
  | error tried' => exact h.1.symm

/-- The sweep of an expression before a continuation that can be relied on. -/
theorem sweep_alone {e : Expr} (hr : e.Sweepable) (ho : e.Ordered)
    (hp : e.Productive) (h0 : 0 ∉ e.groups) {k : Continuation} {K : Outcome}
    (hk : ∀ T D R, Sound T d D R (fun _ => False) k K) (hK : K.Blind) (p : Path) :
    (e.sweep d [] false k p []).toOption.map Path.view = K.after (e.ends d) p.cursor p.record := by
  have h := sweep_sweeps (T := p.cursor.text) (D := fun c => e.Barren d p.cursor.text c [] K.Fails) hr ho hp h0 [] false
    (hk _ _ (p.cursor.room d + 1)) hK (fun _ _ h => h) (fun _ _ => Iff.rfl)
  exact (h p [] rfl (by omega) (finish_settled _ _)).view_eq

/-- The sweep of an expression stops at the preferred end. -/
theorem sweep_finish {e : Expr} (hr : e.Sweepable) (ho : e.Ordered)
    (hp : e.Productive) (h0 : 0 ∉ e.groups) (d : Direction) (p : Path) :
    (e.sweep d [] false Walk.finish p []).toOption.map Path.view = (e.ends d p.cursor).head?.map (·, p.record) := by
  rw [sweep_alone hr ho hp h0 (fun _ _ _ => finish_sound _ _) Outcome.finish_blind, Outcome.finish_after]

theorem Sound.stopZero {R : Nat} {A : Choice → Prop} {k : Continuation} {K : Outcome} (hk : Sound T d D R A k K) :
    Sound T d D R A (fun q => k (q.stopGroup 0)) fun q z => K q (z.1, some q) :=
  fun p tried hT hr hs => hk (p.stopGroup 0) tried hT hr hs

theorem Sound.startZero {R : Nat} {A : Choice → Prop} {k : Continuation} {K : Outcome} (hk : Sound T d D R A k K) :
    Sound T d D R A (fun p => k (p.startGroup 0)) fun p z => K p (some p, z.2) :=
  fun p tried hT hr hs => hk (p.startGroup 0) tried hT hr hs

/-- What group 0 records is where the swept part starts and stops. -/
theorem captureZero_sound {e : Expr} (hr : e.Sweepable) (ho : e.Ordered)
    (hp : e.Productive) (h0 : 0 ∉ e.groups) {π : List Nat} {R : Nat} {A : Choice → Prop} {k : Continuation}
    {K : Outcome} (hk : Sound T d D R A k K) (hK : K.Blind) (hfresh : ∀ c, (Expr.capture 0 e).Late d π c → ¬ A c)
    (hD : Coherent T d D (.capture 0 e) π K) :
    Sound T d D R (fun c => e.Early d (0 :: π) c ∨ (e.Thin ∧ A c)) ((Expr.capture 0 e).sweep d π false k)
      fun p _ => (e.ends d p).findSome? fun q => K q (some p, some q) := by
  have hfails : Outcome.Fails (fun q z => K q (z.1, some q)) = K.Fails := by
    funext q
    exact propext ⟨fun h => hK q _ (h (none, none)), fun h z => h _⟩
  have hblind : Outcome.Blind fun q z => K q (z.1, some q) := fun q z h z' => hK q _ h _
  have hbody := sweep_sweeps hr ho hp h0 (0 :: π) false hk.stopZero hblind hfresh
    (hD.of_below fun c hc => by
      rw [hfails]
      exact ⟨fun h => h hc, fun h _ => h⟩)
  exact (hbody.mono (by omega) fun c hc => hc).startZero

end Sound

end WordPattern.Regex
