import WordPattern.Proofs.Matching.Ends
import WordPattern.Regex.Search

/-! Matches stay within the text in which they start.

This holds of all expressions, those included that refer to groups. -/

namespace WordPattern.Regex

/-- A path stays within a text, with all its groups. -/
structure Path.Within (T : Text) (p : Path) : Prop where
  cursor : p.cursor.text = T
  starts : ∀ s ∈ p.starts, s.2.text = T
  stops : ∀ s ∈ p.stops, s.2.text = T

/-- From a path within a text, a walk only goes on with paths within the text. -/
def Walk.Keeps (T : Text) (m : Walk) : Prop :=
  ∀ (k : Continuation) (p : Path) (tried : Tried) (q : Path), p.Within T → m k p tried = .ok q →
    ∃ p' tried', p'.Within T ∧ k p' tried' = .ok q

section Walks

variable {T : Text} {m n : Walk}

theorem Path.Within.moveTo {p : Path} (h : p.Within T) {c : Cursor} (hc : c.text = T) : (p.moveTo c).Within T :=
  ⟨hc, h.starts, h.stops⟩

theorem Path.Within.forget {p : Path} (h : p.Within T) (groups : List Nat) : (p.forget groups).Within T := by
  unfold Path.forget
  split_ifs
  · exact h
  · exact ⟨h.cursor, fun s hs => h.starts s (List.mem_filter.1 hs).1, fun s hs => h.stops s (List.mem_filter.1 hs).1⟩

theorem Path.Within.startGroup {p : Path} (h : p.Within T) (group : Nat) : (p.startGroup group).Within T := by
  refine ⟨h.cursor, fun s hs => ?_, h.stops⟩
  rcases List.mem_cons.1 hs with rfl | hs
  · exact h.cursor
  · exact h.starts s hs

theorem Path.Within.stopGroup {p : Path} (h : p.Within T) (group : Nat) : (p.stopGroup group).Within T := by
  refine ⟨h.cursor, h.starts, fun s hs => ?_⟩
  rcases List.mem_cons.1 hs with rfl | hs
  · exact h.cursor
  · exact h.stops s hs

namespace Walk

theorem keeps_id : Keeps T id := fun _ p tried _ hp h => ⟨p, tried, hp, h⟩

theorem keeps_fail : Keeps T fail := fun _ _ _ _ _ h => by contradiction

theorem keeps_check (test : Path → Bool) : Keeps T (check test) := by
  intro k p tried q hp h
  unfold check at h
  split_ifs at h
  exact ⟨p, tried, hp, h⟩

theorem keeps_one (d : Direction) (test : Char → Bool) : Keeps T (one d test) := by
  intro k p tried q hp h
  unfold one at h
  split at h
  · rename_i c r hstep
    split_ifs at h
    exact ⟨_, tried, hp.moveTo ((Cursor.step?_text hstep).trans hp.cursor), h⟩
  · contradiction

/-- One walk and then another. -/
theorem Keeps.andThen (hm : Keeps T m) (hn : Keeps T n) : Keeps T fun k => m (n k) := by
  intro k p tried q hp h
  obtain ⟨p', tried', hp', h'⟩ := hm _ p tried q hp h
  exact hn k p' tried' q hp' h'

theorem Keeps.orElse (hm : Keeps T m) (hn : Keeps T n) : Keeps T (orElse m n) := by
  intro k p tried q hp h
  unfold Walk.orElse at h
  split at h
  · rename_i q' hq
    obtain rfl := Except.ok.inj h
    exact hm k p tried q' hp hq
  · exact hn k p _ q hp h

theorem Keeps.maybe (hm : Keeps T m) (greedy : Bool) : Keeps T (maybe greedy m) := by
  unfold Walk.maybe
  split_ifs
  · exact hm.orElse keeps_id
  · exact keeps_id.orElse hm

theorem keeps_times {m : Nat → Walk} (hm : ∀ i, Keeps T (m i)) (i n : Nat) : Keeps T (times m i n) := by
  induction n generalizing i with
  | zero => exact keeps_id
  | succ n ih => exact (hm i).andThen (ih (i + 1))

theorem keeps_upTo {choose : Nat → Walk → Walk} (hchoose : ∀ i m, Keeps T m → Keeps T (choose i m)) {m : Nat → Walk}
    (hm : ∀ i, Keeps T (m i)) (greedy : Bool) (i n : Nat) : Keeps T (upTo choose greedy m i n) := by
  induction n generalizing i with
  | zero => exact keeps_id
  | succ n ih => exact hchoose i _ (((hm i).andThen (ih (i + 1))).maybe greedy)

theorem Keeps.once (hm : Keeps T m) : Keeps T (once m) := by
  intro k p tried q hp h
  unfold Walk.once at h
  split at h
  · rename_i r hr
    obtain ⟨p', tried', hp', heq⟩ := hm _ p [] r hp hr
    obtain rfl := Except.ok.inj heq
    exact ⟨p', tried, hp', h⟩
  · contradiction

theorem keeps_absent (m : Walk) : Keeps T (absent m) := by
  intro k p tried q hp h
  unfold absent at h
  split at h
  · contradiction
  · exact ⟨p, tried, hp, h⟩

theorem Keeps.inPlace (hm : Keeps T m) : Keeps T (inPlace m) := by
  intro k p tried q hp h
  obtain ⟨p', tried', hp', h'⟩ := hm _ p tried q hp h
  exact ⟨_, tried', hp'.moveTo hp.cursor, h'⟩

theorem Keeps.unlessTried (hm : Keeps T m) (place : List Nat) (round : Nat) : Keeps T (unlessTried place round m) := by
  intro k p tried q hp h
  unfold Walk.unlessTried at h
  simp only at h
  split_ifs at h
  exact hm k p _ q hp h

theorem keeps_loop {choose : Walk → Walk} (hchoose : ∀ m, Keeps T m → Keeps T (choose m)) (hm : Keeps T m)
    (greedy : Bool) (fuel : Nat) : Keeps T (loop choose greedy m fuel) := by
  induction fuel with
  | zero => exact keeps_fail
  | succ fuel ih => exact hchoose _ ((hm.andThen ih).maybe greedy)

theorem keeps_spin (hm : Keeps T m) (greedy : Bool) (fuel : Nat) : Keeps T (spin greedy m fuel) := by
  induction fuel with
  | zero => exact keeps_fail
  | succ fuel ih =>
    intro k p tried q hp h
    refine Keeps.maybe (fun k p' tried q hp' h => ?_) greedy k p tried q hp h
    obtain ⟨r, tried', hr, h'⟩ := hm _ p' tried q hp' h
    split_ifs at h'
    · exact ⟨r, tried', hr, h'⟩
    · exact ih k r tried' q hr h'

theorem keeps_text (same : Char → Char → Bool) (t : Text) : Keeps T (text same t) := by
  induction t with
  | nil => exact keeps_id
  | cons c t ih => exact (keeps_one .ahead (same c)).andThen ih

end Walk

theorem Path.Within.ofStart {c : Cursor} (h : c.text = T) : (Path.start c).Within T :=
  ⟨h, fun _ hs => absurd hs (List.not_mem_nil), fun _ hs => absurd hs (List.not_mem_nil)⟩

theorem keeps_sweep (d : Direction) (e : Expr) (place : List Nat) (looping : Bool) :
    (e.sweep d place looping).Keeps T := by
  induction e generalizing place looping with
  | empty => exact Walk.keeps_id
  | char | set | anyChar => exact Walk.keeps_one d _
  | anchor => exact Walk.keeps_check _
  | seq first rest ih ih' =>
    cases d with
    | ahead => exact (ih _ _).andThen (ih' _ _)
    | behind => exact (ih' _ _).andThen (ih _ _)
  | alt first rest ih ih' =>
    unfold Expr.sweep
    simp only
    split_ifs
    · exact ((ih _ _).orElse (ih' _ _)).unlessTried _ _
    · exact (ih _ _).orElse (ih' _ _)
  | rounds low high greedy body ih =>
    have hchoose : ∀ (i : Nat) (m : Walk), m.Keeps T →
        (if looping || Expr.isLoop high body then m.unlessTried place i else m).Keeps T := by
      intro i m hm
      split_ifs
      · exact hm.unlessTried _ _
      · exact hm
    have hagain : ∀ i, Walk.Keeps T fun k p => Walk.loop
        (fun m => if looping || Expr.isLoop high body then m.unlessTried place i else m) greedy
        (body.sweep d (i :: place) (looping || Expr.isLoop high body)) (p.cursor.room d + 2) k p :=
      fun i k p tried q hp h => Walk.keeps_loop (hchoose i) (ih _ _) greedy _ k p tried q hp h
    unfold Expr.sweep
    cases high with
    | some high => exact (Walk.keeps_times (fun i => ih _ _) 0 low).andThen (Walk.keeps_upTo hchoose (fun i => ih _ _) greedy _ _)
    | none =>
      by_cases hlow : low = 0
      · by_cases hbody : body.size.least = 0
        · simp only [if_pos hlow, if_pos hbody]
          exact hchoose 1 _ (((ih _ _).andThen (hagain 0)).maybe greedy)
        · simp only [if_pos hlow, if_neg hbody]
          exact hagain 0
      · simp only [if_neg hlow]
        exact (Walk.keeps_times (fun i => ih _ _) 0 low).andThen (hagain (low - 1))
  | capture group body ih =>
    intro k p tried q hp h
    obtain ⟨p', tried', hp', h'⟩ := ih _ _ _ _ tried q (hp.startGroup group) h
    exact ⟨_, tried', hp'.stopGroup group, h'⟩
  | fail | atomic | look | backref => exact Walk.keeps_fail

theorem keeps_backAlong (e : Expr) : (Walk.backAlong e).Keeps T := by
  intro k p tried q hp h
  unfold Walk.backAlong at h
  split at h
  · contradiction
  · rename_i r hr
    obtain ⟨p', tried', hp', heq⟩ := keeps_sweep .behind e [] false _ p [] r hp hr
    obtain rfl := Except.ok.inj heq
    have hinside : ∀ test, Walk.Keeps T fun k => e.sweep .ahead [] false (Walk.check test k) := fun test =>
      (keeps_sweep .ahead e [] false).andThen (Walk.keeps_check test)
    exact (hinside _).once k _ tried q ((hp.forget e.groups).moveTo hp'.cursor) h

theorem keeps_again (group : Nat) (folded : Bool) : (Walk.again group folded).Keeps T := by
  intro k p tried q hp h
  unfold Walk.again at h
  split at h
  · contradiction
  · exact ((Walk.keeps_text _ _).andThen (Walk.keeps_check _)) k p tried q hp h

/-- A plan is followed within the text. -/
theorem keeps_walk (P : Plan) : P.walk.Keeps T := by
  induction P with
  | sweep e => exact fun k p tried q hp h => (keeps_sweep .ahead e [] false).once k _ tried q (hp.forget e.groups) h
  | seq _ _ ih ih' => exact ih.andThen ih'
  | alt _ _ ih ih' => exact ih.orElse ih'
  | rounds low high greedy body ih =>
    unfold Plan.walk
    cases high with
    | some high =>
      exact (Walk.keeps_times (fun _ => ih) 0 _).andThen (Walk.keeps_upTo (fun _ _ h => h) (fun _ => ih) greedy 0 _)
    | none =>
      have hspin : Walk.Keeps T fun k p => Walk.spin greedy body.walk (p.cursor.room .ahead + 2) k p :=
        fun k p tried q hp h => Walk.keeps_spin ih greedy _ k p tried q hp h
      exact (Walk.keeps_times (fun _ => ih) 0 low).andThen hspin
  | capture group body ih =>
    intro k p tried q hp h
    obtain ⟨p', tried', hp', h'⟩ := ih _ _ tried q (hp.startGroup group) h
    exact ⟨_, tried', hp'.stopGroup group, h'⟩
  | atomic _ ih => exact ih.once
  | look negated _ ih =>
    cases negated with
    | false => exact ih.inPlace
    | true => exact Walk.keeps_absent _
  | back count =>
    intro k p tried q hp h
    unfold Plan.walk at h
    split at h
    · rename_i r hr
      rw [Cursor.back?_eq_go?] at hr
      exact ⟨_, tried, hp.moveTo ((Cursor.go?_text hr).trans hp.cursor), h⟩
    · contradiction
  | backAlong e => exact keeps_backAlong e
  | backref group folded => exact keeps_again group folded

end Walks

theorem lookup_mem {α β : Type} [BEq α] [LawfulBEq α] {xs : List (α × β)} {a : α} {b : β} (h : xs.lookup a = some b) :
    (a, b) ∈ xs := by
  induction xs with
  | nil => simp at h
  | cons x xs ih =>
    rw [List.lookup_cons] at h
    split at h
    · rename_i heq
      obtain rfl := eq_of_beq heq
      obtain rfl := Option.some.inj h
      exact List.mem_cons_self
    · exact List.mem_cons_of_mem _ (ih h)

/-- A match stops within the text in which it starts. -/
theorem text_stop {P : Plan} {p : Cursor} {m : Match} (h : matchAt? P p = some m) : m.stop.text = p.text := by
  unfold matchAt? at h
  split at h
  · rename_i q hq
    obtain rfl := Option.some.inj h
    obtain ⟨p', tried', hp', heq⟩ := keeps_walk P _ _ [] q (.ofStart rfl) hq
    obtain rfl := Except.ok.inj heq
    unfold Match.stop Match.capture? Path.capture?
    split
    · rename_i c hc
      split at hc
      · rename_i start stop _ hstop
        obtain rfl := Option.some.inj hc
        exact hp'.stops _ (lookup_mem hstop)
      · contradiction
    · exact hp'.cursor
  · contradiction

/-- All matches in a text stop within it. -/
theorem text_of_mem_matchesFrom {P : Plan} {before after : Text} {inside : Nat} {touching : Bool} {m : Match}
    (h : m ∈ matchesFrom P before after inside touching) : m.stop.text = before.reverse ++ after := by
  induction after generalizing before inside touching with
  | nil =>
    cases inside with
    | succ n => simp [matchesFrom] at h
    | zero =>
      obtain ⟨hm, -⟩ := Option.filter_eq_some_iff.1 (Option.mem_toList.1 h)
      exact text_stop hm
  | cons c after ih =>
    have htext : (c :: before).reverse ++ after = before.reverse ++ c :: after := by simp
    rw [← htext]
    cases inside with
    | succ n => exact ih h
    | zero =>
      rw [matchesFrom] at h
      split at h
      · exact ih h
      · rename_i n hn
        have hstop : n.stop.text = (c :: before).reverse ++ after := by
          rw [text_stop hn, htext]
          rfl
        simp only at h
        split_ifs at h
        · exact ih h
        · rcases List.mem_cons.1 h with rfl | h
          · exact hstop
          · exact ih h
        · rcases List.mem_cons.1 h with rfl | h
          · exact hstop
          · exact ih h

end WordPattern.Regex
