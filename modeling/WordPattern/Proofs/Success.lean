import Mathlib.Data.List.Basic

/-! What a successful computation is made of. -/

namespace WordPattern

variable {ε α β γ : Type}

theorem bind_eq_ok {x : Except ε α} {f : α → Except ε β} {b : β} (h : x >>= f = .ok b) :
    ∃ a, x = .ok a ∧ f a = .ok b := by
  cases x with
  | error e => simp [bind, Except.bind] at h
  | ok a => exact ⟨a, rfl, h⟩

theorem map_eq_ok {x : Except ε α} {f : α → β} {b : β} (h : x.map f = .ok b) : ∃ a, x = .ok a ∧ f a = b := by
  cases x with
  | error e => simp [Except.map] at h
  | ok a => exact ⟨a, rfl, Except.ok.inj h⟩

theorem bind_eq_error {x : Except ε α} {f : α → Except ε β} {e : ε} (h : x >>= f = .error e) :
    x = .error e ∨ ∃ a, x = .ok a ∧ f a = .error e := by
  cases x with
  | error e' => exact .inl (congrArg _ (Except.error.inj h))
  | ok a => exact .inr ⟨a, rfl, h⟩

theorem map_eq_error {x : Except ε α} {f : α → β} {e : ε} (h : x.map f = .error e) : x = .error e := by
  cases x with
  | error e' => exact congrArg _ (Except.error.inj h)
  | ok a => contradiction

/-- Of two computations that are put together one has failed. -/
theorem pair_eq_error {x : Except ε α} {y : Except ε β} {f : α → β → γ} {e : ε}
    (h : (do let a ← x; let b ← y; return f a b) = .error e) : x = .error e ∨ y = .error e := by
  refine (bind_eq_error h).imp_right fun ⟨a, _, ha⟩ => (bind_eq_error ha).resolve_right ?_
  rintro ⟨b, -, hb⟩
  contradiction

theorem forM_eq_ok {f : α → Except ε Unit} {xs : List α} (h : ∀ x ∈ xs, f x = .ok ()) : xs.forM f = .ok () := by
  induction xs with
  | nil => rfl
  | cons x xs ih =>
    obtain ⟨hx, hxs⟩ := List.forall_mem_cons.1 h
    change (f x >>= fun _ => xs.forM f) = .ok ()
    rw [hx]
    exact ih hxs

/-- A loop that only checks has checked every element. -/
theorem forIn_eq_ok {f : α → Except ε Unit} {xs : List α} {u : PUnit}
    (h : (forIn xs PUnit.unit fun x _ => f x >>= fun _ => pure (ForInStep.yield PUnit.unit)) = .ok u) :
    ∀ x ∈ xs, f x = .ok () := by
  induction xs with
  | nil => simp
  | cons x xs ih =>
    rw [List.forIn_cons] at h
    obtain ⟨step, hstep, h⟩ := bind_eq_ok h
    obtain ⟨⟨⟩, hx, hyield⟩ := bind_eq_ok hstep
    obtain rfl := Except.ok.inj hyield
    exact List.forall_mem_cons.2 ⟨hx, ih h⟩

/-- What becomes of the elements of a list one by one. -/
theorem mapM_eq_ok {f : α → Except ε β} {xs : List α} {ys : List β} (h : xs.mapM f = .ok ys) :
    (∀ y ∈ ys, ∃ x ∈ xs, f x = .ok y) ∧ ∀ x ∈ xs, ∃ y ∈ ys, f x = .ok y := by
  induction xs generalizing ys with
  | nil =>
    obtain rfl := Except.ok.inj h
    exact ⟨fun y hy => by simp at hy, fun x hx => by simp at hx⟩
  | cons x xs ih =>
    rw [List.mapM_cons] at h
    obtain ⟨y, hy, h⟩ := bind_eq_ok h
    obtain ⟨zs, hzs, h⟩ := bind_eq_ok h
    obtain rfl := Except.ok.inj h
    obtain ⟨hfrom, hto⟩ := ih hzs
    constructor
    · intro z hz
      rcases List.mem_cons.1 hz with rfl | hz
      · exact ⟨x, List.mem_cons_self, hy⟩
      · obtain ⟨x', hx', heq⟩ := hfrom z hz
        exact ⟨x', List.mem_cons_of_mem _ hx', heq⟩
    · intro x' hx'
      rcases List.mem_cons.1 hx' with rfl | hx'
      · exact ⟨y, List.mem_cons_self, hy⟩
      · obtain ⟨z, hz, heq⟩ := hto x' hx'
        exact ⟨z, List.mem_cons_of_mem _ hz, heq⟩

end WordPattern
