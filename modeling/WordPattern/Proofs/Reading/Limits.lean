import WordPattern.Proofs.Reading.Steady
import WordPattern.Proofs.Reading.Whole

/-! What is within the limits on nesting and size is compiled.

No part of a steady expression is larger than the whole, so every part can be swept if the whole can. -/

namespace WordPattern.Regex

namespace Expr

variable {e first rest body front part : Expr}

theorem checkSweep_eq_ok : e.checkSweep = .ok () ↔ e.checkCounts = .ok () ∧ e.expandedSize ≤ expansionLimit := by
  unfold checkSweep
  cases e.checkCounts with
  | error x => simp [bind, Except.bind]
  | ok =>
    simp only [bind, Except.bind, true_and]
    split_ifs with h
    · simpa using h
    · simpa [pure, Except.pure] using h

/-- What has no other counts than an expression that can be swept, and is not larger, can be swept as well. -/
theorem checkSweep_mono (h : e.checkSweep = .ok ()) (hcounts : e.checkCounts = .ok () → part.checkCounts = .ok ())
    (hsize : part.expandedSize ≤ e.expandedSize) : part.checkSweep = .ok () := by
  obtain ⟨hc, hs⟩ := checkSweep_eq_ok.1 h
  exact checkSweep_eq_ok.2 ⟨hcounts hc, hsize.trans hs⟩

theorem checkCounts_seq (h : (seq first rest).checkCounts = .ok ()) :
    first.checkCounts = .ok () ∧ rest.checkCounts = .ok () := by
  obtain ⟨⟨⟩, hfirst, hrest⟩ := bind_eq_ok h
  exact ⟨hfirst, hrest⟩

theorem checkCounts_rounds {low : Nat} {high : Option Nat} {greedy : Bool}
    (h : (rounds low high greedy body).checkCounts = .ok ()) : body.checkCounts = .ok () := by
  simp only [checkCounts, bind, Except.bind] at h
  split_ifs at h
  exact h

theorem expandedSize_le_rounds {low : Nat} {high : Option Nat} (h : high ≠ some 0) (greedy : Bool) (body : Expr) :
    body.expandedSize ≤ (rounds low high greedy body).expandedSize := by
  refine Nat.le_mul_of_pos_left _ (Nat.lt_of_lt_of_le ?_ (Nat.le_max_right ..))
  cases high with
  | none => exact Nat.one_pos
  | some high => exact Nat.pos_of_ne_zero fun h0 => h (congrArg some h0)

theorem Steady.operand {o : Expr} (h : e.Steady) (ho : o ∈ e.operands) : o.Steady := by
  cases e with
  | seq first rest | alt first rest => exact (List.mem_pair.1 ho).elim (· ▸ h.1) (· ▸ h.2)
  | rounds low high greedy body | look direction negated body => exact List.mem_singleton.1 ho ▸ h.2
  | capture group body | atomic body => exact List.mem_singleton.1 ho ▸ h
  | empty | fail | char | set | anyChar | anchor | backref => exact absurd ho List.not_mem_nil

theorem checkSweep_operand {o : Expr} (h : e.Steady) (hfits : e.checkSweep = .ok ()) (ho : o ∈ e.operands) :
    o.checkSweep = .ok () := by
  cases e with
  | seq first rest | alt first rest =>
    rcases List.mem_pair.1 ho with rfl | rfl
    · exact checkSweep_mono hfits (fun hc => (checkCounts_seq hc).1) (Nat.le_add_right ..)
    · exact checkSweep_mono hfits (fun hc => (checkCounts_seq hc).2) (Nat.le_add_left ..)
  | rounds low high greedy body =>
    rw [List.mem_singleton.1 ho]
    exact checkSweep_mono hfits checkCounts_rounds (expandedSize_le_rounds h.1.2 greedy body)
  | capture group body | atomic body | look direction negated body => exact List.mem_singleton.1 ho ▸ hfits
  | empty | fail | char | set | anyChar | anchor | backref => exact absurd ho List.not_mem_nil

/-- A look that is taken out at the end takes nothing along but itself. -/
theorem finalLook?_fits (hf : e.finalLook? = some (front, body)) (h : e.Steady) (hcounts : e.checkCounts = .ok ()) :
    (front.Steady ∧ body.Steady) ∧ (front.checkCounts = .ok () ∧ body.checkCounts = .ok ()) ∧
      front.expandedSize + body.expandedSize = e.expandedSize := by
  induction e generalizing front body with
  | seq first rest ih ih' =>
    obtain ⟨hfirst, hrest⟩ := checkCounts_seq hcounts
    unfold finalLook? at hf
    split at hf
    · rename_i heq
      obtain ⟨rfl, rfl⟩ := Prod.mk.inj (Option.some.inj hf)
      obtain ⟨rfl, rfl⟩ := Expr.seq.inj heq
      exact ⟨⟨trivial, h.1.2⟩, ⟨rfl, hfirst⟩, by simp [expandedSize]⟩
    · rename_i heq
      obtain ⟨rfl, rfl⟩ := Expr.seq.inj heq
      obtain ⟨⟨front', body'⟩, hlook, heq⟩ := Option.map_eq_some_iff.1 hf
      obtain ⟨rfl, rfl⟩ := Prod.mk.inj heq
      obtain ⟨⟨hfront, hbody⟩, ⟨hfront', hbody'⟩, hsize⟩ := ih' hlook h.2 hrest
      refine ⟨⟨⟨h.1, hfront⟩, hbody⟩, ⟨?_, hbody'⟩, ?_⟩
      · simp only [checkCounts, hfirst, hfront', bind, Except.bind]
      · rw [expandedSize, expandedSize, ← hsize, Nat.add_assoc]
    · contradiction
  | _ => simp [finalLook?] at hf

/-- A steady expression has a plan if it can be swept. -/
theorem exists_planWhole (h : e.Steady) (hfits : e.checkSweep = .ok ()) : ∃ p, e.planWhole = .ok p := by
  have hplan : ∀ {e : Expr}, e.Steady → e.checkSweep = .ok () → ∀ referenced, ∃ p, e.plan referenced false true = .ok p := by
    intro e h hfits referenced
    cases hp : e.plan referenced false true with
    | ok p => exact ⟨p, rfl⟩
    | error x =>
      obtain ⟨part, hpart, hx⟩ := plan_error h.tame hp
      have hfits' := (parts_induction (P := fun e => e.Steady ∧ e.checkSweep = .ok ())
        (fun _ h _ ho => ⟨h.1.operand ho, checkSweep_operand h.1 h.2 ho⟩) ⟨h, hfits⟩ hpart).2
      rw [hfits'] at hx
      contradiction
  unfold planWhole
  split
  · rename_i front body hf
    obtain ⟨hcounts, hsize⟩ := checkSweep_eq_ok.1 hfits
    obtain ⟨⟨hfront, hbody⟩, ⟨hfront', hbody'⟩, hsum⟩ := finalLook?_fits hf h hcounts
    refine hplan (e := sequence [capture 0 front, body]) ⟨hfront, hbody, trivial⟩ (checkSweep_eq_ok.2 ⟨?_, ?_⟩) _
    · change (do front.checkCounts; (seq body empty).checkCounts) = _
      simp only [checkCounts, hfront', hbody', bind, Except.bind]
    · change front.expandedSize + (body.expandedSize + 0) ≤ expansionLimit
      omega
  · exact hplan h hfits _

end Expr

/-- A source that is read as something steady is compiled within the limits. Beyond them it is nested too deeply, or may
be too large. -/
theorem compile_of_steady {source : Text} {ts : List Token} {parsed : Parsed} (hts : tokens source = .ok ts)
    (hparsed : parse source = .ok parsed) (hsteady : parsed.expr.Steady) :
    (nestingLimit ≤ nesting 0 ts → compile source = .error .tooDeep) ∧
      (nesting 0 ts < nestingLimit →
        (parsed.expr.checkSweep = .ok () → ∃ r, compile source = .ok r) ∧
          ((∃ r, compile source = .ok r) ∨ compile source = .error .tooLarge)) := by
  unfold compile
  rw [hts]
  simp only [bind, Except.bind]
  refine ⟨fun hdeep => if_pos hdeep, fun hflat => ?_⟩
  rw [if_neg (Nat.not_le.2 hflat)]
  unfold read
  rw [hparsed]
  simp only [bind, Except.bind]
  constructor
  · intro hfits
    obtain ⟨p, hp⟩ := Expr.exists_planWhole hsteady hfits
    rw [hp]
    exact ⟨_, rfl⟩
  · cases hp : parsed.expr.planWhole with
    | ok p => exact .inl ⟨_, rfl⟩
    | error x =>
      obtain rfl := Expr.planWhole_error hsteady.tame hp
      exact .inr rfl

end WordPattern.Regex
