import WordPattern.Mode
import WordPattern.Proofs.Writing.Meaning

/-! When a choice need not be reconsidered.

What follows a node either fails wherever the next character is none that may follow, or it accepts every place. This
is handed on from the end of a pattern to its start, and it is what makes a decided choice final: if the preferred way
leads nowhere, then no other way leads anywhere. -/

namespace WordPattern

open Regex

/-- What the rest of a pattern makes of a place: where the match ends, if there is one. -/
abbrev Onward := Cursor → Option Cursor

namespace Onward

/-- The rest of a pattern with a part before it. -/
def via (κ : Onward) (f : Reach) : Onward := fun p => (f p).findSome? κ

variable {κ : Onward} {f g : Reach}

theorem via_andThen : κ.via (f.andThen g) = (κ.via g).via f := by
  funext p
  exact Outcome.findSome?_flatMap g κ (f p)

theorem via_orElse (p : Cursor) : κ.via (f.orElse g) p = (κ.via f p).or (κ.via g p) := List.findSome?_append ..

theorem via_optional (p : Cursor) : κ.via f.optional p = (κ.via f p).or (κ p) := by
  unfold via Reach.optional
  rw [List.findSome?_append]
  cases h : κ p <;> simp [h]

theorem via_nil : κ.via (fun p => [p]) = κ := by
  funext p
  cases h : κ p <;> simp [via, h]

theorem via_eq_none {p : Cursor} : κ.via f p = none ↔ ∀ r ∈ f p, κ r = none := List.findSome?_eq_none_iff

def Total (κ : Onward) : Prop := ∀ p, κ p ≠ none

theorem Total.via (h : κ.Total) (hf : ∀ p, p ∈ f p) : (κ.via f).Total :=
  fun p hn => h p (via_eq_none.1 hn p (hf p))

/-- Only the preferred way through the part counts. -/
def Commits (κ : Onward) (f : Reach) : Prop := ∀ p, κ.via f p = (f p).head?.bind κ

theorem commits_of_some (h : ∀ p x, κ.via f p = some x → (f p).head?.bind κ = some x) : κ.Commits f := by
  intro p
  cases hv : κ.via f p with
  | some x => exact (h p x hv).symm
  | none =>
    rw [via_eq_none] at hv
    cases hf : f p with
    | nil => rfl
    | cons r rs => exact (hv r (by rw [hf]; exact List.mem_cons_self)).symm

theorem commits_of_unique (h : ∀ p r r', r ∈ f p → r' ∈ f p → r = r') : κ.Commits f := by
  refine commits_of_some fun p x hx => ?_
  obtain ⟨r, hr, hκ⟩ := List.exists_of_findSome?_eq_some hx
  cases hf : f p with
  | nil => simp [hf] at hr
  | cons r' rs =>
    rw [h p r r' hr (by rw [hf]; exact List.mem_cons_self)] at hκ
    exact hκ

theorem Commits.andThen (hf : (κ.via g).Commits f) (hg : κ.Commits g) : κ.Commits (f.andThen g) := by
  refine commits_of_some fun p x hx => ?_
  rw [via_andThen, hf p] at hx
  obtain ⟨r, hr, hx⟩ := Option.bind_eq_some_iff.1 hx
  rw [hg r] at hx
  obtain ⟨q, hq, hx⟩ := Option.bind_eq_some_iff.1 hx
  obtain ⟨rs, hrs⟩ := List.head?_eq_some_iff.1 hr
  obtain ⟨qs, hqs⟩ := List.head?_eq_some_iff.1 hq
  simp [Reach.andThen, hrs, hqs, hx]

end Onward

namespace Sense

open Onward

variable {σ : Sense} {A : Char → Prop} {start : Bool} {F G : NextChars} {κ : Onward} {f g : Reach}

/-! ### What follows -/

variable (σ) in
/-- The rest fails wherever the next character is none of the given ones. -/
def Dead (F : NextChars) (κ : Onward) : Prop := ∀ p, 0 < p.room .ahead → ¬ σ.Meets F p → κ p = none

variable (σ) in
/-- The rest fails wherever the next character is none of the given ones, or it accepts every place. -/
def Safe (F : NextChars) (κ : Onward) : Prop := σ.Dead F κ ∨ κ.Total

theorem Dead.mono (h : σ.Dead F κ) (hFG : ∀ p, σ.Meets F p → σ.Meets G p) : σ.Dead G κ :=
  fun p hp hn => h p hp fun hF => hn (hFG p hF)

theorem meets_ite {b : Bool} {p : Cursor} :
    σ.Meets (if b then G.union F else G) p ↔ σ.Meets G p ∨ (b = true ∧ σ.Meets F p) := by
  cases b <;> simp [meets_union]

theorem meets_follow {ns : List Node} {p : Cursor} :
    σ.Meets (Node.follow ns F) p ↔ σ.Meets (Node.follow ns .none) p ∨ (Node.allNullable ns = true ∧ σ.Meets F p) := by
  induction ns with
  | nil => simp [Node.follow, Node.allNullable, not_meets_none]
  | cons n rest ih =>
    rw [Node.follow, Node.follow, meets_ite, meets_ite, ih, Node.allNullable, Bool.and_eq_true]
    tauto

/-- A part that begins with the given characters or takes nothing. -/
theorem Dead.via {b : Bool} (hf : ∀ p, ∀ r ∈ f p, σ.Meets G p ∨ (b = true ∧ r = p)) (h : σ.Dead F κ ∨ b = false) :
    σ.Dead (if b then G.union F else G) (κ.via f) := by
  intro p hp hn
  rw [meets_ite, not_or] at hn
  refine via_eq_none.2 fun r hr => ?_
  rcases hf p r hr with hG | ⟨rfl, rfl⟩
  · exact absurd hG hn.1
  · rcases h with h | h
    · exact h r hp fun hF => hn.2 ⟨rfl, hF⟩
    · contradiction

theorem dead_reach {n : Node} (h : σ.Dead F κ ∨ n.nullable = false) :
    σ.Dead (if n.nullable then n.first.union F else n.first) (κ.via (σ.reach n)) :=
  Dead.via (fun _ _ hr => meets_of_mem_reach n hr) h

theorem dead_items {ns : List Node} (h : σ.Dead F κ ∨ Node.allNullable ns = false) :
    σ.Dead (Node.follow ns F) (κ.via (σ.items ns)) := by
  refine Dead.mono (Dead.via (fun _ _ hr => meets_of_mem_items ns hr) h) fun p hp => ?_
  rwa [meets_ite, ← meets_follow] at hp

theorem total_optionalIf {yes : Bool} (h : κ.Total) (hyes : yes = true) : (κ.via (f.optionalIf yes)).Total :=
  h.via fun _ => Reach.mem_optionalIf.2 (.inr ⟨hyes, rfl⟩)

theorem optionalIf_false (f : Reach) : f.optionalIf false = f := rfl

mutual

/-- With a node before it that is not at the start of the pattern, what accepts every place stays safe. -/
theorem safe_reach_of_total (hσ : σ.Lawful A) : (n : Node) → ∀ {F : NextChars} {κ : Onward}, Proper σ A false n →
    κ.Total → σ.Safe (if n.nullable then n.first.union F else n.first) (κ.via (σ.reach n))
  | .leaf ⟨true, _⟩ _, _, _, _, h => .inr (total_optionalIf h rfl)
  | .charClass ⟨true, _⟩ _, _, _, _, h => .inr (total_optionalIf h rfl)
  | .sequence ⟨true, _⟩ _, _, _, _, h => .inr (total_optionalIf h rfl)
  | .alternate ⟨true, _⟩ _, _, _, _, h => .inr (total_optionalIf h rfl)
  | .leaf ⟨false, _⟩ [], _, κ, _, h => by
    right
    rw [reach, optionalIf_false, text, via_nil]
    exact h
  | .leaf ⟨false, _⟩ (_ :: _), _, _, _, _ => .inl (dead_reach (.inr rfl))
  | .charClass ⟨false, _⟩ _, _, _, _, _ => .inl (dead_reach (.inr rfl))
  | .verbatim ⟨yes, position⟩ v, F, κ, hn, h => by
    cases hs : v.isSilent with
    | false =>
      left
      intro p _ hp
      rw [meets_ite, not_or] at hp
      exact absurd (by simp [Node.first, hs, Meets]) hp.1
    | true =>
      simp only [Verbatim.isSilent, Bool.or_eq_true, decide_eq_true_eq] at hs
      have hrole : v.role ≠ .pattern := by rcases hs with hs | hs <;> simp [hs]
      rw [reach, verbatim, if_neg hrole]
      cases yes with
      | true => exact .inr (total_optionalIf h rfl)
      | false =>
        rcases hs with hs | hs
        · exact absurd (hn hs) (by decide)
        · left
          intro p hp _
          rw [optionalIf_false, via, assertion, hσ.finish hs hp]
          rfl
  | .sequence ⟨false, _⟩ children, _, _, hn, h => by
    rcases safe_items_of_total hσ children hn h with hdead | htotal
    · exact .inl (hdead.mono fun p hp => meets_ite.2 (meets_follow.1 hp))
    · exact .inr htotal
  | .alternate ⟨false, _⟩ children, _, _, hn, h => safe_branches_of_total hσ children hn h

theorem safe_items_of_total (hσ : σ.Lawful A) : (ns : List Node) → ∀ {F : NextChars} {κ : Onward},
    ProperItems σ A false ns → κ.Total → σ.Safe (Node.follow ns F) (κ.via (σ.items ns))
  | [], _, κ, _, h => by
    right
    rw [items, via_nil]
    exact h
  | n :: rest, F, κ, hn, h => by
    rw [items, via_andThen, Node.follow]
    rcases safe_items_of_total hσ rest hn.2 h with hdead | htotal
    · exact .inl (dead_reach (.inl hdead))
    · exact safe_reach_of_total hσ n hn.1 htotal

theorem safe_branches_of_total (hσ : σ.Lawful A) : (ns : List Node) → ∀ {F : NextChars} {κ : Onward},
    ProperBranches σ A false ns → κ.Total →
    σ.Safe (if Node.anyNullable ns then (Node.firstOfAny ns).union F else Node.firstOfAny ns) (κ.via (σ.branches ns))
  | [], _, _, _, _ => .inl fun _ _ _ => rfl
  | n :: rest, F, κ, hn, h => by
    have hor : ∀ p, κ.via (σ.branches (n :: rest)) p = (κ.via (σ.reach n) p).or (κ.via (σ.branches rest) p) :=
      fun p => by rw [branches, via_orElse]
    rcases safe_reach_of_total hσ n (F := F) hn.1 h with hdead | htotal
    · rcases safe_branches_of_total hσ rest (F := F) hn.2 h with hdead' | htotal'
      · left
        intro p hp hmeets
        rw [hor, Option.or_eq_none_iff]
        rw [meets_ite, Node.firstOfAny, meets_union, Node.anyNullable, Bool.or_eq_true] at hmeets
        refine ⟨hdead p hp ?_, hdead' p hp ?_⟩ <;> rw [meets_ite] <;> tauto
      · right
        intro p hnone
        rw [hor, Option.or_eq_none_iff] at hnone
        exact htotal' p hnone.2
    · right
      intro p hnone
      rw [hor, Option.or_eq_none_iff] at hnone
      exact htotal p hnone.1

end

theorem safe_items (hσ : σ.Lawful A) {ns : List Node} (hn : ProperItems σ A false ns) (h : σ.Safe F κ) :
    σ.Safe (Node.follow ns F) (κ.via (σ.items ns)) := by
  rcases h with hdead | htotal
  · exact .inl (dead_items (.inl hdead))
  · exact safe_items_of_total hσ ns hn htotal

/-! ### Decided choices -/

/-- A part that the next character decides to be there or not. -/
theorem commits_optionalIf (hσ : σ.Lawful A) {yes : Bool} (hf : κ.Commits f)
    (hfirst : ∀ p, ∀ r ∈ f p, σ.Meets G p ∨ r = p) (hG : σ.Spelled A G) (hF : σ.Spelled A F)
    (hdisjoint : yes = true → G.isDisjoint F = true) (hκ : σ.Safe F κ) : κ.Commits (f.optionalIf yes) := by
  cases yes with
  | false => exact hf
  | true =>
    refine commits_of_some fun p x hx => ?_
    change κ.via f.optional p = some x at hx
    change (f p ++ [p]).head?.bind κ = some x
    rw [via_optional, hf p] at hx
    cases hp : f p with
    | nil => simpa [hp] using hx
    | cons r rs =>
      rw [hp] at hx
      cases hr : κ r with
      | some y => simpa [hr] using hx
      | none =>
        -- then skipping the part does not help
        exfalso
        have hκp : κ p = some x := by simpa [hr] using hx
        rcases hfirst p r (by rw [hp]; exact List.mem_cons_self) with hG' | rfl
        · have hnot := not_meets_of_isDisjoint hσ hG hF (hdisjoint rfl) hG'
          rcases hκ with hdead | htotal
          · have hroom : 0 < p.room .ahead := by
              cases G with
              | any => exact absurd (hdisjoint rfl) (by simp [NextChars.isDisjoint])
              | chars cs =>
                obtain ⟨c, -, d, q, hstep, -⟩ := hG'
                have := Cursor.step?_room hstep
                omega
            rw [hdead p hroom hnot] at hκp
            contradiction
          · exact htotal r hr
        · rw [hr] at hκp
          contradiction

theorem unique_past {test : Char → Bool} {p r r' : Cursor} (h : r ∈ p.past .ahead test) (h' : r' ∈ p.past .ahead test) :
    r = r' := by
  obtain ⟨c, hc, -⟩ := Cursor.mem_past.1 h
  obtain ⟨c', hc', -⟩ := Cursor.mem_past.1 h'
  exact (Prod.mk.inj (Option.some.inj (hc.symm.trans hc'))).2

theorem unique_text (t : Text) {p r r' : Cursor} (h : r ∈ σ.text t p) (h' : r' ∈ σ.text t p) : r = r' := by
  induction t generalizing p with
  | nil => exact (List.mem_singleton.1 h).trans (List.mem_singleton.1 h').symm
  | cons c t ih =>
    obtain ⟨q, hq, hr⟩ := List.mem_flatMap.1 h
    obtain ⟨q', hq', hr'⟩ := List.mem_flatMap.1 h'
    obtain rfl := unique_past hq hq'
    exact ih hr hr'

theorem mem_branches {ns : List Node} {p r : Cursor} : r ∈ σ.branches ns p ↔ ∃ n ∈ ns, r ∈ σ.reach n p := by
  induction ns with
  | nil => simp [branches]
  | cons n rest ih => simp [branches, Reach.orElse, ih]

theorem proper_of_mem {ns : List Node} (h : ProperBranches σ A start ns) : ∀ n ∈ ns, Proper σ A start n := by
  induction ns with
  | nil => simp
  | cons m rest ih =>
    intro n hn
    rcases List.mem_cons.1 hn with rfl | hn
    · exact h.1
    · exact ih h.2 n hn

theorem isDisjoint_union {F G H : NextChars} :
    (F.union G).isDisjoint H = true ↔ F.isDisjoint H = true ∧ G.isDisjoint H = true := by
  cases F <;> cases G <;> cases H <;> simp [NextChars.union, NextChars.isDisjoint]

/-- Branches begin unlike those before. -/
theorem disjoint_of_branchesDecided {ns : List Node} {seen : NextChars} (h : Node.branchesDecided F seen ns = true) :
    ∀ m ∈ ns, seen.isDisjoint m.first = true ∧ m.nullable = false := by
  induction ns generalizing seen with
  | nil => simp
  | cons n rest ih =>
    simp only [Node.branchesDecided, Bool.and_eq_true, Bool.not_eq_true'] at h
    intro m hm
    rcases List.mem_cons.1 hm with rfl | hm
    · exact ⟨h.1.1.1.2, h.1.1.1.1⟩
    · obtain ⟨hd, hn⟩ := ih h.2 m hm
      exact ⟨(isDisjoint_union.1 hd).1, hn⟩

theorem commits_orElse (hf : κ.Commits f) (hg : κ.Commits g) (h : ∀ p, f p ≠ [] → g p = []) :
    κ.Commits (f.orElse g) := by
  intro p
  rw [via_orElse, hf p, hg p, Reach.orElse]
  by_cases hp : f p = []
  · simp [hp]
  · simp [h p hp]

theorem presence {n : Node} (h : n.presenceDecided F = true) : n.mark.optional = true → n.first.isDisjoint F = true := by
  intro hm
  simpa [Node.presenceDecided, hm] using h

mutual

/-- A node that can be closed has one way that counts. -/
theorem commits_reach (hσ : σ.Lawful A) : (n : Node) → ∀ {start : Bool} {F : NextChars} {κ : Onward},
    Proper σ A start n → σ.Safe F κ → σ.Spelled A F → n.closable F = true →
    κ.Commits (σ.reach n)
  | .leaf m t, _, F, κ, hn, hκ, hF, hc => by
    obtain ⟨hp, -⟩ := Bool.and_eq_true_iff.1 hc
    exact commits_optionalIf hσ (commits_of_unique fun _ _ _ => unique_text t)
      (fun p r hr => (meets_of_mem_text hr).imp_right (·.2)) (spelled_first (.leaf m t) hn) hF (presence hp) hκ
  | .charClass m cls, _, F, κ, hn, hκ, hF, hc => by
    obtain ⟨hp, -⟩ := Bool.and_eq_true_iff.1 hc
    exact commits_optionalIf hσ (commits_of_unique fun _ _ _ => unique_past)
      (fun p r hr => .inl (meets_of_mem_charClass hr)) hn hF (presence hp) hκ
  | .verbatim m v, _, F, κ, _, _, _, hc => by
    obtain ⟨-, hd⟩ := Bool.and_eq_true_iff.1 hc
    have hv : v.role ≠ .pattern := by simpa [Node.decided] using hd
    exact commits_of_unique fun p r r' hr hr' => (mem_verbatim hv hr).trans (mem_verbatim hv hr').symm
  | .sequence m children, _, F, κ, hn, hκ, hF, hc => by
    obtain ⟨hp, hd⟩ := Bool.and_eq_true_iff.1 hc
    exact commits_optionalIf hσ (commits_items hσ children hn hκ hF hd)
      (fun p r hr => (meets_of_mem_items children hr).imp_right (·.2)) (spelled_first (.sequence m children) hn) hF
      (presence hp) hκ
  | .alternate m children, _, F, κ, hn, hκ, hF, hc => by
    obtain ⟨hp, hd⟩ := Bool.and_eq_true_iff.1 hc
    exact commits_optionalIf hσ (commits_branches hσ children hn hκ hF hd)
      (fun p r hr => (meets_of_mem_branches children hr).imp_right (·.2)) (spelled_first (.alternate m children) hn) hF
      (presence hp) hκ

theorem commits_items (hσ : σ.Lawful A) : (ns : List Node) → ∀ {start : Bool} {F : NextChars} {κ : Onward},
    ProperItems σ A start ns → σ.Safe F κ → σ.Spelled A F →
    Node.itemsDecided F ns = true → κ.Commits (σ.items ns)
  | [], _, _, _, _, _, _, _ => commits_of_unique fun _ _ _ h h' =>
      (List.mem_singleton.1 h).trans (List.mem_singleton.1 h').symm
  | n :: rest, start, F, κ, hn, hκ, hF, hd => by
    rw [Node.itemsDecided, Bool.and_eq_true] at hd
    exact (commits_reach hσ n hn.1 (safe_items hσ hn.2 hκ) (spelled_follow rest hn.2 hF) hd.1).andThen
      (commits_items hσ rest hn.2 hκ hF hd.2)

theorem commits_branches (hσ : σ.Lawful A) : (ns : List Node) → ∀ {start : Bool} {F seen : NextChars} {κ : Onward},
    ProperBranches σ A start ns → σ.Safe F κ → σ.Spelled A F →
    Node.branchesDecided F seen ns = true → κ.Commits (σ.branches ns)
  | [], _, _, _, _, _, _, _, _ => fun _ => rfl
  | n :: rest, start, F, seen, κ, hn, hκ, hF, hd => by
    simp only [Node.branchesDecided, Bool.and_eq_true, Bool.not_eq_true'] at hd
    obtain ⟨⟨⟨⟨hnull, -⟩, hp⟩, hdec⟩, hrest⟩ := hd
    refine commits_orElse (commits_reach hσ n hn.1 hκ hF (Bool.and_eq_true_iff.2 ⟨hp, hdec⟩))
      (commits_branches hσ rest hn.2 hκ hF hrest) fun p hne => ?_
    -- what begins like this branch begins like no later one
    obtain ⟨r, hr⟩ := List.exists_mem_of_ne_nil _ hne
    have hmeets : σ.Meets n.first p := (meets_of_mem_reach n hr).resolve_right fun h => by
      rw [hnull] at h
      exact absurd h.1 (by decide)
    rw [List.eq_nil_iff_forall_not_mem]
    intro s hs
    obtain ⟨m, hm, hs⟩ := mem_branches.1 hs
    obtain ⟨hdisjoint, hnullm⟩ := disjoint_of_branchesDecided hrest m hm
    refine not_meets_of_isDisjoint hσ (spelled_first n hn.1) (spelled_first m (proper_of_mem hn.2 m hm))
      (isDisjoint_union.1 hdisjoint).2 hmeets ?_
    refine (meets_of_mem_reach m hs).resolve_right fun h => ?_
    rw [hnullm] at h
    exact absurd h.1 (by decide)

end

/-! ### Two ways to write the same -/

variable (σ) in
/-- Before what may follow, `g` does as well as `f`; where all choices are left open, before anything. -/
def Agrees (mode : Mode) (F : NextChars) (f g : Reach) : Prop :=
  ∀ κ : Onward, (mode = .possessive → σ.Safe F κ) → ∀ p, κ.via g p = κ.via f p

variable {mode : Mode} {f' g' : Reach}

theorem Agrees.refl (f : Reach) : σ.Agrees mode F f f := fun _ _ _ => rfl

theorem via_some (f : Reach) (p : Cursor) : via some f p = (f p).head? := by
  unfold via
  cases f p <;> rfl

/-- The preferred way is the same. -/
theorem Agrees.head_eq (h : σ.Agrees mode F f g) (p : Cursor) : (g p).head? = (f p).head? := by
  rw [← via_some, ← via_some]
  exact h some (fun _ => .inr fun _ => by simp) p

theorem Agrees.andThen (h : σ.Agrees mode G f g) (h' : σ.Agrees mode F f' g')
    (hsafe : ∀ κ : Onward, mode = .possessive → σ.Safe F κ → σ.Safe G (κ.via f')) :
    σ.Agrees mode F (f.andThen f') (g.andThen g') := by
  intro κ hκ p
  have heq : κ.via g' = κ.via f' := funext fun q => h' κ hκ q
  rw [via_andThen, via_andThen, heq]
  exact h (κ.via f') (fun hm => hsafe κ hm (hκ hm)) p

theorem Agrees.orElse (h : σ.Agrees mode F f g) (h' : σ.Agrees mode F f' g') :
    σ.Agrees mode F (f.orElse f') (g.orElse g') := by
  intro κ hκ p
  rw [via_orElse, via_orElse, h κ hκ p, h' κ hκ p]

theorem Agrees.optional (h : σ.Agrees mode F f g) : σ.Agrees mode F f.optional g.optional := by
  intro κ hκ p
  rw [via_optional, via_optional, h κ hκ p]

theorem head_preferred (f : Reach) (p : Cursor) : (f.preferred p).head? = (f p).head? := by
  unfold Reach.preferred
  cases f p <;> rfl

theorem via_preferred (f : Reach) (p : Cursor) : κ.via f.preferred p = (f p).head?.bind κ := by
  unfold via Reach.preferred
  cases f p with
  | nil => rfl
  | cons r rs => cases h : κ r <;> simp [h]

/-- Only the preferred way is kept, and no other counts. -/
theorem agrees_preferred (hhead : ∀ p, (g p).head? = (f p).head?)
    (h : ∀ κ : Onward, (mode = .possessive → σ.Safe F κ) → κ.Commits f) : σ.Agrees mode F f g.preferred := by
  intro κ hκ p
  rw [via_preferred, hhead, h κ hκ p]

end Sense

end WordPattern
