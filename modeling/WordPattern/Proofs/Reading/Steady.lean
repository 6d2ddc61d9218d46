import WordPattern.Proofs.Reading.Items
import WordPattern.Proofs.Reading.Moves

/-! Sources that cannot be refused once they have been read, but for their size: their counts are in order and not zero,
and nothing looks behind. -/

namespace WordPattern.Regex

/-- A token that brings nothing that could be refused later. -/
def Token.Steady : Token → Prop
  | .count _ low high => low ≤ high.getD low ∧ high ≠ some 0
  | .opening (.look direction _) => direction = .ahead
  | _ => True

theorem Token.Steady.bounds {t : Token} {low : Nat} {high : Option Nat} (ht : t.Steady) (h : t.bounds? = some (low, high)) :
    low ≤ high.getD low ∧ high ≠ some 0 := by
  cases t with
  | star | plus | question | count =>
    obtain ⟨rfl, rfl⟩ := Prod.mk.inj (Option.some.inj h)
    first | exact ht | simp
  | _ => contradiction

namespace Expr

/-- A tame expression all of whose repeats have a round, so that no part of it is larger than the whole. -/
def Steady : Expr → Prop
  | seq first rest | alt first rest => first.Steady ∧ rest.Steady
  | rounds low high _ body => (low ≤ high.getD low ∧ high ≠ some 0) ∧ body.Steady
  | capture _ body | atomic body => body.Steady
  | look direction _ body => direction = .ahead ∧ body.Steady
  | _ => True

theorem Steady.tame {e : Expr} (h : e.Steady) : e.Tame := by
  induction e with
  | seq first rest ih ih' | alt first rest ih ih' => exact ⟨ih h.1, ih' h.2⟩
  | rounds low high greedy body ih => exact ⟨h.1.1, ih h.2⟩
  | capture group body ih | atomic body ih => exact ih h
  | look direction negated body ih => exact ⟨h.1, ih h.2⟩
  | empty | fail | char | set | anyChar | anchor | backref => trivial

theorem steady_sequence {es : List Expr} (h : ∀ e ∈ es, e.Steady) : (sequence es).Steady := by
  have hfold : ∀ es : List Expr, (∀ e ∈ es, e.Steady) → (es.foldr seq empty).Steady := by
    intro es h
    induction es with
    | nil => trivial
    | cons e es ih =>
      obtain ⟨he, hes⟩ := List.forall_mem_cons.1 h
      exact ⟨he, ih hes⟩
  unfold sequence
  split
  · trivial
  · exact h _ List.mem_cons_self
  · exact hfold _ h

theorem steady_choice {bs : List Expr} (h : ∀ b ∈ bs, b.Steady) : (choice bs).Steady := by
  have hfold : ∀ bs : List Expr, (∀ b ∈ bs, b.Steady) → (bs.foldr alt fail).Steady := by
    intro bs h
    induction bs with
    | nil => trivial
    | cons b bs ih =>
      obtain ⟨hb, hbs⟩ := List.forall_mem_cons.1 h
      exact ⟨hb, ih hbs⟩
  unfold choice
  split
  · trivial
  · exact h _ List.mem_cons_self
  · exact hfold _ h

end Expr

structure Frame.Steady (f : Frame) : Prop where
  kind : ∀ negated, f.kind ≠ .look .behind negated
  items : ∀ e ∈ f.items, e.Steady
  branches : ∀ b ∈ f.branches, b.Steady

theorem Frame.Steady.branch {f : Frame} (h : f.Steady) : f.branch.Steady :=
  Expr.steady_sequence fun e he => h.items e (List.mem_reverse.1 he)

theorem Frame.Steady.body {f : Frame} (h : f.Steady) : f.body.Steady := by
  apply Expr.steady_choice
  intro b hb
  rcases List.mem_cons.1 (List.mem_reverse.1 hb) with rfl | hb
  · exact h.branch
  · exact h.branches b hb

theorem Frame.Steady.wrap {f : Frame} (h : f.Steady) : (f.kind.wrap f.body).Steady := by
  have hbody := h.body
  cases hkind : f.kind with
  | plain | capture | atomic => exact hbody
  | look direction negated =>
    cases direction with
    | ahead => exact ⟨rfl, hbody⟩
    | behind => exact absurd hkind (h.kind negated)

theorem Frame.steady_start {kind : GroupKind} (h : ∀ negated, kind ≠ .look .behind negated) (flags : Flags) :
    (Frame.start kind flags).Steady :=
  ⟨h, fun _ he => absurd he List.not_mem_nil, fun _ hb => absurd hb List.not_mem_nil⟩

namespace ParseState

/-- Nothing that has been read can be refused later. -/
def Steady (s : ParseState) : Prop := s.top.Steady ∧ ∀ f ∈ s.around, f.Steady

variable {s s' : ParseState} {t : Token}

theorem steady_push (hs : s.Steady) {e : Expr} (he : e.Steady) : (s.push e).Steady := by
  obtain ⟨⟨hkind, hitems, hbranches⟩, haround⟩ := hs
  refine ⟨⟨hkind, ?_, hbranches⟩, haround⟩
  simp only [push, modifyTop]
  split_ifs
  · exact hitems
  · exact List.forall_mem_cons.2 ⟨he, hitems⟩

theorem steady_changeLast (hs : s.Steady) (tail : Tail) {g : Expr → Expr} (hg : ∀ e : Expr, e.Steady → (g e).Steady) :
    (s.changeLast tail g).Steady := by
  obtain ⟨⟨hkind, hitems, hbranches⟩, haround⟩ := hs
  refine ⟨⟨hkind, ?_, hbranches⟩, haround⟩
  simp only [changeLast, modifyTop]
  cases hlist : s.top.items with
  | nil => exact fun _ he => absurd he List.not_mem_nil
  | cons e es =>
    rw [hlist] at hitems
    obtain ⟨he, hes⟩ := List.forall_mem_cons.1 hitems
    exact List.forall_mem_cons.2 ⟨hg e he, hes⟩

theorem steady_repeatLast (hs : s.Steady) {low : Nat} {high : Option Nat} (h : low ≤ high.getD low ∧ high ≠ some 0) :
    (s.repeatLast low high).Steady :=
  steady_changeLast hs .repeated fun _ he => ⟨h, he⟩

theorem steady_makeLazy (hs : s.Steady) : s.makeLazy.Steady := by
  refine steady_changeLast hs .lazy fun e he => ?_
  cases e <;> exact he

theorem steady_openGroup (hs : s.Steady) {kind : GroupKind} (h : ∀ negated, kind ≠ .look .behind negated)
    (change : FlagChange) : (s.openGroup kind change).Steady :=
  ⟨Frame.steady_start h s.flags, List.forall_mem_cons.2 hs⟩

theorem steady_closeGroup (hs : s.Steady) (h : s.closeGroup = .ok s') : s'.Steady := by
  unfold closeGroup at h
  split at h
  · contradiction
  · rename_i outer around haround
    obtain ⟨htop, houter⟩ := hs
    rw [haround] at houter
    obtain rfl := Except.ok.inj h
    apply steady_push
    · exact List.forall_mem_cons.1 houter
    · exact htop.wrap

theorem steady_endBranch (hs : s.Steady) : s.endBranch.Steady := by
  obtain ⟨htop, haround⟩ := hs
  exact ⟨⟨htop.kind, fun _ he => absurd he List.not_mem_nil, List.forall_mem_cons.2 ⟨htop.branch, htop.branches⟩⟩, haround⟩

theorem steady_item {φ : Flags} {e : Expr} (h : tokenItem? φ t = some e) : e.Steady := by
  cases t with
  | char | named | set | dot | caret | dollar | anchor =>
    obtain rfl := Option.some.inj h
    trivial
  | beforeFinalNewlines =>
    obtain rfl := Option.some.inj h
    exact ⟨rfl, ⟨⟨Nat.le_refl 0, by simp⟩, trivial⟩, trivial, trivial⟩
  | _ => contradiction

theorem steady_opening (hs : s.Steady) {o : Opening} (ho : (Token.opening o).Steady) (h : s.step (.opening o) = .ok s') :
    s'.Steady := by
  cases o with
  | capture | named | atomic =>
    obtain rfl := Except.ok.inj h
    exact steady_openGroup hs (fun _ => by simp) {}
  | plain change =>
    obtain rfl := Except.ok.inj h
    exact steady_openGroup hs (fun _ => by simp) change
  | look direction negated =>
    obtain rfl := Except.ok.inj h
    obtain rfl : direction = .ahead := ho
    exact steady_openGroup hs (fun _ => by simp) {}

theorem steady_move (hs : s.Steady) (ht : t.Steady) (h : Move s t s') : s'.Steady := by
  cases h with
  | item h => exact steady_push hs (steady_item h)
  | backref => exact steady_push hs trivial
  | opening h => exact steady_opening hs ht h
  | flags =>
    obtain ⟨⟨hkind, hitems, hbranches⟩, haround⟩ := hs
    exact ⟨⟨hkind, hitems, hbranches⟩, haround⟩
  | close h => exact steady_closeGroup hs h
  | bar => exact steady_endBranch hs
  | again hbounds => exact steady_repeatLast hs (ht.bounds hbounds)
  | lazy => exact steady_makeLazy hs
  | possessive => exact steady_changeLast hs .closed fun _ he => he
  | chars => exact chars_induction (P := Steady) (fun _ _ _ hs => steady_push hs trivial) _ hs

end ParseState

open ParseState

/-- A source with steady tokens is read as something steady. -/
theorem steady_parse {source : Text} {ts : List Token} {parsed : Parsed} (hts : tokens source = .ok ts)
    (hsteady : ∀ t ∈ ts, t.Steady) (h : parse source = .ok parsed) : parsed.expr.Steady := by
  obtain ⟨s, hs, -, rfl⟩ := steps_of_parse hts h
  have hstart : ParseState.start.Steady := ⟨Frame.steady_start (fun _ => by simp) {}, fun _ hf => absurd hf List.not_mem_nil⟩
  obtain ⟨htop, -⟩ := steps_induction (fun ht hmove hs => steady_move hs (hsteady _ ht) hmove) hstart hs
  exact htop.body

end WordPattern.Regex
