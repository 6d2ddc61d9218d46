import Mathlib.Data.List.Basic
import Mathlib.Tactic.SplitIfs
import WordPattern.Regex.Parser

/-! What the tokens of a fragment add to the group that is being read.

Only the flags in force decide how a fragment is read: it adds one item, some items, or the branches of a group. What is
known of that is a property of the expressions added. Where the reading is strict it cannot fail; otherwise a fragment
may be refused, as a look is by a repeat. -/

namespace WordPattern.Regex

namespace ParseState

/-- A state differs from another one at most in the groups that have been met. -/
structure Same (s s' : ParseState) : Prop where
  flags : s'.flags = s.flags
  top : s'.top = s.top
  around : s'.around = s.around

/-- A state is as another one, with more items in the branch that is being read. -/
structure Grown (s s' : ParseState) (es : List Expr) : Prop where
  flags : s'.flags = s.flags
  around : s'.around = s.around
  kind : s'.top.kind = s.top.kind
  outerFlags : s'.top.outerFlags = s.top.outerFlags
  branches : s'.top.branches = s.top.branches
  items : s'.top.items = es.reverse ++ s.top.items

theorem Same.refl (s : ParseState) : Same s s := ⟨rfl, rfl, rfl⟩

theorem Grown.refl (s : ParseState) : Grown s s [] := ⟨rfl, rfl, rfl, rfl, rfl, rfl⟩

theorem Grown.trans {s s' s'' : ParseState} {es fs : List Expr} (h : Grown s s' es) (h' : Grown s' s'' fs) :
    Grown s s'' (es ++ fs) where
  flags := h'.flags.trans h.flags
  around := h'.around.trans h.around
  kind := h'.kind.trans h.kind
  outerFlags := h'.outerFlags.trans h.outerFlags
  branches := h'.branches.trans h.branches
  items := by rw [h'.items, h.items, List.reverse_append, List.append_assoc]

theorem Grown.items_unique {s s' : ParseState} {es fs : List Expr} (h : Grown s s' es) (h' : Grown s s' fs) : es = fs :=
  List.reverse_injective (List.append_cancel_right (h.items.symm.trans h'.items))

theorem Same.grown {s s₁ s₂ : ParseState} (h : Same s s₁) {es : List Expr} (h' : Grown s₁ s₂ es) : Grown s s₂ es where
  flags := h'.flags.trans h.flags
  around := h'.around.trans h.around
  kind := by rw [h'.kind, h.top]
  outerFlags := by rw [h'.outerFlags, h.top]
  branches := by rw [h'.branches, h.top]
  items := by rw [h'.items, h.top]

/-- The items that an expression makes. -/
def itemOf (e : Expr) : List Expr := if e = .empty then [] else [e]

theorem itemOf_empty : itemOf .empty = [] := if_pos rfl

theorem itemOf_of_ne {e : Expr} (h : e ≠ .empty) : itemOf e = [e] := if_neg h

theorem ne_empty_of_isRepeatable {e : Expr} (h : e.isRepeatable = true) : e ≠ .empty := by
  rintro rfl
  contradiction

theorem grown_push (s : ParseState) (e : Expr) : Grown s (s.push e) (itemOf e) where
  flags := rfl
  around := rfl
  kind := rfl
  outerFlags := rfl
  branches := rfl
  items := by
    simp only [push, modifyTop, itemOf]
    split_ifs <;> rfl

theorem tail_push (s : ParseState) (e : Expr) : (s.push e).top.tail = if e.isRepeatable then .item else .rigid := rfl

/-- A repeatable item, repeated so many times. -/
theorem grown_repeatLast (s : ParseState) {e : Expr} (h : e.isRepeatable = true) (low : Nat) (high : Option Nat) :
    Grown s ((s.push e).repeatLast low high) [.rounds low high true e] :=
  ⟨rfl, rfl, rfl, rfl, rfl, by simp [push, modifyTop, repeatLast, changeLast, ne_empty_of_isRepeatable h]⟩

theorem grown_makePossessive {s s' : ParseState} {e : Expr} (h : Grown s s' [e]) : Grown s s'.makePossessive [.atomic e] :=
  ⟨h.flags, h.around, h.kind, h.outerFlags, h.branches, by simp [makePossessive, changeLast, modifyTop, h.items]⟩

end ParseState

open ParseState

/-- The reading of some tokens from a state: it goes on as described, or the tokens are refused, if they may be. -/
def Reading (strict : Prop) (s : ParseState) (ts : List Token) (good : ParseState → Prop) : Prop :=
  (∃ s', s.steps ts = .ok s' ∧ good s') ∨ (¬ strict ∧ ∃ x, s.steps ts = .error x)

/-- With some flags in force, the tokens are read as one item. -/
def ReadsOne (strict : Prop) (φ : Flags) (ts : List Token) (P : Expr → Prop) : Prop :=
  ∀ s : ParseState, s.flags = φ → Reading strict s ts fun s' => ∃ s₁ e, s' = s₁.push e ∧ Same s s₁ ∧ P e

def ReadsMany (strict : Prop) (φ : Flags) (ts : List Token) (P : List Expr → Prop) : Prop :=
  ∀ s : ParseState, s.flags = φ → Reading strict s ts fun s' => ∃ es, Grown s s' es ∧ P es

/-- With some flags in force, the tokens are refused from every state, as they may be. -/
def Refused (strict : Prop) (φ : Flags) (ts : List Token) : Prop :=
  ¬ strict ∧ ∀ s : ParseState, s.flags = φ → ∃ x, s.steps ts = .error x

section Reading

variable {strict : Prop} {φ φ' : Flags} {ts us : List Token}

/-- One reading after the other. -/
theorem Reading.append {s : ParseState} {good good' : ParseState → Prop} (h : Reading strict s ts good)
    (h' : ∀ s', good s' → Reading strict s' us good') : Reading strict s (ts ++ us) good' := by
  unfold Reading
  rw [steps_append]
  rcases h with ⟨s', hs, hg⟩ | ⟨hn, x, hx⟩
  · rw [hs]
    exact h' s' hg
  · exact .inr ⟨hn, x, by rw [hx]; rfl⟩

theorem Reading.mono {s : ParseState} {good good' : ParseState → Prop} (h : Reading strict s ts good)
    (hg : ∀ s', good s' → good' s') : Reading strict s ts good' :=
  h.imp_left fun ⟨s', hs, h⟩ => ⟨s', hs, hg s' h⟩

theorem Reading.of_step {s s' : ParseState} {t : Token} {good : ParseState → Prop} (h : s.step t = .ok s')
    (hg : good s') : Reading strict s [t] good :=
  .inl ⟨s', by simp [steps, h, bind, Except.bind], hg⟩

section Items

variable {P Q : Expr → Prop} {Ps Qs Rs : List Expr → Prop}

theorem readsMany_nil (h : Ps []) : ReadsMany strict φ [] Ps := fun s _ => .inl ⟨s, rfl, [], .refl s, h⟩

theorem ReadsMany.mono (h : ReadsMany strict φ ts Ps) (hQ : ∀ es, Ps es → Qs es) : ReadsMany strict φ ts Qs :=
  fun s hs => (h s hs).mono fun _ ⟨es, hgrown, hP⟩ => ⟨es, hgrown, hQ es hP⟩

theorem ReadsMany.append (h : ReadsMany strict φ ts Ps) (h' : ReadsMany strict φ us Qs)
    (hR : ∀ es fs, Ps es → Qs fs → Rs (es ++ fs)) : ReadsMany strict φ (ts ++ us) Rs := by
  intro s hs
  refine (h s hs).append ?_
  rintro s' ⟨es, hgrown, hP⟩
  refine (h' s' (hgrown.flags.trans hs)).mono ?_
  rintro s'' ⟨fs, hgrown', hQ⟩
  exact ⟨es ++ fs, hgrown.trans hgrown', hR es fs hP hQ⟩

theorem ReadsOne.many (h : ReadsOne strict φ ts P) (hQ : ∀ e, P e → Qs (itemOf e)) : ReadsMany strict φ ts Qs := by
  intro s hs
  refine (h s hs).mono ?_
  rintro s' ⟨s₁, e, rfl, hsame, hP⟩
  exact ⟨itemOf e, hsame.grown (grown_push s₁ e), hQ e hP⟩

/-- A token that is always read as the same item. -/
theorem readsOne_of_step {t : Token} {e : Expr} (h : ∀ s : ParseState, s.flags = φ → s.step t = .ok (s.push e))
    (he : P e) : ReadsOne strict φ [t] P :=
  fun s hs => .of_step (h s hs) ⟨s, e, rfl, .refl s, he⟩

/-! ### Repeats -/

/-- What follows an item and changes it. -/
theorem ReadsOne.changed (h : ReadsOne strict φ ts P) {marks : List Token} (change : Expr → Expr)
    (hsteps : ∀ (s : ParseState) (e : Expr), e.isRepeatable = true →
      ∃ s', (s.push e).steps marks = .ok s' ∧ Grown s s' [change e])
    (hrigid : ∀ (s : ParseState) (e : Expr), e.isRepeatable = false → ∃ x, (s.push e).steps marks = .error x)
    (hrepeat : strict → ∀ e, P e → e.isRepeatable = true) (hQ : ∀ e, P e → Qs [change e]) :
    ReadsMany strict φ (ts ++ marks) Qs := by
  intro s hs
  refine (h s hs).append ?_
  rintro s' ⟨s₁, e, rfl, hsame, hP⟩
  cases hr : e.isRepeatable with
  | false =>
    refine .inr ⟨fun hstrict => ?_, hrigid s₁ e hr⟩
    rw [hrepeat hstrict e hP] at hr
    contradiction
  | true =>
    obtain ⟨s', hok, hgrown⟩ := hsteps s₁ e hr
    exact .inl ⟨s', hok, [change e], hsame.grown hgrown, hQ e hP⟩

theorem ReadsOne.question (h : ReadsOne strict φ ts P) (hrepeat : strict → ∀ e, P e → e.isRepeatable = true)
    (hQ : ∀ e, P e → Qs [.rounds 0 (some 1) true e]) : ReadsMany strict φ (ts ++ [.question]) Qs := by
  refine h.changed (.rounds 0 (some 1) true) ?_ ?_ hrepeat hQ
  · intro s e he
    exact ⟨_, by simp [steps, step, tail_push, he, bind, Except.bind], grown_repeatLast s he 0 (some 1)⟩
  · intro s e he
    exact ⟨.nothingToRepeat, by simp [steps, step, tail_push, he, bind, Except.bind]⟩

theorem ReadsOne.possessiveQuestion (h : ReadsOne strict φ ts P) (hrepeat : strict → ∀ e, P e → e.isRepeatable = true)
    (hQ : ∀ e, P e → Qs [.atomic (.rounds 0 (some 1) true e)]) : ReadsMany strict φ (ts ++ [.question, .plus]) Qs := by
  refine h.changed (fun e => .atomic (.rounds 0 (some 1) true e)) ?_ ?_ hrepeat hQ
  · intro s e he
    refine ⟨((s.push e).repeatLast 0 (some 1)).makePossessive, ?_, grown_makePossessive (grown_repeatLast s he 0 (some 1))⟩
    have htail : ((s.push e).repeatLast 0 (some 1)).top.tail = .repeated := rfl
    simp [steps, step, tail_push, he, bind, Except.bind, htail]
  · intro s e he
    exact ⟨.nothingToRepeat, by simp [steps, step, tail_push, he, bind, Except.bind]⟩

theorem ReadsOne.count (h : ReadsOne strict φ ts P) (source : Text) (k : Nat)
    (hrepeat : strict → ∀ e, P e → e.isRepeatable = true) (hQ : ∀ e, P e → Qs [.rounds k (some k) true e]) :
    ReadsMany strict φ (ts ++ [.count source k (some k)]) Qs := by
  refine h.changed (.rounds k (some k) true) ?_ ?_ hrepeat hQ
  · intro s e he
    exact ⟨_, by simp [steps, step, tail_push, he, bind, Except.bind], grown_repeatLast s he k (some k)⟩
  · intro s e he
    exact ⟨.nothingToRepeat, by simp [steps, step, tail_push, he, bind, Except.bind]⟩

/-! ### Single tokens -/

/-- A state in which a repeat would change the last item. -/
def beforeRepeat (φ : Flags) : ParseState := ⟨φ, ⟨.plain, {}, [], [.fail], .item⟩, [], 0, [], []⟩

theorem not_grown_repeatLast {low : Nat} {high : Option Nat} {es : List Expr} :
    ¬ Grown (beforeRepeat φ) ((beforeRepeat φ).repeatLast low high) es := by
  intro h
  have := h.items
  have hlen := congrArg List.length this
  cases es with
  | nil => simp [beforeRepeat, repeatLast, changeLast, modifyTop] at this
  | cons e es => simp [beforeRepeat, repeatLast, changeLast, modifyTop] at hlen

/-- The item that a token is read as, if it is read as one by itself. -/
def tokenItem? (φ : Flags) : Token → Option Expr
  | .char c => some (.char c φ.ignoreCase)
  | .named set negated => some (.set ⟨[.named set false], negated, φ.ignoreCase⟩)
  | .set negated items => some (.set ⟨items, negated, φ.ignoreCase⟩)
  | .dot => some (.anyChar φ.dotAll)
  | .caret => some (.anchor (if φ.multiline then .lineStart else .textStart))
  | .dollar => some (.anchor (if φ.multiline then .lineEnd else .textEnd))
  | .anchor a => some (.anchor a)
  | .beforeFinalNewlines => some .beforeFinalNewlines
  | _ => none

theorem step_of_tokenItem? {s : ParseState} {t : Token} {e : Expr} (h : tokenItem? s.flags t = some e) :
    s.step t = .ok (s.push e) := by
  cases t with
  | char | named | set | dot | caret | dollar | anchor | beforeFinalNewlines =>
    obtain rfl := Option.some.inj h
    rfl
  | _ => contradiction

/-- A single token that is read as items is read as one item. -/
theorem ReadsMany.one_of_token {t : Token} (h : ReadsMany strict φ [t] Ps) (hQ : ∀ e, Ps (itemOf e) → Q e) :
    ReadsOne strict φ [t] Q := by
  -- a repeat would change an item that stands before it
  have hrepeat : ∀ low high, (beforeRepeat φ).step t ≠ .ok ((beforeRepeat φ).repeatLast low high) := by
    intro low high hs
    rcases h (beforeRepeat φ) rfl with ⟨s', hok, es, hgrown, -⟩ | ⟨-, x, hx⟩
    · simp only [steps, hs, bind, Except.bind, Except.ok.injEq] at hok
      exact not_grown_repeatLast (hok ▸ hgrown)
    · simp [steps, hs, bind, Except.bind] at hx
  intro s hs
  rcases h s hs with ⟨s', hok, es, hgrown, hP⟩ | hbad
  · have hstep : s.step t = .ok s' := by
      simp only [steps] at hok
      cases hs' : s.step t with
      | error x => simp [hs', bind, Except.bind] at hok
      | ok s'' => simpa [hs', bind, Except.bind] using hok
    refine .inl ⟨s', hok, ?_⟩
    cases hitem : tokenItem? φ t with
    | some e =>
      obtain rfl : s' = s.push e := by
        rw [← hs] at hitem
        exact Except.ok.inj (hstep.symm.trans (step_of_tokenItem? hitem))
      obtain rfl : es = itemOf e := hgrown.items_unique (grown_push s e)
      exact ⟨s, e, rfl, .refl s, hQ e hP⟩
    | none =>
      cases t with
      | opening o =>
        exfalso
        have := congrArg List.length hgrown.around
        cases o <;> obtain rfl := Except.ok.inj hstep <;> simp [openCapture, openGroup] at this
      | flags change =>
        obtain rfl := Except.ok.inj hstep
        have hes : es = [] := by simpa [modifyTop] using hgrown.items
        subst hes
        refine ⟨s, .empty, ?_, .refl s, hQ .empty hP⟩
        have hflags : s.flags.apply change = s.flags := hgrown.flags
        simp [push, modifyTop, hflags, Expr.isRepeatable]
      | close =>
        exfalso
        simp only [step, closeGroup] at hstep
        split at hstep
        · contradiction
        · rename_i outer around hs
          obtain rfl := Except.ok.inj hstep
          have := congrArg List.length hgrown.around
          simp [push, modifyTop, hs] at this
      | bar =>
        exfalso
        obtain rfl := Except.ok.inj hstep
        have := congrArg List.length hgrown.branches
        simp [endBranch, modifyTop] at this
      | star | plus | question | count => exact absurd rfl (hrepeat _ _)
      | backref name =>
        simp only [step] at hstep
        split at hstep
        · rename_i group _
          obtain rfl := Except.ok.inj hstep
          obtain rfl := hgrown.items_unique (grown_push s _)
          exact ⟨s, _, rfl, .refl s, hQ _ hP⟩
        · contradiction
      | _ => contradiction
  · exact .inr hbad

/-! ### One reading -/

theorem Refused.many (h : Refused strict φ ts) : ReadsMany strict φ ts Ps := fun s hs => .inr ⟨h.1, h.2 s hs⟩

theorem Refused.append (h : Refused strict φ ts) (us : List Token) : Refused strict φ (ts ++ us) := by
  refine ⟨h.1, fun s hs => ?_⟩
  obtain ⟨x, hx⟩ := h.2 s hs
  exact ⟨x, by rw [steps_append, hx]; rfl⟩

/-- Tokens that are ever accepted are read in one way. -/
theorem ReadsMany.exists_both (h : ReadsMany strict φ ts Ps) (h' : ReadsMany strict φ ts Qs)
    (hts : ¬ Refused strict φ ts) : ∃ es, Ps es ∧ Qs es := by
  by_contra hnone
  have hboth : ∀ s : ParseState, s.flags = φ → ¬ strict ∧ ∃ x, s.steps ts = .error x := by
    intro s hs
    rcases h s hs with ⟨s₁, hs₁, es, hgrown, hP⟩ | hbad
    · rcases h' s hs with ⟨s₂, hs₂, es', hgrown', hQ⟩ | hbad
      · obtain rfl := Except.ok.inj (hs₁.symm.trans hs₂)
        obtain rfl := hgrown.items_unique hgrown'
        exact absurd ⟨es, hP, hQ⟩ hnone
      · exact hbad
    · exact hbad
  exact hts ⟨(hboth ⟨φ, .start .plain {}, [], 0, [], []⟩ rfl).1, fun s hs => (hboth s hs).2⟩

end Items

/-! ### Groups -/

def Frame.allBranches (f : Frame) : List Expr := f.branches.reverse ++ [f.branch]

theorem Frame.body_eq (f : Frame) : f.body = .choice f.allBranches := by
  rw [body, allBranches, List.reverse_cons]

/-- A state is as another one, but further on in the branches of the same group. -/
structure ParseState.Branched (s s' : ParseState) (bs : List Expr) : Prop where
  flags : s'.flags = s.flags
  around : s'.around = s.around
  kind : s'.top.kind = s.top.kind
  outerFlags : s'.top.outerFlags = s.top.outerFlags
  branches : s'.top.allBranches = s.top.branches.reverse ++ bs

def ReadsChoice (strict : Prop) (φ : Flags) (ts : List Token) (P : List Expr → Prop) : Prop :=
  ∀ s : ParseState, s.flags = φ → s.top.items = [] → Reading strict s ts fun s' => ∃ bs, Branched s s' bs ∧ P bs

variable {P : Expr → Prop} {Ps Qs Rs : List Expr → Prop}

theorem ReadsMany.choice (h : ReadsMany strict φ ts Ps) (hQ : ∀ es, Ps es → Qs [.sequence es]) :
    ReadsChoice strict φ ts Qs := by
  intro s hs hitems
  refine (h s hs).mono ?_
  rintro s' ⟨es, hgrown, hP⟩
  refine ⟨[.sequence es], ⟨hgrown.flags, hgrown.around, hgrown.kind, hgrown.outerFlags, ?_⟩, hQ es hP⟩
  rw [Frame.allBranches, Frame.branch, hgrown.branches, hgrown.items, hitems, List.append_nil, List.reverse_reverse]

theorem ReadsChoice.bar (h : ReadsChoice strict φ ts Ps) (h' : ReadsChoice strict φ us Qs)
    (hR : ∀ bs cs, Ps bs → Qs cs → Rs (bs ++ cs)) : ReadsChoice strict φ (ts ++ .bar :: us) Rs := by
  intro s hs hitems
  refine (h s hs hitems).append ?_
  rintro s' ⟨bs, hbranched, hP⟩
  have hend : Reading strict s' [.bar] (· = s'.endBranch) := .of_step rfl rfl
  refine hend.append fun s₂ hs₂ => ?_
  rw [hs₂]
  refine (h' s'.endBranch (hbranched.flags.trans hs) rfl).mono ?_
  rintro s'' ⟨cs, hbranched', hQ⟩
  refine ⟨bs ++ cs, ⟨hbranched'.flags.trans hbranched.flags, hbranched'.around.trans hbranched.around,
    hbranched'.kind.trans hbranched.kind, hbranched'.outerFlags.trans hbranched.outerFlags, ?_⟩, hR bs cs hP hQ⟩
  have hbranch : s'.endBranch.top.branches.reverse = s'.top.allBranches := by
    simp [endBranch, modifyTop, Frame.allBranches]
  rw [hbranched'.branches, hbranch, hbranched.branches, List.append_assoc]

theorem closeGroup_eq {s : ParseState} {outer : Frame} {around : List Frame} (h : s.around = outer :: around) :
    ∃ sizes, s.closeGroup = .ok (ParseState.push
      { s with flags := if s.top.kind = .plain then s.top.outerFlags else s.flags, top := outer, around := around,
               sizes := sizes } (s.top.kind.wrap s.top.body)) := by
  unfold closeGroup
  rw [h]
  cases hk : s.top.kind with
  | capture group => exact ⟨(group, s.top.body.size) :: s.sizes, by simp⟩
  | plain | atomic | look => exact ⟨s.sizes, by simp⟩

/-- A group that begins in a way of its own, given what becomes of its contents. -/
theorem ReadsChoice.group (h : ReadsChoice strict φ' ts Ps) {o : Opening}
    (hopen : ∀ s : ParseState, s.flags = φ → ∃ s' kind, s.step (.opening o) = .ok s' ∧ s'.flags = φ' ∧
      s'.top = .start kind φ ∧ s'.around = s.top :: s.around ∧ (kind = .plain ∨ φ' = φ) ∧
      ∀ bs, Ps bs → P (kind.wrap (.choice bs))) :
    ReadsOne strict φ (.opening o :: ts ++ [.close]) P := by
  intro s hs
  obtain ⟨s₁, kind, hstep, hflags, htop, haround, hkind, hwrap⟩ := hopen s hs
  rw [List.cons_append, ← List.singleton_append]
  have hfirst : Reading strict s [.opening o] (· = s₁) := .of_step hstep rfl
  refine hfirst.append fun s' hs' => ?_
  rw [hs']
  refine (h s₁ hflags (by rw [htop]; rfl)).append ?_
  rintro s₂ ⟨bs, hbranched, hP⟩
  have hbranches : s₂.top.allBranches = bs := by
    rw [hbranched.branches, htop]
    rfl
  obtain ⟨sizes, hclose⟩ := closeGroup_eq (hbranched.around.trans haround)
  have hk : s₂.top.kind = kind := by
    rw [hbranched.kind, htop]
    rfl
  refine .of_step hclose ⟨_, _, rfl, ⟨?_, rfl, rfl⟩, by rw [hk, Frame.body_eq, hbranches]; exact hwrap bs hP⟩
  rw [hs]
  have houter : s₂.top.outerFlags = φ := by
    rw [hbranched.outerFlags, htop]
    rfl
  have hinner : s₂.flags = φ' := hbranched.flags.trans hflags
  change (if s₂.top.kind = .plain then s₂.top.outerFlags else s₂.flags) = φ
  split_ifs with hplain
  · exact houter
  · rw [hinner]
    exact hkind.resolve_left (hk ▸ hplain)

theorem apply_nothing (φ : Flags) : φ.apply {} = φ := rfl

theorem ReadsChoice.plainGroup {change : FlagChange} (h : ReadsChoice strict (φ.apply change) ts Ps)
    (hP : ∀ bs, Ps bs → P (.choice bs)) : ReadsOne strict φ (.opening (.plain change) :: ts ++ [.close]) P :=
  h.group fun s hs => ⟨s.openGroup .plain change, .plain, rfl, by rw [openGroup, hs], by rw [openGroup, hs], rfl,
    .inl rfl, hP⟩

theorem ReadsChoice.atomicGroup (h : ReadsChoice strict φ ts Ps) (hP : ∀ bs, Ps bs → P (.atomic (.choice bs))) :
    ReadsOne strict φ (.opening .atomic :: ts ++ [.close]) P := by
  refine h.group fun s hs => ⟨s.openGroup .atomic {}, .atomic, rfl, ?_, ?_, rfl, .inr rfl, hP⟩
  · rw [openGroup, hs, apply_nothing]
  · rw [openGroup, hs]

theorem ReadsChoice.namedGroup (h : ReadsChoice strict φ ts Ps) (name : Text)
    (hP : ∀ group bs, Ps bs → P (.capture (group + 1) (.choice bs))) :
    ReadsOne strict φ (.opening (.named name) :: ts ++ [.close]) P := by
  refine h.group fun s hs => ⟨{ s.openCapture with names := (name, s.groups + 1) :: s.names }, .capture (s.groups + 1), rfl,
    ?_, ?_, rfl, .inr rfl, hP s.groups⟩
  · simp only [openCapture, openGroup, apply_nothing, hs]
  · simp only [openCapture, openGroup, hs]

/-- A single item is a single branch. -/
theorem ReadsOne.choice {e : Expr} (h : ReadsOne strict φ ts (· = e)) (he : e ≠ .empty) :
    ReadsChoice strict φ ts (· = [e]) := by
  have hmany : ReadsMany strict φ ts (· = [e]) := h.many (by rintro _ rfl; exact itemOf_of_ne he)
  exact hmany.choice (by rintro _ rfl; rfl)

/-- A look for nothing that must not be there. -/
theorem readsOne_nothing (h : P (.look .ahead true .empty)) :
    ReadsOne strict φ [.opening (.look .ahead true), .close] P := by
  have hmany : ReadsMany strict φ [] (· = []) := readsMany_nil rfl
  have hbody : ReadsChoice strict φ [] (· = [.empty]) := hmany.choice (by rintro es rfl; rfl)
  refine hbody.group (o := .look .ahead true) fun s hflags => ?_
  refine ⟨s.openGroup (.look .ahead true) {}, .look .ahead true, rfl, ?_, ?_, rfl, .inr rfl, ?_⟩
  · rw [openGroup, hflags, apply_nothing]
  · rw [openGroup, hflags]
  · rintro bs rfl
    exact h

/-- A whole source is read as its branches are. -/
theorem parse_of_choice (h : ReadsChoice strict {} ts Ps) {source : Text} (hts : tokens source = .ok ts) :
    (∃ parsed bs, parse source = .ok parsed ∧ parsed.expr = .choice bs ∧ Ps bs) ∨
      (¬ strict ∧ ∃ x, parse source = .error x) := by
  unfold parse
  rw [hts]
  rcases h .start rfl rfl with ⟨s, hok, bs, hbranched, hP⟩ | ⟨hn, x, hx⟩
  · have haround : s.around = [] := hbranched.around
    have hbranches : s.top.allBranches = bs := hbranched.branches
    simp only [bind, Except.bind, hok, haround]
    exact .inl ⟨_, bs, rfl, by rw [Frame.body_eq, hbranches], hP⟩
  · refine .inr ⟨hn, x, ?_⟩
    simp only [bind, Except.bind, hx]

end Reading

end WordPattern.Regex
