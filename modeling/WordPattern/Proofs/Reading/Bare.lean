import WordPattern.Proofs.Reading.Items
import WordPattern.Proofs.Reading.Moves

/-! Expressions and parser states up to the numbers of groups and, if wanted, up to some of the flags in force.

How tokens are read depends on these in no other way than that they are written into what is read, as long as nothing
refers to a group. -/

namespace WordPattern.Regex

def Anchor.inText : Anchor → Anchor
  | .lineStart => .textStart
  | .lineEnd => .textEnd
  | a => a

theorem Anchor.inText_inText (a : Anchor) : a.inText.inText = a.inText := by cases a <;> rfl

/-- One number for all groups but group 0. -/
def bareNumber (group : Nat) : Nat := min group 1

theorem bareNumber_eq_zero {group : Nat} : bareNumber group = 0 ↔ group = 0 := by
  unfold bareNumber
  omega

theorem bareNumber_bareNumber (group : Nat) : bareNumber (bareNumber group) = bareNumber group := by
  unfold bareNumber
  omega

namespace Expr

/-- An expression without the numbers of its groups and without the flags that are `loose`. -/
@[simp] def bare (loose : Flags) : Expr → Expr
  | empty => empty
  | fail => fail
  | char c folded => char c (folded && !loose.ignoreCase)
  | set s => set { s with folded := s.folded && !loose.ignoreCase }
  | anyChar newline => anyChar (newline && !loose.dotAll)
  | anchor a => anchor (if loose.multiline then a.inText else a)
  | seq first rest => seq (first.bare loose) (rest.bare loose)
  | alt first rest => alt (first.bare loose) (rest.bare loose)
  | rounds low high greedy body => rounds low high greedy (body.bare loose)
  | capture group body => capture (bareNumber group) (body.bare loose)
  | atomic body => atomic (body.bare loose)
  | look d negated body => look d negated (body.bare loose)
  | backref group folded size => backref group (folded && !loose.ignoreCase) size

variable {loose : Flags}

theorem bare_bare (e : Expr) : (e.bare loose).bare loose = e.bare loose := by
  induction e with
  | anchor a =>
    rw [bare, bare]
    split_ifs
    · rw [Anchor.inText_inText]
    · rfl
  | capture group body ih => rw [bare, bare, ih, bareNumber_bareNumber]
  | seq first rest ih ih' | alt first rest ih ih' => rw [bare, bare, ih, ih']
  | rounds low high greedy body ih | atomic body ih | look d negated body ih => rw [bare, bare, ih]
  | empty | fail => rfl
  | char | set | anyChar | backref => simp [bare]

theorem bare_eq_empty {e : Expr} : e.bare loose = empty ↔ e = empty := by
  cases e <;> simp [bare]

theorem isRepeatable_bare (e : Expr) : (e.bare loose).isRepeatable = e.isRepeatable := by
  cases e <;> rfl

theorem bare_sequence (es : List Expr) : (sequence es).bare loose = sequence (es.map (bare loose)) := by
  have hfold : ∀ es : List Expr, (es.foldr seq empty).bare loose = (es.map (bare loose)).foldr seq empty := by
    intro es
    induction es with
    | nil => rfl
    | cons e es ih => rw [List.foldr_cons, bare, ih, List.map_cons, List.foldr_cons]
  match es with
  | [] => rfl
  | [_] => rfl
  | e :: f :: es => exact hfold (e :: f :: es)

theorem bare_choice (bs : List Expr) : (choice bs).bare loose = choice (bs.map (bare loose)) := by
  have hfold : ∀ bs : List Expr, (bs.foldr alt fail).bare loose = (bs.map (bare loose)).foldr alt fail := by
    intro bs
    induction bs with
    | nil => rfl
    | cons b bs ih => rw [List.foldr_cons, bare, ih, List.map_cons, List.foldr_cons]
  match bs with
  | [] => rfl
  | [_] => rfl
  | b :: c :: bs => exact hfold (b :: c :: bs)

theorem size_bare (e : Expr) : (e.bare loose).size = e.size := by
  induction e with
  | seq first rest ih ih' => rw [bare, size, size, ih, ih']
  | alt first rest ih ih' =>
    have hsize : ∀ f r : Expr, (alt f r).size = if r = fail then f.size else f.size.either r.size := by
      intro f r
      cases r <;> rfl
    have hfail : rest.bare loose = fail ↔ rest = fail := by
      cases rest <;> simp [bare]
    rw [bare, hsize, hsize, ih, ih']
    simp only [hfail]
  | rounds low high greedy body ih => rw [bare, size, size, ih]
  | capture group body ih | atomic body ih => rw [bare, size, size, ih]
  | empty | fail | char | set | anyChar | anchor | look | backref => rfl

theorem plain_bare {e : Expr} : (e.bare loose).Plain ↔ e.Plain := by
  induction e with
  | seq first rest ih ih' => exact and_congr ih ih'
  | alt first rest ih ih' =>
    refine and_congr ih (and_congr ih' ?_)
    cases rest <;> simp [bare]
  | rounds low high greedy body ih =>
    rw [bare, Plain, Plain, size_bare, ih]
  | capture group body ih => exact and_congr (not_congr bareNumber_eq_zero) ih
  | atomic body ih | look d negated body ih => exact ih
  | empty | fail | char | set | anyChar | anchor | backref => exact Iff.rfl

theorem tame_bare {e : Expr} : (e.bare loose).Tame ↔ e.Tame := by
  induction e with
  | seq first rest ih ih' | alt first rest ih ih' => exact and_congr ih ih'
  | rounds low high greedy body ih => exact and_congr Iff.rfl ih
  | capture group body ih | atomic body ih => exact ih
  | look d negated body ih => exact and_congr Iff.rfl ih
  | empty | fail | char | set | anyChar | anchor | backref => exact Iff.rfl

theorem firm_bare {strict : Prop} {e : Expr} : (e.bare loose).Firm strict ↔ e.Firm strict := by
  rw [Firm, Firm, Fine, Fine, plain_bare, tame_bare, isRepeatable_bare]

/-- The numbers of groups do not change where matches end. -/
theorem ends_bare (e : Expr) (d : Direction) : (e.bare {}).ends d = e.ends d := by
  induction e generalizing d with
  | seq first rest ih ih' =>
    funext p
    cases d <;> simp only [bare, ends, ih, ih']
  | alt first rest ih ih' =>
    funext p
    simp only [bare, ends, ih, ih']
  | rounds low high greedy body ih =>
    funext p
    cases high <;> simp only [bare, ends, ih]
  | capture group body ih | atomic body ih =>
    funext p
    simp only [bare, ends, ih]
  | look d' negated body ih =>
    funext p
    cases d' <;> simp only [bare, ends, ih]
  | empty | fail | backref => rfl
  | char c folded | set s | anyChar newline | anchor a => simp [bare]

end Expr

/-! ### States -/

def GroupKind.bare : GroupKind → GroupKind
  | .capture group => .capture (bareNumber group)
  | kind => kind

namespace ParseState

variable (loose : Flags)

def bareFlags (flags : Flags) : Flags where
  ignoreCase := flags.ignoreCase && !loose.ignoreCase
  multiline := flags.multiline && !loose.multiline
  dotAll := flags.dotAll && !loose.dotAll

def bareFrame (f : Frame) : Frame where
  kind := f.kind.bare
  outerFlags := bareFlags loose f.outerFlags
  branches := f.branches.map (.bare loose)
  items := f.items.map (.bare loose)
  tail := f.tail

/-- What stands last around an open group is lost when the group closes. -/
def outerFrame (f : Frame) : Frame := { bareFrame loose f with tail := .closed }

/-- A state without the groups that have been met and without the flags that are loose. -/
def bare (s : ParseState) : ParseState where
  flags := bareFlags loose s.flags
  top := bareFrame loose s.top
  around := s.around.map (outerFrame loose)
  groups := 0
  names := []
  sizes := []

variable {loose}

theorem bareFlags_bareFlags (flags : Flags) : bareFlags loose (bareFlags loose flags) = bareFlags loose flags := by
  simp [bareFlags]

/-- Flags that are loose are so whatever changes them. -/
theorem bareFlags_apply (flags : Flags) (change : FlagChange) :
    bareFlags loose ((bareFlags loose flags).apply change) = bareFlags loose (flags.apply change) := by
  obtain ⟨i, m, s⟩ := change
  cases i <;> cases m <;> cases s <;> simp [bareFlags, Flags.apply]

theorem bareFlags_all (flags : Flags) : bareFlags ⟨true, true, true⟩ flags = {} := by simp [bareFlags]

theorem bareFrame_bareFrame (f : Frame) : bareFrame loose (bareFrame loose f) = bareFrame loose f := by
  have hkind : f.kind.bare.bare = f.kind.bare := by
    cases f.kind <;> simp [GroupKind.bare, bareNumber_bareNumber]
  simp [bareFrame, hkind, bareFlags_bareFlags, Function.comp_def, Expr.bare_bare]

theorem bare_bare (s : ParseState) : (s.bare loose).bare loose = s.bare loose := by
  have houter : ∀ f, outerFrame loose (outerFrame loose f) = outerFrame loose f := fun f => by
    have := @bareFrame_bareFrame loose f
    simp only [outerFrame, bareFrame, Frame.mk.injEq] at this ⊢
    simp [this]
  simp [bare, bareFlags_bareFlags, bareFrame_bareFrame, Function.comp_def, houter]

theorem bare_push (s : ParseState) (e : Expr) : (s.push e).bare loose = (s.bare loose).push (e.bare loose) := by
  simp only [push, modifyTop, bare, bareFrame, Expr.bare_eq_empty, Expr.isRepeatable_bare]
  split_ifs <;> rfl

theorem bareFrame_body (f : Frame) : (bareFrame loose f).body = f.body.bare loose := by
  simp only [Frame.body, Frame.branch, bareFrame, Expr.bare_choice, Expr.bare_sequence, List.map_reverse, List.map_cons]

theorem bare_wrap (kind : GroupKind) (e : Expr) : (kind.wrap e).bare loose = kind.bare.wrap (e.bare loose) := by
  cases kind <;> rfl

/-- Changes of the last item that leave its flags and groups alone. -/
theorem bare_changeLast (s : ParseState) (tail : Tail) {g : Expr → Expr}
    (hg : ∀ e : Expr, (g e).bare loose = g (e.bare loose)) :
    (s.changeLast tail g).bare loose = (s.bare loose).changeLast tail g := by
  have hitems : (s.top.items.modifyHead g).map (Expr.bare loose) = (s.top.items.map (.bare loose)).modifyHead g := by
    cases s.top.items <;> simp [hg]
  simp [changeLast, modifyTop, bare, bareFrame, hitems]

theorem bare_makeLazy (s : ParseState) : s.makeLazy.bare loose = (s.bare loose).makeLazy := by
  refine bare_changeLast s .lazy fun e => ?_
  cases e <;> rfl

theorem outerFrame_bareFrame (f : Frame) : outerFrame loose (bareFrame loose f) = outerFrame loose f := by
  simp only [outerFrame, bareFrame_bareFrame]

/-- What stands last does not matter for what is pushed, nor do the flags and groups in either. -/
theorem bare_push_congr {s s' : ParseState} {e e' : Expr} (hflags : bareFlags loose s.flags = bareFlags loose s'.flags)
    (htop : outerFrame loose s.top = outerFrame loose s'.top)
    (haround : s.around.map (outerFrame loose) = s'.around.map (outerFrame loose))
    (he : e.bare loose = e'.bare loose) : (s.push e).bare loose = (s'.push e').bare loose := by
  rw [bare_push, bare_push, he]
  simp only [outerFrame, bareFrame, Frame.mk.injEq] at htop
  simp only [push, modifyTop, bare, bareFrame, hflags, haround, htop]

/-- What is pushed may differ in its flags and groups. -/
theorem bare_push_eq (s : ParseState) {e e' : Expr} (h : e.bare loose = e'.bare loose) :
    (s.push e).bare loose = ((s.bare loose).push e').bare loose := by
  rw [bare_push, bare_push, bare_bare, h]

theorem bare_repeatLast (s : ParseState) (low : Nat) (high : Option Nat) :
    (s.repeatLast low high).bare loose = ((s.bare loose).repeatLast low high).bare loose := by
  have hchange : ∀ s : ParseState, (s.repeatLast low high).bare loose = (s.bare loose).repeatLast low high :=
    fun s => bare_changeLast s .repeated fun _ => rfl
  rw [hchange, hchange, bare_bare]

theorem bare_openGroup (s : ParseState) {kind kind' : GroupKind} (hkind : kind.bare = kind'.bare) (change : FlagChange) :
    (s.openGroup kind change).bare loose = ((s.bare loose).openGroup kind' change).bare loose := by
  have houter := @outerFrame_bareFrame loose s.top
  have haround : (s.bare loose).around.map (outerFrame loose) = s.around.map (outerFrame loose) :=
    congrArg ParseState.around (bare_bare s)
  have hflags := @bareFlags_apply loose s.flags change
  simp_all [openGroup, bare, bareFrame, Frame.start, bareFlags_bareFlags]

theorem bare_closeGroup (s : ParseState) :
    (s.closeGroup).map (bare loose) = ((s.bare loose).closeGroup).map (bare loose) := by
  cases haround : s.around with
  | nil => simp [closeGroup, haround, bare, Except.map]
  | cons outer around =>
    have hmap : ((s.bare loose).around.map (outerFrame loose)) = s.around.map (outerFrame loose) :=
      congrArg ParseState.around (@bare_bare loose s)
    have hbody : (s.top.kind.wrap s.top.body).bare loose =
        ((bareFrame loose s.top).kind.wrap (bareFrame loose s.top).body).bare loose := by
      rw [bare_wrap, bare_wrap, bareFrame_body, Expr.bare_bare]
      exact congrArg (GroupKind.wrap · _) (congrArg Frame.kind (@bareFrame_bareFrame loose s.top)).symm
    simp only [bare, haround, List.map_cons, List.cons.injEq] at hmap
    simp only [closeGroup, haround, bare, List.map_cons, Except.map]
    refine congrArg Except.ok (bare_push_congr ?_ hmap.1.symm hmap.2.symm hbody)
    have hflags := fun flags => @bareFlags_bareFlags loose flags
    cases hkind : s.top.kind <;> simp [bareFrame, hkind, GroupKind.bare, hflags]

theorem bare_literals (source : Text) (s : ParseState) :
    (source.foldl (fun s c => s.push (.char c s.flags.ignoreCase)) s).bare loose =
      (source.foldl (fun s c => s.push (.char c s.flags.ignoreCase)) (s.bare loose)).bare loose := by
  have hsame : ∀ s s' : ParseState, s.bare loose = s'.bare loose →
      (source.foldl (fun s c => s.push (.char c s.flags.ignoreCase)) s).bare loose =
        (source.foldl (fun s c => s.push (.char c s.flags.ignoreCase)) s').bare loose := by
    induction source with
    | nil => exact fun _ _ h => h
    | cons c source ih =>
      intro s s' h
      refine ih _ _ ?_
      have hflags : bareFlags loose s.flags = bareFlags loose s'.flags := congrArg ParseState.flags h
      have hcase := congrArg Flags.ignoreCase hflags
      simp only [bareFlags] at hcase
      rw [bare_push, bare_push, h]
      simp only [Expr.bare, hcase]
  exact hsame _ _ (bare_bare s).symm

theorem bare_tail (s : ParseState) : (s.bare loose).top.tail = s.top.tail := rfl

/-- How a token is read does not depend on what a bare state has lost. -/
theorem step_bare (s : ParseState) {t : Token} (ht : ∀ name, t ≠ .backref name) :
    (s.step t).map (bare loose) = ((s.bare loose).step t).map (bare loose) := by
  cases t with
  | char c | named set negated | set negated items | dot | beforeFinalNewlines | anchor =>
    refine congrArg Except.ok (bare_push_eq s ?_)
    simp [Expr.bare, bare, bareFlags]
  | caret | dollar =>
    refine congrArg Except.ok (bare_push_eq s ?_)
    cases hm : s.flags.multiline <;> cases hl : loose.multiline <;>
      simp [Expr.bare, bare, bareFlags, Anchor.inText, hm, hl]
  | opening o =>
    cases o with
    | capture | named =>
      have hnumber : GroupKind.bare (.capture (s.groups + 1)) = GroupKind.bare (.capture 1) := by
        simp [GroupKind.bare, bareNumber]
      exact congrArg Except.ok (bare_openGroup s hnumber {})
    | plain change => exact congrArg Except.ok (bare_openGroup s rfl change)
    | atomic | look => exact congrArg Except.ok (bare_openGroup s rfl {})
  | flags change =>
    refine congrArg Except.ok ?_
    have hbare := @bare_bare loose s
    have hflags := @bareFlags_apply loose s.flags change
    simp_all [bare, modifyTop, bareFrame]
  | close => exact bare_closeGroup s
  | bar =>
    refine congrArg Except.ok ?_
    have hbranch : (bareFrame loose s.top).branch = s.top.branch.bare loose := by
      simp only [Frame.branch, bareFrame, Expr.bare_sequence, List.map_reverse]
    have hbare := @bare_bare loose s
    simp only [bare, bareFrame, ParseState.mk.injEq, Frame.mk.injEq] at hbare
    simp only [endBranch, modifyTop, bare, hbranch]
    simp [bareFrame, Expr.bare_bare, hbare]
  | star =>
    simp only [step]
    rw [bare_tail]
    split_ifs
    · exact congrArg Except.ok (bare_repeatLast s 0 none)
    · rfl
  | plus =>
    have hpossessive : ∀ s : ParseState, s.makePossessive.bare loose = (s.bare loose).makePossessive :=
      fun s => bare_changeLast s .closed fun _ => rfl
    simp only [step, bare_tail]
    cases s.top.tail
    · rfl
    · rfl
    · exact congrArg Except.ok (bare_repeatLast s 1 none)
    all_goals exact congrArg Except.ok (by rw [hpossessive, hpossessive, bare_bare])
  | question =>
    simp only [step, bare_tail]
    cases s.top.tail
    · rfl
    · rfl
    · exact congrArg Except.ok (bare_repeatLast s 0 (some 1))
    · exact congrArg Except.ok (by rw [bare_makeLazy, bare_makeLazy, bare_bare])
    · rfl
  | count source low high =>
    simp only [step, bare_tail]
    cases s.top.tail
    · exact congrArg Except.ok (bare_literals source s)
    · rfl
    · exact congrArg Except.ok (bare_repeatLast s low high)
    · exact congrArg Except.ok (bare_literals source s)
    · exact congrArg Except.ok (bare_literals source s)
  | backref name => exact absurd rfl (ht name)

/-- Bare states that are the same stay the same. -/
theorem steps_bare {s s' : ParseState} (h : s.bare loose = s'.bare loose) {ts : List Token}
    (hts : ∀ t ∈ ts, ∀ name, t ≠ .backref name) :
    (s.steps ts).map (bare loose) = (s'.steps ts).map (bare loose) := by
  induction ts generalizing s s' with
  | nil => exact congrArg Except.ok h
  | cons t ts ih =>
    have ht := hts t List.mem_cons_self
    have hstep : (s.step t).map (bare loose) = (s'.step t).map (bare loose) := by
      rw [step_bare s ht, step_bare s' ht, h]
    have hrest := fun {s s' : ParseState} h => @ih s s' h fun u hu => hts u (List.mem_cons_of_mem _ hu)
    simp only [steps]
    cases hs : s.step t <;> cases hs' : s'.step t <;> simp only [hs, hs', Except.map, reduceCtorEq] at hstep
    · simp only [bind, Except.bind, Except.map, Except.error.inj hstep]
    · exact hrest (Except.ok.inj hstep)

def withTail (s : ParseState) (tail : Tail) : ParseState := s.modifyTop ({ · with tail := tail })

/-- A token that repeats nothing is read the same whatever stands last. -/
theorem step_withTail (s : ParseState) (tail : Tail) {t : Token} (ht : t.isRepeat = false) :
    ((s.withTail tail).step t).map (bare loose) = (s.step t).map (bare loose) := by
  cases t with
  | opening o => cases o <;> rfl
  | backref name =>
    simp only [step]
    have hnames : (s.withTail tail).names = s.names := rfl
    rw [hnames]
    cases s.names.lookup name <;> rfl
  | star | plus | question | count => contradiction
  | close =>
    cases haround : s.around with
    | nil => simp [step, closeGroup, withTail, modifyTop, haround]
    | cons outer around => simp [step, closeGroup, withTail, modifyTop, haround, Frame.body, Frame.branch]
  | _ => rfl

end ParseState

end WordPattern.Regex
