import WordPattern.Proofs.Reading.Bare
import WordPattern.Proofs.Reading.Groups

/-! Fragments that are read in the same way wherever they stand.

What is read on top of a state that has other items before it and other groups around it is read as it would be alone,
as long as every branch and every group that ends has begun in the fragment. -/

namespace WordPattern.Regex

namespace ParseState

/-- The items of a frame after those of another one. -/
def frameOnto (base f : Frame) : Frame := { base with items := f.items ++ base.items, tail := f.tail }

/-- The frames of a reading, the last one grown together with the top frame of a state and set among those around it. -/
def framesOnto (base : ParseState) : Frame → List Frame → Frame × List Frame
  | f, [] => (frameOnto base.top f, base.around)
  | f, g :: gs => (f, (framesOnto base g gs).1 :: (framesOnto base g gs).2)

/-- A reading on top of a state. -/
def onto (base s : ParseState) : ParseState :=
  { s with top := (framesOnto base s.top s.around).1, around := (framesOnto base s.top s.around).2 }

variable {base s s' : ParseState}

theorem onto_push (base s : ParseState) (e : Expr) : base.onto (s.push e) = (base.onto s).push e := by
  obtain ⟨flags, top, around, groups, names, sizes⟩ := s
  cases around with
  | nil =>
    simp only [onto, push, modifyTop, framesOnto, frameOnto]
    split_ifs <;> rfl
  | cons g gs => rfl

/-- The last item can be changed if there is one. -/
theorem onto_changeLast (base : ParseState) {s : ParseState} (h : s.around = [] → s.top.items ≠ []) (tail : Tail)
    (g : Expr → Expr) : base.onto (s.changeLast tail g) = (base.onto s).changeLast tail g := by
  obtain ⟨flags, ⟨kind, outerFlags, branches, items, tail'⟩, around, groups, names, sizes⟩ := s
  cases around with
  | nil =>
    cases items with
    | nil => exact absurd rfl (h rfl)
    | cons e es => rfl
  | cons f fs => rfl

theorem onto_closeGroup (base : ParseState) {s : ParseState} (h : s.around ≠ []) :
    (base.onto s).closeGroup = s.closeGroup.map base.onto := by
  obtain ⟨flags, top, around, groups, names, sizes⟩ := s
  cases around with
  | nil => contradiction
  | cons outer around =>
    refine congrArg Except.ok ?_
    rw [onto_push]
    rfl

/-- What stands last can be changed only where there is an item. -/
def Settled (s : ParseState) : Prop := s.around = [] → s.top.tail = .closed ∨ s.top.tail = .rigid ∨ s.top.items ≠ []

theorem onto_literals (base : ParseState) (source : Text) (s : ParseState) :
    base.onto (source.foldl (fun s c => s.push (.char c s.flags.ignoreCase)) s) =
      source.foldl (fun s c => s.push (.char c s.flags.ignoreCase)) (base.onto s) := by
  induction source generalizing s with
  | nil => rfl
  | cons c source ih =>
    rw [List.foldl_cons, List.foldl_cons, ih, onto_push]
    rfl

theorem tail_onto (base s : ParseState) : (base.onto s).top.tail = s.top.tail := by
  obtain ⟨flags, top, around, groups, names, sizes⟩ := s
  cases around <;> rfl

/-- A token is read on top of a state as it is alone, if it ends nothing that is not there alone. -/
theorem step_onto (base : ParseState) {s : ParseState} {t : Token} (hs : t.isRepeat = true → s.Settled)
    (ht : t = .close ∨ t = .bar → s.around ≠ []) : (base.onto s).step t = (s.step t).map base.onto := by
  have hchange : t.isRepeat = true → s.top.tail ≠ .closed → s.top.tail ≠ .rigid → s.around = [] → s.top.items ≠ [] :=
    fun ht hclosed hrigid haround => ((hs ht haround).resolve_left hclosed).resolve_left hrigid
  have htail := tail_onto base s
  cases t with
  | char | named | set | dot | anchor | beforeFinalNewlines | caret | dollar =>
    exact congrArg Except.ok (onto_push base s _).symm
  | opening o => cases o <;> rfl
  | flags change =>
    refine congrArg Except.ok ?_
    obtain ⟨flags, top, around, groups, names, sizes⟩ := s
    cases around <;> rfl
  | close => exact onto_closeGroup base (ht (.inl rfl))
  | bar =>
    refine congrArg Except.ok ?_
    obtain ⟨flags, top, around, groups, names, sizes⟩ := s
    cases around with
    | nil => exact absurd rfl (ht (.inr rfl))
    | cons f fs => rfl
  | backref name =>
    simp only [step]
    have hnames : (base.onto s).names = s.names := rfl
    rw [hnames]
    cases s.names.lookup name with
    | none => rfl
    | some group => exact congrArg Except.ok (onto_push base s _).symm
  | star =>
    simp only [step, htail]
    split_ifs with hitem
    · exact congrArg Except.ok (onto_changeLast base (hchange rfl (by simp [hitem]) (by simp [hitem])) _ _).symm
    · rfl
  | plus =>
    simp only [step, htail]
    cases hitem : s.top.tail with
    | closed | rigid => rfl
    | item | repeated | lazy => exact congrArg Except.ok (onto_changeLast base (hchange rfl (by simp [hitem]) (by simp [hitem])) _ _).symm
  | question =>
    simp only [step, htail]
    cases hitem : s.top.tail with
    | closed | rigid | lazy => rfl
    | item | repeated => exact congrArg Except.ok (onto_changeLast base (hchange rfl (by simp [hitem]) (by simp [hitem])) _ _).symm
  | count source low high =>
    simp only [step, htail]
    cases hitem : s.top.tail with
    | rigid => rfl
    | item => exact congrArg Except.ok (onto_changeLast base (hchange rfl (by simp [hitem]) (by simp [hitem])) _ _).symm
    | closed | repeated | lazy => exact congrArg Except.ok (onto_literals base source s).symm

theorem settled_push (s : ParseState) (e : Expr) : (s.push e).Settled := by
  intro _
  simp only [push, modifyTop]
  cases he : e.isRepeatable with
  | false => simp
  | true =>
    have hne : e ≠ .empty := by
      rintro rfl
      contradiction
    simp [hne]

theorem settled_changeLast {s : ParseState} (h : s.around = [] → s.top.items ≠ []) (tail : Tail) (g : Expr → Expr) :
    (s.changeLast tail g).Settled := by
  intro haround
  right
  right
  have := h haround
  cases hitems : s.top.items with
  | nil => contradiction
  | cons e es => simp [changeLast, modifyTop, hitems]

/-- Whatever stands last, it is settled after one more token. -/
theorem settled_step {s s' : ParseState} {t : Token} (hs : t.isRepeat = true → s.Settled) (h : s.step t = .ok s') :
    s'.Settled := by
  have hchange : t.isRepeat = true → s.top.tail ≠ .closed → s.top.tail ≠ .rigid → s.around = [] → s.top.items ≠ [] :=
    fun ht hclosed hrigid haround => ((hs ht haround).resolve_left hclosed).resolve_left hrigid
  cases move_of_step h with
  | item | backref => exact settled_push s _
  | opening h =>
    intro haround
    rw [around_opening h] at haround
    contradiction
  | flags => exact fun _ => .inr (.inl rfl)
  | close h =>
    cases haround : s.around with
    | nil => simp [closeGroup, haround] at h
    | cons outer around =>
      obtain ⟨sizes, hclose⟩ := closeGroup_eq haround
      obtain rfl := Except.ok.inj (hclose.symm.trans h)
      exact settled_push _ _
  | bar => exact fun _ => .inl rfl
  | again ht htail =>
    exact settled_changeLast (hchange (Token.isRepeat_of_bounds? ht) (by simp [htail]) (by simp [htail])) _ _
  | lazy htail => exact settled_changeLast (hchange rfl (by simp [htail]) (by simp [htail])) _ _
  | possessive htail =>
    rcases htail with htail | htail <;>
      exact settled_changeLast (hchange rfl (by simp [htail]) (by simp [htail])) _ _
  | chars => exact chars_induction (fun s _ _ _ => settled_push s _) _ (hs rfl)

end ParseState

/-! ### Contained fragments -/

def Opening.isPlain : Opening → Bool
  | .plain _ => true
  | _ => false

/-- Given the groups that are open, and for each of them whether flags end with it: every group that is closed has been
opened in the fragment and every group opened is closed, alternatives stand only in groups, changes of flags end with a
group, and nothing refers to a group. -/
def contained : List Bool → List Token → Bool
  | scopes, [] => scopes.isEmpty
  | scopes, .opening o :: ts => contained (o.isPlain :: scopes) ts
  | scopes, .close :: ts => !scopes.isEmpty && contained scopes.tail ts
  | scopes, .bar :: ts => !scopes.isEmpty && contained scopes ts
  | scopes, .flags _ :: ts => scopes.contains true && contained scopes ts
  | _, .backref _ :: _ => false
  | scopes, _ :: ts => contained scopes ts

namespace ParseState

/-- The groups that are open, and for each whether flags end with it. -/
def scopesOf : Frame → List Frame → List Bool
  | _, [] => []
  | f, g :: gs => (f.kind = .plain) :: scopesOf g gs

def scopes (s : ParseState) : List Bool := scopesOf s.top s.around

/-- The flags that are in force when all open groups have closed. -/
def flagsAfter (flags : Flags) : Frame → List Frame → Flags
  | _, [] => flags
  | f, g :: gs => flagsAfter (if f.kind = .plain then f.outerFlags else flags) g gs

def restored (s : ParseState) : Flags := flagsAfter s.flags s.top s.around

theorem scopesOf_eq_nil {f : Frame} {gs : List Frame} : scopesOf f gs = [] ↔ gs = [] := by
  cases gs <;> simp [scopesOf]

/-- Where flags end with a group that is open, it does not matter which are in force. -/
theorem flagsAfter_eq {f : Frame} {gs : List Frame} (h : true ∈ scopesOf f gs) (φ φ' : Flags) :
    flagsAfter φ f gs = flagsAfter φ' f gs := by
  induction gs generalizing f φ φ' with
  | nil => simp [scopesOf] at h
  | cons g gs ih =>
    rw [flagsAfter, flagsAfter]
    split_ifs with hplain
    · rfl
    · refine ih ?_ φ φ'
      simpa [scopesOf, hplain] using h

/-- Two states with the same flags and groups. -/
theorem scopes_of_same {s s' : ParseState} (hflags : s'.flags = s.flags) (hkind : s'.top.kind = s.top.kind)
    (houter : s'.top.outerFlags = s.top.outerFlags) (haround : s'.around = s.around) :
    s'.scopes = s.scopes ∧ s'.restored = s.restored := by
  unfold scopes restored
  rw [hflags, haround]
  cases s.around with
  | nil => exact ⟨rfl, rfl⟩
  | cons g gs => simp only [scopesOf, flagsAfter, hkind, houter, and_self]

theorem scopes_openGroup (s : ParseState) (kind : GroupKind) (change : FlagChange) (h : kind = .plain ∨ change = {}) :
    (s.openGroup kind change).scopes = decide (kind = .plain) :: s.scopes ∧
      (s.openGroup kind change).restored = s.restored := by
  refine ⟨rfl, ?_⟩
  simp only [restored, openGroup, flagsAfter, Frame.start]
  split_ifs with hplain
  · rfl
  · rw [h.resolve_left hplain]
    rfl

theorem scopes_push (s : ParseState) (e : Expr) : (s.push e).scopes = s.scopes ∧ (s.push e).restored = s.restored :=
  scopes_of_same rfl rfl rfl rfl

theorem scopes_closeGroup {s s' : ParseState} (h : s.closeGroup = .ok s') :
    s.scopes ≠ [] ∧ s'.scopes = s.scopes.tail ∧ s'.restored = s.restored := by
  cases haround : s.around with
  | nil => simp [closeGroup, haround] at h
  | cons outer around =>
    obtain ⟨sizes, hclose⟩ := closeGroup_eq haround
    obtain rfl := Except.ok.inj (hclose.symm.trans h)
    obtain ⟨hscopes, hrestored⟩ := scopes_push
      { s with flags := if s.top.kind = .plain then s.top.outerFlags else s.flags, top := outer, around := around,
               sizes := sizes } (s.top.kind.wrap s.top.body)
    rw [hscopes, hrestored]
    simp only [scopes, restored, haround, scopesOf, flagsAfter, ne_eq, List.cons_ne_nil, not_false_eq_true,
      List.tail_cons, and_self]

/-- What is contained after a token is so in the state after it, and the same flags are restored in the end. -/
theorem contained_step {s s' : ParseState} {t : Token} {ts : List Token} (h : s.step t = .ok s')
    (hc : contained s.scopes (t :: ts) = true) : contained s'.scopes ts = true ∧ s'.restored = s.restored := by
  have hsame : (s'.scopes = s.scopes ∧ s'.restored = s.restored) → contained s.scopes ts = true →
      contained s'.scopes ts = true ∧ s'.restored = s.restored := by
    rintro ⟨hscopes, hrestored⟩ hts
    exact ⟨by rwa [hscopes], hrestored⟩
  cases move_of_step h with
  | item hitem => exact hsame (scopes_push s _) (by cases t <;> first | exact hc | contradiction)
  | again ht => exact hsame (scopes_of_same rfl rfl rfl rfl) (by cases t <;> first | exact hc | contradiction)
  | lazy | possessive => exact hsame (scopes_of_same rfl rfl rfl rfl) hc
  | chars =>
    refine hsame ?_ hc
    refine chars_induction (P := fun s' => s'.scopes = s.scopes ∧ s'.restored = s.restored) (fun s' c folded hs' => ?_) _
      ⟨rfl, rfl⟩
    obtain ⟨hscopes, hrestored⟩ := scopes_push s' (.char c folded)
    exact ⟨hscopes.trans hs'.1, hrestored.trans hs'.2⟩
  | @opening o _ h =>
    have hopen : ∃ kind change, (kind = .plain ∨ change = {}) ∧ o.isPlain = decide (kind = .plain) ∧
        s'.scopes = (s.openGroup kind change).scopes ∧ s'.restored = (s.openGroup kind change).restored := by
      cases o with
      | plain change =>
        obtain rfl := Except.ok.inj h
        exact ⟨.plain, change, .inl rfl, rfl, rfl, rfl⟩
      | capture | named | atomic | look =>
        obtain rfl := Except.ok.inj h
        exact ⟨_, {}, .inr rfl, rfl, rfl, rfl⟩
    obtain ⟨kind, change, hkind, hplain, hscopes, hrestored⟩ := hopen
    obtain ⟨hscopes', hrestored'⟩ := scopes_openGroup s kind change hkind
    refine ⟨?_, hrestored.trans hrestored'⟩
    rw [hscopes, hscopes', ← hplain]
    exact hc
  | close h =>
    obtain ⟨-, hscopes, hrestored⟩ := scopes_closeGroup h
    simp only [contained, Bool.and_eq_true] at hc
    exact ⟨by rw [hscopes]; exact hc.2, hrestored⟩
  | bar =>
    simp only [contained, Bool.and_eq_true] at hc
    exact hsame (scopes_of_same rfl rfl rfl rfl) hc.2
  | flags change =>
    simp only [contained, Bool.and_eq_true, List.contains_iff_mem] at hc
    refine ⟨?_, ?_⟩
    · rw [← hc.2]
      cases haround : s.around <;> simp [scopes, scopesOf, modifyTop, haround]
    · unfold restored
      rw [flagsAfter_eq hc.1 s.flags (s.flags.apply change)]
      cases haround : s.around <;> simp [flagsAfter, modifyTop, haround]
  | backref => contradiction

/-- Tokens are read on top of a state as they are alone. -/
theorem steps_onto (base : ParseState) {s : ParseState} {ts : List Token}
    (hs : ∀ t, ts.head? = some t → t.isRepeat = true → s.Settled) (hc : contained s.scopes ts = true) :
    (base.onto s).steps ts = (s.steps ts).map base.onto := by
  induction ts generalizing s with
  | nil => rfl
  | cons t ts ih =>
    have hgroup : t = .close ∨ t = .bar → s.around ≠ [] := by
      intro ht haround
      have hnil : s.scopes = [] := scopesOf_eq_nil.2 haround
      rcases ht with rfl | rfl <;> simp [contained, hnil] at hc
    simp only [steps, step_onto base (hs t rfl) hgroup]
    cases hstep : s.step t with
    | error x => rfl
    | ok s' => exact ih (fun _ _ _ => settled_step (hs t rfl) hstep) (contained_step hstep hc).1

/-- After a contained fragment no group is open, and the flags are as they were. -/
theorem restored_of_steps {s s' : ParseState} {ts : List Token} (hc : contained s.scopes ts = true)
    (h : s.steps ts = .ok s') : s'.around = [] ∧ s'.flags = s.restored := by
  induction ts generalizing s with
  | nil =>
    obtain rfl := Except.ok.inj h
    have haround : s.around = [] := scopesOf_eq_nil.1 (List.isEmpty_iff.1 hc)
    exact ⟨haround, by rw [restored, haround, flagsAfter]⟩
  | cons t ts ih =>
    obtain ⟨s₁, hstep, hsteps⟩ := bind_eq_ok (show (s.step t).bind (·.steps ts) = .ok s' from h)
    obtain ⟨hc', hrestored⟩ := contained_step hstep hc
    rw [← hrestored]
    exact ih hc' hsteps

/-! ### Fragments by themselves -/

def alone (φ : Flags) : ParseState := ⟨φ, .start .plain {}, [], 0, [], []⟩

theorem ne_backref_of_contained {scopes : List Bool} {ts : List Token} (h : contained scopes ts = true) :
    ∀ t ∈ ts, ∀ name, t ≠ .backref name := by
  induction ts generalizing scopes with
  | nil => simp
  | cons t ts ih =>
    intro u hmem
    rcases List.mem_cons.1 hmem with rfl | hu
    · rintro name rfl
      contradiction
    · clear hmem
      cases t <;> simp only [contained, Bool.and_eq_true, Bool.false_eq_true] at h
      case close | bar | flags => exact ih h.2 u hu
      all_goals exact ih h u hu

/-- What stands last before a fragment that does not begin with a repeat is lost. -/
theorem steps_withTail {loose : Flags} (s : ParseState) (tail : Tail) {t : Token} {ts : List Token}
    (ht : t.isRepeat = false) (hts : ∀ u ∈ ts, ∀ name, u ≠ .backref name) :
    ((s.withTail tail).steps (t :: ts)).map (bare loose) = (s.steps (t :: ts)).map (bare loose) := by
  have hstep := @step_withTail loose s tail t ht
  simp only [steps]
  cases hs : s.step t <;> cases hs' : (s.withTail tail).step t <;> simp only [hs, hs', Except.map, reduceCtorEq] at hstep
  · simp only [bind, Except.bind, Except.map, Except.error.inj hstep]
  · exact steps_bare (Except.ok.inj hstep) hts

end ParseState

open ParseState

structure StandsAlone (ts : List Token) : Prop where
  contained : contained [] ts = true
  head : ∀ t, ts.head? = some t → t.isRepeat = false

section Alone

variable {ts us : List Token} {φ : Flags} {strict : Prop}

/-- Up to the numbers of groups a fragment is read anywhere as it is read alone. -/
theorem StandsAlone.steps (h : StandsAlone ts) (s : ParseState) :
    (∃ x y, s.steps ts = .error x ∧ (alone s.flags).steps ts = .error y) ∨
      ∃ s' s₀, s.steps ts = .ok s' ∧ (alone s.flags).steps ts = .ok s₀ ∧ (ts ≠ [] → s'.top.tail = s₀.top.tail) ∧
        ∃ es, Grown s s' es ∧ es.map (Expr.bare {}) = s₀.top.items.reverse.map (Expr.bare {}) := by
  -- the same flags and groups as in `s`, but no items
  let p : ParseState := { alone s.flags with groups := s.groups, names := s.names, sizes := s.sizes }
  have honto : s.onto (p.withTail s.top.tail) = s := rfl
  have hsteps := @steps_onto s (p.withTail s.top.tail) ts
    (fun t ht hrepeat => absurd hrepeat (by simp [h.head t ht])) h.contained
  rw [honto] at hsteps
  have hbare : ((p.withTail s.top.tail).steps ts).map (bare {}) = ((alone s.flags).steps ts).map (bare {}) ∨
      ts = [] := by
    cases ts with
    | nil => exact .inr rfl
    | cons t ts =>
      have hts := ne_backref_of_contained h.contained
      left
      rw [steps_withTail p s.top.tail (h.head t rfl) fun u hu => hts u (List.mem_cons_of_mem _ hu)]
      exact steps_bare (show p.bare {} = (alone s.flags).bare {} from rfl) hts
  rcases hbare with hbare | rfl
  · cases hp : (p.withTail s.top.tail).steps ts with
    | error x =>
      cases ha : (alone s.flags).steps ts with
      | error y => exact .inl ⟨x, y, by rw [hsteps, hp]; rfl, rfl⟩
      | ok s₀ => simp [hp, ha, Except.map] at hbare
    | ok p' =>
      cases ha : (alone s.flags).steps ts with
      | error y => simp [hp, ha, Except.map] at hbare
      | ok s₀ =>
        obtain ⟨haround, hflags⟩ := restored_of_steps (s := p.withTail s.top.tail) h.contained hp
        simp only [hp, ha, Except.map, Except.ok.injEq, bare, bareFrame, ParseState.mk.injEq, Frame.mk.injEq] at hbare
        refine .inr ⟨s.onto p', s₀, by rw [hsteps, hp]; rfl, rfl, fun _ => ?_, p'.top.items.reverse, ?_, ?_⟩
        · rw [tail_onto]
          exact hbare.2.1.2.2.2.2
        · simp only [onto, haround, framesOnto, frameOnto]
          exact ⟨hflags, rfl, rfl, rfl, rfl, by simp⟩
        · rw [List.map_reverse, List.map_reverse, hbare.2.1.2.2.2.1]
  · exact .inr ⟨s, alone s.flags, rfl, rfl, fun hne => absurd rfl hne, [], .refl s, rfl⟩

/-- Up to some flags and the numbers of groups it does not matter which of these flags are in force. -/
theorem StandsAlone.steps_flags (h : StandsAlone ts) {loose φ φ' : Flags}
    (hflags : bareFlags loose φ = bareFlags loose φ') :
    ((alone φ).steps ts).map (bare loose) = ((alone φ').steps ts).map (bare loose) := by
  refine steps_bare ?_ (ne_backref_of_contained h.contained)
  simp [alone, bare, bareFrame, Frame.start, hflags]

/-- The places where what the tokens are read as alone can end. -/
def reachAlone (φ : Flags) (ts : List Token) : Reach :=
  match (alone φ).steps ts with
  | .ok s => itemsEnds s.top.items.reverse
  | .error _ => fun p => [p]

structure FirmAlone (strict : Prop) (ts : List Token) : Prop extends StandsAlone ts where
  firm : ∀ s, (alone {}).steps ts = .ok s → ∀ e ∈ s.top.items, e.Firm strict
  accepted : strict → ∃ s, (alone {}).steps ts = .ok s ∧ (ts ≠ [] → s.top.items ≠ [])

theorem itemsEnds_bare (es : List Expr) : itemsEnds (es.map (.bare {})) = itemsEnds es := by
  induction es with
  | nil => rfl
  | cons e es ih => rw [List.map_cons, itemsEnds, Expr.ends_bare, ih, itemsEnds]

/-- Such a fragment is read as the same items wherever it stands. -/
theorem FirmAlone.readsItems (h : FirmAlone strict ts) (φ : Flags) : ReadsItems strict φ ts (reachAlone φ ts) := by
  rintro s rfl
  have hflags := h.toStandsAlone.steps_flags ((bareFlags_all {}).trans (bareFlags_all s.flags).symm)
  rcases h.toStandsAlone.steps s with ⟨x, y, hx, hy⟩ | ⟨s', s₀, hs', hs₀, -, es, hgrown, hes⟩
  · refine .inr ⟨fun hstrict => ?_, x, hx⟩
    obtain ⟨s₁, hs₁, -⟩ := h.accepted hstrict
    simp [hs₁, hy, Except.map] at hflags
  · cases hs₁ : (alone {}).steps ts with
    | error x => simp [hs₁, hs₀, Except.map] at hflags
    | ok s₁ =>
      simp only [hs₁, hs₀, Except.map, Except.ok.injEq, bare, bareFrame, ParseState.mk.injEq, Frame.mk.injEq] at hflags
      have hitems := hflags.2.1.2.2.2.1
      refine .inl ⟨s', hs', es, hgrown, fun e he => ?_, fun hstrict hne hnil => ?_, ?_⟩
      · have hmem : e.bare {} ∈ s₀.top.items.reverse.map (.bare {}) := hes ▸ List.mem_map_of_mem he
        obtain ⟨e₀, he₀, heq⟩ := List.mem_map.1 hmem
        have hmem' : e₀.bare ⟨true, true, true⟩ ∈ s₁.top.items.map (.bare ⟨true, true, true⟩) :=
          hitems ▸ List.mem_map_of_mem (List.mem_reverse.1 he₀)
        obtain ⟨e₁, he₁, heq'⟩ := List.mem_map.1 hmem'
        rw [← @Expr.firm_bare {}, ← heq, Expr.firm_bare, ← @Expr.firm_bare ⟨true, true, true⟩, ← heq',
          Expr.firm_bare]
        exact h.firm s₁ hs₁ e₁ he₁
      · obtain ⟨s₂, hs₂, hne₂⟩ := h.accepted hstrict
        obtain rfl := Except.ok.inj (hs₁.symm.trans hs₂)
        subst hnil
        have hlength := congrArg List.length hitems
        have hlength' := congrArg List.length hes
        simp only [List.length_map, List.map_nil, List.length_nil, List.length_reverse] at hlength hlength'
        exact hne₂ hne (List.length_eq_zero_iff.1 (hlength.trans hlength'.symm))
      · rw [reachAlone, hs₀, ← itemsEnds_bare es, hes, itemsEnds_bare]

/-! ### A mark at the end -/

theorem contained_append {scopes : List Bool} (h : contained scopes ts = true) (h' : contained [] us = true) :
    contained scopes (ts ++ us) = true := by
  induction ts generalizing scopes with
  | nil => rwa [List.isEmpty_iff.1 h]
  | cons t ts ih =>
    cases t <;> simp only [contained, Bool.and_eq_true, Bool.false_eq_true] at h
    case close | bar | flags => exact Bool.and_eq_true_iff.2 ⟨h.1, ih h.2⟩
    all_goals exact ih h

theorem StandsAlone.append_question (h : StandsAlone ts) (hne : ts ≠ []) : StandsAlone (ts ++ [.question]) where
  contained := contained_append h.contained rfl
  head t ht := h.head t (by rwa [List.head?_append_of_ne_nil ts hne] at ht)

theorem firm_modifyHead {g : Expr → Expr} (hg : ∀ e, e.Firm strict → (g e).Firm strict) {es : List Expr}
    (h : ∀ e ∈ es, e.Firm strict) : ∀ e ∈ es.modifyHead g, e.Firm strict := by
  cases es with
  | nil => simp
  | cons e es =>
    intro x hx
    rcases List.mem_cons.1 hx with rfl | hx
    · exact hg e (h e List.mem_cons_self)
    · exact h x (List.mem_cons_of_mem _ hx)

/-- With a question mark after it the fragment is optional or takes as little as it can. -/
theorem FirmAlone.append_question (h : FirmAlone strict ts) (hne : ts ≠ [])
    (hlast : strict → ∀ s, (alone {}).steps ts = .ok s → s.top.tail = .item) : FirmAlone strict (ts ++ [.question]) where
  toStandsAlone := h.toStandsAlone.append_question hne
  firm s hs := by
    rw [steps_append] at hs
    obtain ⟨s₁, hs₁, hs⟩ := bind_eq_ok hs
    obtain ⟨s₂, hstep, rfl⟩ : ∃ s₂, s₁.step .question = .ok s₂ ∧ s₂ = s := by
      obtain ⟨s₂, hstep, hs⟩ := bind_eq_ok (show (s₁.step .question).bind (·.steps []) = .ok s from hs)
      exact ⟨s₂, hstep, Except.ok.inj hs⟩
    have hfirm := h.firm s₁ hs₁
    simp only [step] at hstep
    cases htail : s₁.top.tail <;> simp only [htail, reduceCtorEq] at hstep
    · obtain rfl := Except.ok.inj hstep
      exact firm_modifyHead (fun e he => firm_rounds he (Nat.zero_le 1) true) hfirm
    · obtain rfl := Except.ok.inj hstep
      refine firm_modifyHead (fun e he => ?_) hfirm
      cases e <;> exact he
  accepted hstrict := by
    obtain ⟨s, hs, hitems⟩ := h.accepted hstrict
    refine ⟨s.repeatLast 0 (some 1), ?_, fun _ => ?_⟩
    · rw [steps_append, hs]
      simp [Except.bind, steps, step, hlast hstrict s hs, bind]
    · simpa [repeatLast, changeLast, modifyTop] using hitems hne

end Alone

end WordPattern.Regex
