import WordPattern.Proofs.Reading.SelfContained
import WordPattern.Proofs.Reading.Standing
import WordPattern.Proofs.Reading.Units

/-! A pattern that can be read alone can be read wherever it stands.

The reading of the pattern alone is followed, token by token, by the reading from another state. The latter has at least
what the former has: in the group that the pattern begins in there may be more items and branches, and the flags and the
numbers of groups may be others, but whatever can be repeated in the one can be repeated in the other. -/

namespace WordPattern.Regex

/-- One expression serves for another one: it stands for something and can be repeated if the other does so. -/
structure Expr.Serves (e e' : Expr) : Prop where
  nonempty : e ≠ .empty → e' ≠ .empty
  repeatable : e.isRepeatable = true → e'.isRepeatable = true

theorem Expr.serves_of_isRepeatable {e e' : Expr} (h : e'.isRepeatable = true) : e.Serves e' :=
  ⟨fun _ => ParseState.ne_empty_of_isRepeatable h, fun _ => h⟩

/-- There is at least as much in a group as in another one. -/
structure Frame.Covered (f g : Frame) : Prop where
  branches : f.branches ≠ [] → g.branches ≠ []
  items : f.items ≠ [] → g.items ≠ []
  several : 2 ≤ f.items.length → 2 ≤ g.items.length
  single : ∀ e e', f.items = [e] → g.items = [e'] → e.Serves e'

theorem Frame.covered_start {f g : Frame} (hbranches : f.branches = []) (hitems : f.items = []) : f.Covered g where
  branches h := absurd hbranches h
  items h := absurd hitems h
  several h := by simp [hitems] at h
  single _ _ h := by simp [hitems] at h

theorem Frame.body_eq_empty_iff {f : Frame} :
    f.body = .empty ↔ f.branches = [] ∧ (f.items = [] ∨ f.items = [.empty]) := by
  have hbranch : f.branch = .empty ↔ f.items = [] ∨ f.items = [.empty] := by
    unfold branch Expr.sequence
    split
    · rename_i h
      simp [List.reverse_eq_nil_iff.1 h]
    · rename_i e h
      simp [List.reverse_eq_iff.1 h]
    · rename_i h h'
      cases hr : f.items.reverse with
      | nil => exact absurd hr h
      | cons e es =>
        have hne : f.items ≠ [] ∧ f.items ≠ [.empty] :=
          ⟨fun hnil => h (by rw [hnil]; rfl), fun hone => h' .empty (by rw [hone]; rfl)⟩
        simp [hne]
  cases hb : f.branches with
  | nil => simpa [body, hb, Expr.choice] using hbranch
  | cons b bs =>
    have hrepeat : f.body.isRepeatable = true := Frame.isRepeatable_body_iff.2 (.inl (by simp [hb]))
    have hne := ParseState.ne_empty_of_isRepeatable hrepeat
    simp [hne]

theorem Frame.Covered.body {f g : Frame} (h : f.Covered g) : f.body.Serves g.body := by
  have hsingle : ∀ e, f.items = [e] → 2 ≤ g.items.length ∨ ∃ e', g.items = [e'] ∧ e.Serves e' := by
    intro e he
    cases hg : g.items with
    | nil => exact absurd hg (h.items (by simp [he]))
    | cons e' es =>
      cases es with
      | nil => exact .inr ⟨e', rfl, h.single e e' he hg⟩
      | cons => simp
  constructor
  · rw [Ne, Ne, body_eq_empty_iff, body_eq_empty_iff]
    rintro hf ⟨hbranches, hitems⟩
    have hnone : f.branches = [] := by_contra fun hne => h.branches hne hbranches
    rcases hitems with hitems | hitems
    · exact hf ⟨hnone, .inl (by_contra fun hne => h.items hne hitems)⟩
    · cases hfi : f.items with
      | nil => exact hf ⟨hnone, .inl hfi⟩
      | cons e es =>
        cases es with
        | cons => exact absurd (h.several (by simp [hfi])) (by simp [hitems])
        | nil =>
          refine hf ⟨hnone, .inr ?_⟩
          have hserves := (h.single e .empty hfi hitems).nonempty
          rw [hfi, by_contra fun hne => hserves hne rfl]
  · rw [isRepeatable_body_iff, isRepeatable_body_iff]
    rintro (hbranches | hitems | ⟨e, he, hrepeat⟩)
    · exact .inl (h.branches hbranches)
    · exact .inr (.inl (h.several hitems))
    · exact .inr ((hsingle e he).imp_right fun ⟨e', he', hserves⟩ => ⟨e', he', hserves.repeatable hrepeat⟩)

theorem GroupKind.serves_wrap {k k' : GroupKind} (hkind : k.bare = k'.bare) {e e' : Expr} (h : e.Serves e') :
    (k.wrap e).Serves (k'.wrap e') := by
  cases k <;> cases k' <;> first | contradiction | exact h | exact ⟨fun _ => by simp [wrap], fun h => h⟩

namespace ParseState

/-- Open groups beside others: each covers the other, and the outermost is the group that a state is in, with more in
it. -/
inductive Beside (s : ParseState) : List Frame → List Frame → Prop
  | base {f g : Frame} (h : f.Covered g) (hkind : g.kind = s.top.kind)
      (hbody : s.top.body.isRepeatable = true → g.body.isRepeatable = true) : Beside s [f] (g :: s.around)
  | inner {f g : Frame} {fs gs : List Frame} (h : f.Covered g) (hkind : f.kind.bare = g.kind.bare)
      (hrest : Beside s fs gs) : Beside s (f :: fs) (g :: gs)

/-- The reading of a fragment alone is followed by the reading of the fragment from another state. -/
structure Mirrors (s a b : ParseState) : Prop where
  frames : Beside s (a.top :: a.around) (b.top :: b.around)
  names : ∀ name, (a.names.lookup name).isSome = true → (b.names.lookup name).isSome = true

/-- What can be done to the last item of the one reading can be done to that of the other. -/
def Tailed (a b : ParseState) : Prop := a.top.tail ≠ .rigid → b.top.tail = a.top.tail

variable {s a b a' : ParseState}

theorem Beside.top {f g f' g' : Frame} {fs gs : List Frame} (h : Beside s (f :: fs) (g :: gs))
    (hcovered : f.Covered g → f'.Covered g') (hf : f'.kind = f.kind) (hg : g'.kind = g.kind)
    (hbody : g.body.isRepeatable = true → g'.body.isRepeatable = true) : Beside s (f' :: fs) (g' :: gs) := by
  cases h with
  | base h hkind hsolid => exact .base (hcovered h) (hg.trans hkind) fun hs => hbody (hsolid hs)
  | inner h hkind hrest => exact .inner (hcovered h) (by rw [hf, hg, hkind]) hrest

theorem mirrors_push (h : Mirrors s a b) {e e' : Expr} (he : e.Serves e') :
    Mirrors s (a.push e) (b.push e') ∧ Tailed (a.push e) (b.push e') := by
  refine ⟨⟨h.frames.top (fun hcovered => ?_) rfl rfl fun hbody => (further_push b e').repeatable (.inr hbody), h.names⟩, ?_⟩
  · by_cases hempty : e = .empty <;> by_cases hempty' : e' = .empty
    · simpa only [push, modifyTop, if_pos hempty, if_pos hempty'] using
        ⟨hcovered.branches, hcovered.items, hcovered.several, hcovered.single⟩
    · simp only [push, modifyTop, if_pos hempty, if_neg hempty']
      refine ⟨hcovered.branches, fun _ => List.cons_ne_nil _ _, fun htwo => ?_, fun x x' hx hx' => ?_⟩
      · exact Nat.le_succ_of_le (hcovered.several htwo)
      · -- the one group has an item, so there is one more in the other
        have hitems : a.top.items ≠ [] := by simp [show a.top.items = [x] from hx]
        exact absurd (List.cons.inj hx').2 (hcovered.items hitems)
    · exact absurd hempty' (he.nonempty hempty)
    · simp only [push, modifyTop, if_neg hempty, if_neg hempty']
      refine ⟨hcovered.branches, fun _ => List.cons_ne_nil _ _, fun htwo => ?_, fun x x' hx hx' => ?_⟩
      · have hitems : a.top.items ≠ [] := by
          rintro hnil
          simp [hnil] at htwo
        exact Nat.succ_le_succ (List.length_pos_iff.2 (hcovered.items hitems))
      · obtain ⟨rfl, -⟩ := List.cons.inj hx
        obtain ⟨rfl, -⟩ := List.cons.inj hx'
        exact he
  · intro hrigid
    rw [tail_push] at hrigid
    have hrepeat : e.isRepeatable = true := by
      by_contra hno
      exact hrigid (if_neg hno)
    rw [tail_push, tail_push, if_pos hrepeat, if_pos (he.repeatable hrepeat)]

theorem mirrors_changeLast (h : Mirrors s a b) (tail : Tail) {g : Expr → Expr}
    (hserves : ∀ e e' : Expr, e.Serves e' → (g e).Serves (g e'))
    (hg : ∀ e : Expr, e.isRepeatable = true → (g e).isRepeatable = true) :
    Mirrors s (a.changeLast tail g) (b.changeLast tail g) ∧ Tailed (a.changeLast tail g) (b.changeLast tail g) := by
  have hlength : ∀ es : List Expr, (es.modifyHead g).length = es.length := fun es => List.length_modifyHead
  have hone : ∀ {es : List Expr} {x}, es.modifyHead g = [x] → ∃ e, es = [e] ∧ x = g e := by
    intro es x hx
    cases es with
    | nil => contradiction
    | cons e es =>
      obtain ⟨rfl, rfl⟩ := List.cons.inj hx
      exact ⟨e, rfl, rfl⟩
  refine ⟨⟨h.frames.top ?_ rfl rfl ?_, h.names⟩, fun _ => rfl⟩
  · intro hcovered
    constructor
    · exact hcovered.branches
    · simp only [changeLast, modifyTop, ← List.length_pos_iff, hlength]
      simpa only [List.length_pos_iff] using hcovered.items
    · simp only [changeLast, modifyTop, hlength]
      exact hcovered.several
    · intro x x' hx hx'
      obtain ⟨e, he, rfl⟩ := hone hx
      obtain ⟨e', he', rfl⟩ := hone hx'
      exact hserves e e' (hcovered.single e e' he he')
  · simp only [Frame.isRepeatable_body_iff, changeLast, modifyTop, hlength]
    rintro (hbranches | hitems | ⟨e, he, hrepeat⟩)
    · exact .inl hbranches
    · exact .inr (.inl hitems)
    · exact .inr (.inr ⟨g e, by rw [he]; rfl, hg e hrepeat⟩)

theorem mirrors_repeatLast (h : Mirrors s a b) (low : Nat) (high : Option Nat) :
    Mirrors s (a.repeatLast low high) (b.repeatLast low high) ∧
      Tailed (a.repeatLast low high) (b.repeatLast low high) :=
  mirrors_changeLast h .repeated (fun _ _ _ => Expr.serves_of_isRepeatable rfl) fun _ _ => rfl

theorem mirrors_makePossessive (h : Mirrors s a b) :
    Mirrors s a.makePossessive b.makePossessive ∧ Tailed a.makePossessive b.makePossessive :=
  mirrors_changeLast h .closed (fun _ _ _ => Expr.serves_of_isRepeatable rfl) fun _ _ => rfl

theorem mirrors_makeLazy (h : Mirrors s a b) :
    Mirrors s a.makeLazy b.makeLazy ∧ Tailed a.makeLazy b.makeLazy := by
  refine mirrors_changeLast h .lazy (fun e e' he => ?_) fun e he => ?_
  · constructor
    · intro hne
      have hne' : e' ≠ .empty := he.nonempty (by rintro rfl; exact hne rfl)
      cases e' <;> simp_all
    · intro hrepeat
      have hrepeat' : e'.isRepeatable = true := he.repeatable (by cases e <;> exact hrepeat)
      cases e' <;> exact hrepeat'
  · cases e <;> exact he

theorem mirrors_openGroup (h : Mirrors s a b) {k k' : GroupKind} (hkind : k.bare = k'.bare) (change change' : FlagChange) :
    Mirrors s (a.openGroup k change) (b.openGroup k' change') ∧
      Tailed (a.openGroup k change) (b.openGroup k' change') :=
  ⟨⟨.inner (Frame.covered_start rfl rfl) hkind h.frames, h.names⟩, fun _ => rfl⟩

theorem mirrors_closeGroup (h : Mirrors s a b) (hclose : a.closeGroup = .ok a') :
    ∃ b', b.closeGroup = .ok b' ∧ Mirrors s a' b' ∧ Tailed a' b' := by
  cases haround : a.around with
  | nil =>
    simp only [closeGroup, haround] at hclose
    contradiction
  | cons outer around =>
    obtain ⟨frames, names⟩ := h
    rw [haround] at frames
    generalize hb : b.around = bs at frames
    cases frames with
    | inner hcovered hkind hrest =>
      cases bs with
      | nil => cases hrest
      | cons outer' around' =>
        obtain ⟨sizes, hok⟩ := closeGroup_eq haround
        obtain ⟨sizes', hok'⟩ := closeGroup_eq hb
        obtain rfl := Except.ok.inj (hok.symm.trans hclose)
        refine ⟨_, hok', mirrors_push ?_ (GroupKind.serves_wrap hkind hcovered.body)⟩
        exact ⟨hrest, names⟩

theorem mirrors_endBranch (h : Mirrors s a b) : Mirrors s a.endBranch b.endBranch ∧ Tailed a.endBranch b.endBranch := by
  refine ⟨⟨h.frames.top (fun _ => ?_) rfl rfl fun _ => (further_endBranch b).repeatable (.inl trivial), h.names⟩,
    fun _ => rfl⟩
  constructor
  · exact fun _ => List.cons_ne_nil _ _
  · exact fun h => absurd rfl h
  · exact fun h => absurd h (by simp [endBranch, modifyTop])
  · exact fun _ _ h => absurd h (by simp [endBranch, modifyTop])

theorem mirrors_literals (h : Mirrors s a b) (ht : Tailed a b) (source : Text) :
    Mirrors s (source.foldl (fun s c => s.push (.char c s.flags.ignoreCase)) a)
        (source.foldl (fun s c => s.push (.char c s.flags.ignoreCase)) b) ∧
      Tailed (source.foldl (fun s c => s.push (.char c s.flags.ignoreCase)) a)
        (source.foldl (fun s c => s.push (.char c s.flags.ignoreCase)) b) := by
  induction source generalizing a b with
  | nil => exact ⟨h, ht⟩
  | cons c source ih =>
    obtain ⟨h', ht'⟩ := @mirrors_push s a b h (.char c a.flags.ignoreCase) (.char c b.flags.ignoreCase)
      (Expr.serves_of_isRepeatable rfl)
    exact ih h' ht'

/-- An item serves for itself under other flags. -/
theorem exists_serves_item {φ : Flags} {t : Token} {e : Expr} (h : tokenItem? φ t = some e) (φ' : Flags) :
    ∃ e', tokenItem? φ' t = some e' ∧ e.Serves e' := by
  cases t with
  | char | named | set | dot | caret | dollar | anchor => exact ⟨_, rfl, Expr.serves_of_isRepeatable rfl⟩
  | beforeFinalNewlines =>
    obtain rfl := Option.some.inj h
    exact ⟨_, rfl, id, id⟩
  | _ => contradiction

theorem mirrors_opening (h : Mirrors s a b) {o : Opening} (hopen : a.step (.opening o) = .ok a') :
    ∃ b', b.step (.opening o) = .ok b' ∧ Mirrors s a' b' ∧ Tailed a' b' := by
  have hnumber : GroupKind.bare (.capture (a.groups + 1)) = GroupKind.bare (.capture (b.groups + 1)) := by
    simp [GroupKind.bare, bareNumber]
  cases o with
  | capture =>
    obtain rfl := Except.ok.inj hopen
    obtain ⟨hmirrors, htail⟩ := mirrors_openGroup h hnumber {} {}
    exact ⟨_, rfl, ⟨hmirrors.frames, hmirrors.names⟩, htail⟩
  | named name =>
    obtain rfl := Except.ok.inj hopen
    obtain ⟨hmirrors, htail⟩ := mirrors_openGroup h hnumber {} {}
    refine ⟨_, rfl, ⟨hmirrors.frames, fun name' => ?_⟩, htail⟩
    simp only [List.lookup_cons]
    cases name' == name with
    | true => exact fun _ => rfl
    | false => exact h.names name'
  | plain | atomic | look =>
    obtain rfl := Except.ok.inj hopen
    exact ⟨_, rfl, mirrors_openGroup h rfl _ _⟩

/-- A token that is read alone is read. -/
theorem mirrors_move (h : Mirrors s a b) {t : Token} (ht : t.isRepeat = true → Tailed a b) (hmove : Move a t a') :
    ∃ b', Move b t b' ∧ Mirrors s a' b' ∧ Tailed a' b' := by
  cases hmove with
  | item hitem =>
    obtain ⟨e', hitem', hserves⟩ := exists_serves_item hitem b.flags
    exact ⟨_, .item hitem', mirrors_push h hserves⟩
  | @backref name _ hgroup =>
    obtain ⟨group', hgroup'⟩ := Option.isSome_iff_exists.1 (h.names name (by rw [hgroup]; rfl))
    exact ⟨_, .backref hgroup', mirrors_push h (Expr.serves_of_isRepeatable rfl)⟩
  | opening hopen =>
    obtain ⟨b', hopen', hb'⟩ := mirrors_opening h hopen
    exact ⟨b', .opening hopen', hb'⟩
  | flags change =>
    refine ⟨_, .flags change, ⟨h.frames.top (fun hcovered => ?_) rfl rfl id, h.names⟩, fun hrigid => absurd rfl hrigid⟩
    exact ⟨hcovered.branches, hcovered.items, hcovered.several, hcovered.single⟩
  | close hclose =>
    obtain ⟨b', hclose', hb'⟩ := mirrors_closeGroup h hclose
    exact ⟨b', .close hclose', hb'⟩
  | bar => exact ⟨_, .bar, mirrors_endBranch h⟩
  | again hbounds htail =>
    have htail' := ht (Token.isRepeat_of_bounds? hbounds) (by simp [htail])
    exact ⟨_, .again hbounds (htail'.trans htail), mirrors_repeatLast h _ _⟩
  | lazy htail =>
    have htail' := ht rfl (by simp [htail])
    exact ⟨_, .lazy (htail'.trans htail), mirrors_makeLazy h⟩
  | possessive htail =>
    have htail' := ht rfl (by rcases htail with htail | htail <;> simp [htail])
    exact ⟨_, .possessive (by rwa [htail']), mirrors_makePossessive h⟩
  | chars hrigid hitem =>
    have htail' := ht rfl hrigid
    exact ⟨_, .chars (by rwa [htail']) (by rwa [htail']), mirrors_literals h (ht rfl) _⟩

/-- Tokens that are read alone are read. -/
theorem mirrors_steps (h : Mirrors s a b) {ts : List Token}
    (ht : ∀ t, ts.head? = some t → t.isRepeat = true → Tailed a b) (hsteps : a.steps ts = .ok a') :
    ∃ b', b.steps ts = .ok b' ∧ Mirrors s a' b' ∧ (ts ≠ [] → Tailed a' b') := by
  induction ts generalizing a b with
  | nil =>
    obtain rfl := Except.ok.inj hsteps
    exact ⟨b, rfl, h, fun hne => absurd rfl hne⟩
  | cons t ts ih =>
    obtain ⟨a₁, hstep, hrest⟩ := bind_eq_ok (show (a.step t).bind (·.steps ts) = .ok a' from hsteps)
    obtain ⟨b₁, hmove, h₁, ht₁⟩ := mirrors_move h (ht t rfl) (move_of_step hstep)
    obtain ⟨b', hrest', h', ht'⟩ := ih h₁ (fun _ _ _ => ht₁) hrest
    refine ⟨b', by rw [steps, hmove.step]; exact hrest', h', fun _ => ?_⟩
    cases ts with
    | nil =>
      obtain rfl := Except.ok.inj hrest
      obtain rfl := Except.ok.inj hrest'
      exact ht₁
    | cons u us => exact ht' (List.cons_ne_nil u us)

end ParseState

open ParseState

variable {source : Text} {ts : List Token} {parsed : Parsed}

/-- From every state, what is read alone is followed. -/
theorem exists_mirrors (hts : tokens source = .ok ts) (hhead : source.head? ≠ some '\x7b') {a : ParseState}
    (ha : ParseState.start.steps ts = .ok a) (s : ParseState) :
    ∃ b, s.steps ts = .ok b ∧ Mirrors s a b ∧ (ts ≠ [] → Tailed a b) := by
  have hstart : Mirrors s .start s := ⟨.base (Frame.covered_start rfl rfl) rfl id, fun _ h => absurd h (by simp [ParseState.start])⟩
  apply mirrors_steps hstart
  · intro t ht hrepeat
    rw [isRepeat_head_eq_false hhead hts rfl ha t ht] at hrepeat
    contradiction
  · exact ha

/-- A pattern that can be read alone can be read wherever it stands. -/
theorem stands_of_parse (hts : tokens source = .ok ts) (hhead : source.head? ≠ some '\x7b')
    (hparsed : parse source = .ok parsed) : Stands (parsed.expr.isRepeatable = true) ts := by
  intro s
  obtain ⟨a, ha, haround, hexpr⟩ := steps_of_parse hts hparsed
  obtain ⟨b, hb, ⟨frames, -⟩, -⟩ := exists_mirrors hts hhead ha s
  refine ⟨b, hb, ?_⟩
  rw [haround] at frames
  generalize hbs : b.around = bs at frames
  cases frames with
  | base hcovered hkind hbody =>
    refine ⟨hbs, hkind, ?_⟩
    rw [hexpr]
    rintro (hrepeat | hrepeat)
    · exact hcovered.body.repeatable hrepeat
    · exact hbody hrepeat
  | inner _ _ hrest => cases hrest

/-- A single unit that can be read alone and repeated can be so wherever it stands. -/
theorem SingleUnit.standsAsOne (h : SingleUnit ts) (hts : tokens source = .ok ts) (hhead : source.head? ≠ some '\x7b')
    (hparsed : parse source = .ok parsed) (hrepeat : parsed.expr.isRepeatable = true) : StandsAsOne ts := by
  intro s
  obtain ⟨a, ha, -, -, -⟩ := h.parse_eq hts hparsed
  obtain ⟨b, hb, -, htail⟩ := exists_mirrors hts hhead ha s
  obtain ⟨s₁, e, rfl, htop, haround⟩ := h.exists_push hb
  refine ⟨s₁, e, hb, ?_, htop, haround⟩
  have hne : ts ≠ [] := by
    rintro rfl
    cases h
  have hitem : (a.push parsed.expr).top.tail = .item := by rw [tail_push, hrepeat, if_pos rfl]
  have hlast := htail hne (by simp [hitem])
  rw [hitem, tail_push] at hlast
  by_contra hrigid
  rw [if_neg hrigid] at hlast
  contradiction

end WordPattern.Regex
