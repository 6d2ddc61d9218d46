import WordPattern.Proofs.Reading.Items
import WordPattern.Regex.Search

/-! Where the matches of groups and of whole sources can end.

The branches of a group are read one by one, and closing the group makes one item of them. A source is read like the
inside of a group that is never closed. -/

namespace WordPattern.Regex

open ParseState

/-- With some flags in force, the tokens are read as branches, any of which can end as given. -/
def ReadsBranches (strict : Prop) (φ : Flags) (ts : List Token) (f : Reach) : Prop :=
  ReadsChoice strict φ ts fun bs => (∀ b ∈ bs, b.Firm strict) ∧ branchesEnds bs = f

variable {strict : Prop} {φ φ' : Flags} {ts us : List Token} {f g : Reach}

theorem ReadsItems.branches (h : ReadsItems strict φ ts f) (hne : strict → ts ≠ []) : ReadsBranches strict φ ts f := by
  refine ReadsMany.choice h ?_
  rintro es ⟨hfirm, hes, rfl⟩
  refine ⟨fun b hb => ?_, ?_⟩
  · rw [List.mem_singleton.1 hb]
    exact Expr.firm_sequence (fun hstrict => hes hstrict (hne hstrict)) hfirm
  · funext p
    simp [branchesEnds, ends_sequence]

theorem ReadsBranches.bar (h : ReadsBranches strict φ ts f) (h' : ReadsBranches strict φ us g) :
    ReadsBranches strict φ (ts ++ .bar :: us) (f.orElse g) := by
  refine ReadsChoice.bar h h' ?_
  rintro bs cs ⟨hfirm, rfl⟩ ⟨hfirm', rfl⟩
  refine ⟨fun b hb => (List.mem_append.1 hb).elim (hfirm b) (hfirm' b), ?_⟩
  funext p
  simp [branchesEnds, Reach.orElse]

/-- All branches together are firm and can end where any of them can. -/
theorem firm_choice {bs : List Expr} (h : ∀ b ∈ bs, b.Firm strict) :
    (Expr.choice bs).Firm strict ∧ (Expr.choice bs).ends .ahead = branchesEnds bs :=
  ⟨Expr.firm_choice h, ends_choice bs⟩

theorem ReadsBranches.plainGroup {change : FlagChange} (h : ReadsBranches strict (φ.apply change) ts f) :
    ReadsItem strict φ (.opening (.plain change) :: ts ++ [.close]) f := by
  refine ReadsChoice.plainGroup h ?_
  rintro bs ⟨hfirm, rfl⟩
  exact firm_choice hfirm

theorem ReadsBranches.atomicGroup (h : ReadsBranches strict φ ts f) :
    ReadsItem strict φ (.opening .atomic :: ts ++ [.close]) f.preferred := by
  refine ReadsChoice.atomicGroup h ?_
  rintro bs ⟨hfirm, rfl⟩
  obtain ⟨hchoice, hends⟩ := firm_choice hfirm
  refine ⟨⟨hchoice.1, fun _ => rfl⟩, ?_⟩
  funext p
  rw [Expr.ends, hends]
  rfl

/-- What opens a group that may be closed. -/
def groupOpening (mode : Mode) (closed : Bool) : Opening := if mode = .possessive ∧ closed then .atomic else .plain {}

def Reach.kept (mode : Mode) (closed : Bool) (f : Reach) : Reach :=
  if mode = .possessive ∧ closed then f.preferred else f

theorem Reach.kept_false (mode : Mode) (f : Reach) : f.kept mode false = f := if_neg (by simp)

theorem lexes_groupStart (mode : Mode) (closed : Bool) :
    Lexes (mode.groupStart closed) [.opening (groupOpening mode closed)] := by
  unfold Mode.groupStart groupOpening
  split_ifs
  · exact lexes_atomicGroup
  · exact lexes_plainGroup

theorem opens_group (mode : Mode) (closed : Bool) (t : Text) : Opens (mode.group closed t) := by
  unfold Mode.group Mode.groupStart
  split_ifs <;> exact opens_cons (by decide) _

theorem lexes_group {t : Text} (h : Lexes t ts) (ho : Opens t) (mode : Mode) (closed : Bool) :
    Lexes (mode.group closed t) (.opening (groupOpening mode closed) :: ts ++ [.close]) := by
  have hopen := (lexes_groupStart mode closed).append h ho
  exact hopen.append lexes_close (opens_cons (by decide) _)

theorem ReadsBranches.closable (h : ReadsBranches strict φ ts f) (mode : Mode) (closed : Bool) :
    ReadsItem strict φ (.opening (groupOpening mode closed) :: ts ++ [.close]) (f.kept mode closed) := by
  unfold groupOpening Reach.kept
  split_ifs
  · exact h.atomicGroup
  · exact h.plainGroup

theorem Refused.group (h : Refused strict φ ts) (mode : Mode) (closed : Bool) :
    Refused strict φ (.opening (groupOpening mode closed) :: ts) := by
  refine ⟨h.1, fun s hs => ?_⟩
  have hopen : ∃ s', s.step (.opening (groupOpening mode closed)) = .ok s' ∧ s'.flags = φ := by
    unfold groupOpening
    split_ifs
    · exact ⟨_, rfl, hs⟩
    · exact ⟨_, rfl, hs⟩
  obtain ⟨s', hstep, hs'⟩ := hopen
  obtain ⟨x, hx⟩ := h.2 s' hs'
  exact ⟨x, by simp [steps, hstep, bind, Except.bind, hx]⟩

theorem ReadsBranches.namedGroup (h : ReadsBranches strict φ ts f) (name : Text) :
    ReadsItem strict φ (.opening (.named name) :: ts ++ [.close]) f := by
  refine ReadsChoice.namedGroup h name ?_
  rintro group bs ⟨hfirm, rfl⟩
  obtain ⟨hchoice, hends⟩ := firm_choice hfirm
  refine ⟨⟨⟨⟨Nat.succ_ne_zero group, hchoice.1.1⟩, hchoice.1.2⟩, fun _ => rfl⟩, ?_⟩
  funext p
  rw [Expr.ends, hends]

/-- A whole source is read as its branches are. -/
theorem parse_of_branches (h : ReadsBranches strict {} ts f) {source : Text} (hts : tokens source = .ok ts) :
    (∃ parsed, parse source = .ok parsed ∧ parsed.expr.Firm strict ∧ parsed.expr.ends .ahead = f) ∨
      (¬ strict ∧ ∃ x, parse source = .error x) := by
  rcases parse_of_choice h hts with ⟨parsed, bs, hparsed, hexpr, hfirm, rfl⟩ | hbad
  · refine .inl ⟨parsed, hparsed, ?_⟩
    rw [hexpr]
    exact firm_choice hfirm
  · exact .inr hbad

end WordPattern.Regex
