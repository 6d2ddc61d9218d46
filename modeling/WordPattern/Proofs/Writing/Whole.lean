import WordPattern.Generator
import WordPattern.Proofs.Reading.Whole
import WordPattern.Proofs.Writing.Nodes

/-! The compiled pattern finds what its tree prefers. -/

namespace WordPattern

open Regex

variable {σ : Sense} {mode : Mode} {strict : Prop} {φ : Flags}

/-- A source is read, without flags, as something that prefers what `f` prefers. -/
structure SourceOf (strict : Prop) (φ : Flags) (t : Text) (f : Reach) : Prop where
  opens : Opens t
  nonempty : strict → t ≠ []
  reads : ∃ ts g, Lexes t ts ∧ ReadsBranches strict φ ts g ∧ ∀ p, (g p).head? = (f p).head?

theorem BranchesWritten.source {F : NextChars} {t : Text} {f : Reach} (h : BranchesWritten σ mode strict φ F t f) :
    SourceOf strict φ t f := by
  obtain ⟨hopens, hnonempty, ts, g, hlex, hreads, hagrees⟩ := h
  exact ⟨hopens, hnonempty, ts, g, hlex, hreads, hagrees.head_eq⟩

theorem SourceOf.group {t : Text} {f : Reach} (h : SourceOf strict φ t f) (mode : Mode) :
    SourceOf strict φ (mode.group true t) f := by
  obtain ⟨hopens, -, ts, g, hlex, hreads, hhead⟩ := h
  refine ⟨opens_group mode true t, fun _ => by simp [Mode.group], _, _, lexes_group hlex hopens mode true,
    (hreads.closable mode true).items.branches fun _ => by simp, fun p => ?_⟩
  rw [head_kept, hhead]

theorem SourceOf.flagged {i m x : Bool} {t : Text} {f : Reach} (h : SourceOf strict ⟨i, m, false⟩ t f)
    (hflags : flagsText i m x ≠ []) : SourceOf strict {} (['(', '?'] ++ flagsText i m x ++ ':' :: t ++ [')']) f := by
  obtain ⟨hopens, -, ts, g, hlex, hreads, hhead⟩ := h
  have htext : ['(', '?'] ++ flagsText i m x ++ ':' :: t ++ [')'] =
      ['(', '?'] ++ flagsText i m x ++ [':'] ++ t ++ [')'] := by simp
  have happly : ({} : Flags).apply (flagsChange i m) = ⟨i, m, false⟩ := by
    cases i <;> cases m <;> rfl
  rw [← happly] at hreads
  rw [htext]
  exact ⟨opens_cons (by decide) _, fun _ => by simp, _, g,
    ((lexes_flags hflags).append hlex hopens).append lexes_close (opens_cons (by decide) _),
    hreads.plainGroup.items.branches fun _ => by simp, hhead⟩

theorem SourceOf.named {t name : Text} {f : Reach} (h : SourceOf strict φ t f) (hname : isGroupName name = true) :
    SourceOf strict φ (['(', '?', '<'] ++ name ++ '>' :: t ++ [')']) f := by
  obtain ⟨hopens, -, ts, g, hlex, hreads, hhead⟩ := h
  have htext : ['(', '?', '<'] ++ name ++ '>' :: t ++ [')'] = ['(', '?', '<'] ++ name ++ ['>'] ++ t ++ [')'] := by simp
  rw [htext]
  exact ⟨opens_cons (by decide) _, fun _ => by simp, _, g,
    ((lexes_named hname).append hlex hopens).append lexes_close (opens_cons (by decide) _),
    (hreads.namedGroup name).items.branches fun _ => by simp, hhead⟩

def Settings.innerFlags (settings : Settings) : Flags := ⟨settings.ignoreCase, settings.multiline, false⟩

theorem Settings.flags_eq (settings : Settings) :
    settings.flags = if (flagsText settings.ignoreCase settings.multiline settings.notExtended).isEmpty then none
      else some (flagsText settings.ignoreCase settings.multiline settings.notExtended) := rfl

/-- What holds of the text of a tree holds of everything that can stand around it. -/
theorem wholePattern_induction {P : Flags → Text → Prop} {settings : Settings} {root : Node}
    (hname : ∀ name, settings.name = some name → isGroupName name = true)
    (hgroup : ∀ {t}, P {} t → P {} (settings.mode.group true t))
    (hflagged : ∀ {i m x t}, P ⟨i, m, false⟩ t → flagsText i m x ≠ [] →
      P {} (['(', '?'] ++ flagsText i m x ++ ':' :: t ++ [')']))
    (hnamed : ∀ {t name}, P {} t → isGroupName name = true → P {} (['(', '?', '<'] ++ name ++ '>' :: t ++ [')']))
    (h : P settings.innerFlags (root.pattern settings.mode)) : P {} (settings.wholePattern root) := by
  have hplain : settings.flags = none → P {} (root.pattern settings.mode) := by
    intro hnone
    have : settings.innerFlags = {} := by
      rw [Settings.flags_eq] at hnone
      unfold Settings.innerFlags
      cases hi : settings.ignoreCase <;> cases hm : settings.multiline <;> simp_all [flagsText]
    rwa [this] at h
  unfold Settings.wholePattern
  extract_lets text flagged
  have hinside : P {} (flagged text) := by
    unfold flagged
    cases hf : settings.flags with
    | none => exact hplain hf
    | some flags =>
      rw [Settings.flags_eq] at hf
      split_ifs at hf with hempty
      obtain rfl := Option.some.inj hf
      exact hflagged h (by simpa using hempty)
  cases hn : settings.name with
  | some name => exact hnamed hinside (hname name hn)
  | none =>
    simp only
    split_ifs with hatomic
    · simp only [Bool.and_eq_true] at hatomic
      exact hgroup (hplain (Option.isNone_iff_eq_none.1 hatomic.1.1))
    · exact hinside

/-- The text of a tree with everything that stands around it. -/
theorem sourceOf_wholePattern {settings : Settings} {root : Node} {f : Reach}
    (hname : ∀ name, settings.name = some name → isGroupName name = true)
    (h : SourceOf strict settings.innerFlags (root.pattern settings.mode) f) :
    SourceOf strict {} (settings.wholePattern root) f :=
  wholePattern_induction (P := fun φ t => SourceOf strict φ t f) hname (fun h => h.group settings.mode)
    SourceOf.flagged SourceOf.named h

/-- The compiled pattern matches what its tree prefers. -/
theorem compile_wholePattern {settings : Settings} {root : Node} {f : Reach}
    (hname : ∀ name, settings.name = some name → isGroupName name = true)
    (h : SourceOf strict settings.innerFlags (root.pattern settings.mode) f) :
    (∀ r, compile (settings.wholePattern root) = .ok r →
      ∀ p, (matchAt? r.plan p).map Match.span = (f p).head?.map (p, ·)) ∧
      (strict → ∀ x, compile (settings.wholePattern root) = .error x → x = .tooDeep ∨ x = .tooLarge) := by
  obtain ⟨-, -, ts, g, hlex, hreads, hhead⟩ := sourceOf_wholePattern hname h
  obtain ⟨hok, herror⟩ := compile_of_branches hlex hreads
  exact ⟨fun r hr p => by rw [hok r hr p, hhead], herror⟩

end WordPattern
