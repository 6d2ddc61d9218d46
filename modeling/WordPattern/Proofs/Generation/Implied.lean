import Mathlib.Data.List.TakeWhile
import WordPattern.Proofs.Generation.Letters

/-! The specials that options imply, where no others are given: single characters that are written as themselves, and
the blank that stands for any run of blanks. -/

namespace WordPattern

open Regex

def Rule.implied (c : Char) (pattern : Text) : Rule := ⟨.literal [c], Regex.quote [c], pattern, false, false, false⟩

section Implied

variable {o : Options} {settings : Settings}

/-- Only specials of single characters are implied. -/
theorem lettered_of_implied (h : ∀ rule ∈ settings.rules, ∃ c pattern, rule = .implied c pattern) :
    settings.Lettered where
  key rule hrule := by
    obtain ⟨c, pattern, rfl⟩ := h rule hrule
    exact ⟨c, rfl, rfl⟩
  left rule hrule := by
    obtain ⟨c, pattern, rfl⟩ := h rule hrule
    rfl
  right rule hrule := by
    obtain ⟨c, pattern, rfl⟩ := h rule hrule
    rfl

/-- What an implied special matches, as its pattern is read alone. -/
def Settings.impliedSpecial (settings : Settings) (yes : Bool) (v : Verbatim) : Reach :=
  (v.readAlone settings.innerFlags false).optionalIf yes

theorem uniform_impliedSpecial : (settings.sense settings.impliedSpecial).Uniform := fun _ _ => rfl

/-- An optional special that is not atomic may also be left out. -/
theorem readAlone_of_not_atomic {φ : Flags} {v : Verbatim} {ts : List Token} (hlex : Lexes v.pattern ts)
    (hatomic : v.atomic = false) (yes : Bool) : v.readAlone φ yes = (v.readAlone φ false).optionalIf yes := by
  unfold Verbatim.readAlone
  rw [hlex.tokens_eq]
  cases yes with
  | false => rfl
  | true => simp [hatomic, Reach.optionalIf]

theorem readable_implied {c : Char} {pattern : Text} (h : pattern ∈ o.impliedPatterns) :
    (Rule.implied c pattern).verbatim.Readable (settings.sense settings.impliedSpecial) True settings.innerFlags := by
  obtain ⟨hne, hopens, ts, hlex, hfirm⟩ := firmAlone_implied h True
  have halone : (Rule.implied c pattern).verbatim.Readable (settings.sense (Verbatim.readAlone settings.innerFlags)) True
      settings.innerFlags :=
    readable_of_firmAlone rfl rfl hopens hlex hfirm (fun _ => hne) fun _ hatomic => absurd hatomic Bool.false_ne_true
  refine ⟨fun hrole => absurd rfl hrole, fun hrole yes => ?_⟩
  have hread := halone.special hrole yes
  have hspecial : (settings.sense (Verbatim.readAlone settings.innerFlags)).special yes
      (Rule.implied c pattern).verbatim = settings.impliedSpecial yes (Rule.implied c pattern).verbatim :=
    readAlone_of_not_atomic hlex rfl yes
  rw [hspecial] at hread
  exact hread

/-- A character that is written as itself matches itself. -/
theorem impliedSpecial_char {c d : Char} (htokens : tokens [d] = .ok [.char d]) :
    settings.impliedSpecial false (Rule.implied c [d]).verbatim = (settings.sense settings.impliedSpecial).char d := by
  change Verbatim.readAlone settings.innerFlags false (Rule.implied c [d]).verbatim = _
  unfold Verbatim.readAlone
  rw [show (Rule.implied c [d]).verbatim.pattern = [d] from rfl, htokens]
  exact itemsEnds_singleton _

/-! ### Runs of blanks -/

def isAsciiBlank (c : Char) : Bool := c ∈ ['\t', '\n', '\x0B', '\x0C', '\r', ' ']

/-- Where a greedy repeat of one character prefers to end. -/
theorem head?_spin_past {f : Char → Bool} {fuel : Nat} {p : Cursor} (h : p.room .ahead < fuel) :
    (Rounds.spin (·.past .ahead f) true fuel p).head? = some (p.beyond (p.after.takeWhile f)) := by
  induction fuel generalizing p with
  | zero => omega
  | succ fuel ih =>
    obtain ⟨before, after⟩ := p
    cases after with
    | nil => rfl
    | cons c after =>
      rw [Rounds.spin]
      by_cases hc : f c = true
      · have hpast : (⟨before, c :: after⟩ : Cursor).past .ahead f = [⟨c :: before, after⟩] := by
          simp [Cursor.past, Cursor.step?, hc]
        have hne : (⟨c :: before, after⟩ : Cursor) ≠ ⟨before, c :: after⟩ := by simp
        have hrest := ih (p := ⟨c :: before, after⟩) (Nat.lt_of_succ_lt_succ h)
        rw [hpast, List.flatMap_singleton, if_neg hne, Rounds.prefer, if_pos rfl, List.head?_append, hrest,
          List.takeWhile_cons_of_pos hc, Cursor.beyond_cons]
        rfl
      · have hpast : (⟨before, c :: after⟩ : Cursor).past .ahead f = [] := by
          simp [Cursor.past, Cursor.step?, hc]
        rw [hpast, List.takeWhile_cons_of_neg hc]
        rfl

/-- What is matched with no blank after it is all that a greedy repeat takes. -/
theorem beyond_takeWhile_iff {f : Char → Bool} {p q : Cursor} :
    (∃ s, s ≠ [] ∧ (∀ b ∈ s, f b = true) ∧ p.after = s ++ q.after ∧ q.before = s.reverse ++ p.before ∧
      ∀ d, q.after.head? = some d → f d = false) ↔
    p.after.takeWhile f ≠ [] ∧ q = p.beyond (p.after.takeWhile f) := by
  constructor
  · rintro ⟨s, hne, hs, hafter, hbefore, hstop⟩
    have hrest : q.after.takeWhile f = [] := by
      cases hq : q.after with
      | nil => rfl
      | cons d rest => rw [List.takeWhile_cons_of_neg (by simp [hstop d (by rw [hq]; rfl)])]
    have hrun : p.after.takeWhile f = s := by
      rw [hafter, List.takeWhile_append_of_pos hs, hrest, List.append_nil]
    refine ⟨hrun ▸ hne, ?_⟩
    rw [hrun, Cursor.beyond, hafter, List.drop_left, ← hbefore]
  · rintro ⟨hne, rfl⟩
    have hdrop : p.after.drop (p.after.takeWhile f).length = p.after.dropWhile f := by
      have hparts : p.after.takeWhile f ++ p.after.dropWhile f = p.after := List.takeWhile_append_dropWhile
      calc p.after.drop (p.after.takeWhile f).length
          = (p.after.takeWhile f ++ p.after.dropWhile f).drop (p.after.takeWhile f).length := by rw [hparts]
        _ = p.after.dropWhile f := List.drop_left
    refine ⟨_, hne, fun b hb => List.mem_takeWhile_imp hb, ?_, rfl, fun d hd => ?_⟩
    · rw [Cursor.beyond, hdrop, List.takeWhile_append_dropWhile]
    · rw [Cursor.beyond, hdrop] at hd
      have hstop := List.head?_dropWhile_not f p.after
      rwa [hd] at hstop

/-- A special for runs of blanks takes all blanks that there are, and at least one. -/
theorem mem_impliedSpecial_blanks (hcase : settings.ignoreCase = false) {c : Char} {p q : Cursor} :
    q ∈ settings.impliedSpecial false (Rule.implied c blankRunPattern).verbatim p ↔
      ∃ s, s ≠ [] ∧ (∀ b ∈ s, isAsciiBlank b = true) ∧ p.after = s ++ q.after ∧ q.before = s.reverse ++ p.before ∧
        ∀ d, q.after.head? = some d → isAsciiBlank d = false := by
  have hset : (CharSet.mk [.named .asciiSpace false] false settings.ignoreCase).contains = isAsciiBlank := by
    funext d
    simp [CharSet.contains, hcase, SetItem.contains, holdsOf, NamedSet.contains, isAsciiBlank]
  have hreach : settings.impliedSpecial false (Rule.implied c blankRunPattern).verbatim p =
      ((Expr.rounds 1 none true (.set ⟨[.named .asciiSpace false], false, settings.ignoreCase⟩)).ends .ahead p).take 1 :=
    congrFun (itemsEnds_singleton _) p
  have hrounds : (Expr.rounds 1 none true (.set ⟨[.named .asciiSpace false], false, settings.ignoreCase⟩)).ends .ahead p =
      (p.past .ahead isAsciiBlank).flatMap fun r => Rounds.spin (·.past .ahead isAsciiBlank) true (r.room .ahead + 2) r := by
    simp [Expr.ends, Rounds.times, hset]
  rw [beyond_takeWhile_iff, hreach, hrounds]
  obtain ⟨before, after⟩ := p
  cases after with
  | nil => simp [Cursor.past, Cursor.step?]
  | cons d after =>
    by_cases hd : isAsciiBlank d = true
    · have hpast : (⟨before, d :: after⟩ : Cursor).past .ahead isAsciiBlank = [⟨d :: before, after⟩] := by
        simp [Cursor.past, Cursor.step?, hd]
      have hhead := @head?_spin_past isAsciiBlank (after.length + 2) ⟨d :: before, after⟩ (by simp [Cursor.room])
      have hroom : (⟨d :: before, after⟩ : Cursor).room .ahead + 2 = after.length + 2 := rfl
      rw [hpast, List.flatMap_singleton, hroom, List.take_one, hhead, List.takeWhile_cons_of_pos hd, Cursor.beyond_cons]
      simp
    · have hpast : (⟨before, d :: after⟩ : Cursor).past .ahead isAsciiBlank = [] := by
        simp [Cursor.past, Cursor.step?, hd]
      rw [hpast, List.takeWhile_cons_of_neg hd]
      simp

end Implied

end WordPattern
