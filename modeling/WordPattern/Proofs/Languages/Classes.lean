import WordPattern.Proofs.Folding
import WordPattern.Proofs.Languages.Writing
import WordPattern.Proofs.Reading.Classes
import WordPattern.Proofs.Reading.Whole
import WordPattern.Proofs.Trees.Members

/-! The texts of character classes match their members.

However a class is written, it is read as one item, which takes the next character if that is a member. Where case is
ignored the next character has to fold as some member does. -/

namespace WordPattern

open Regex

variable {strict : Prop} {φ : Flags}

namespace CharClass

def tokens (cls : CharClass) : List Token :=
  match cls.members with
  | [] => [.opening (.look .ahead true), .close]
  | [c] => [.char c]
  | _ => [.set false (classItems cls)]

/-- What the text of a class is read as. -/
def expr (cls : CharClass) (folded : Bool) : Expr :=
  match cls.members with
  | [] => .look .ahead true .empty
  | [c] => .char c folded
  | _ => .set ⟨classItems cls, false, folded⟩

/-- The character is a member, or where case is ignored it is as good as one. -/
def takes (cls : CharClass) (folded : Bool) (d : Char) : Bool := cls.members.any (sameChar folded · d)

theorem lexes_tokens (cls : CharClass) : Opens cls.pattern ∧ Lexes cls.pattern cls.tokens := by
  unfold tokens
  rcases pattern_cases cls with ⟨hnil, hp⟩ | ⟨c, hc, hp⟩ | ⟨htwo, hlex, r, hr⟩
  · rw [hp, hnil]
    exact ⟨opens_cons (by decide) _, lexes_nothing⟩
  · rw [hp, hc]
    exact ⟨opens_quoteChar c, lexes_quoteChar c⟩
  · refine ⟨by rw [hr]; exact opens_cons (by decide) r, ?_⟩
    match hmembers : cls.members with
    | [] | [_] => simp [hmembers] at htwo
    | _ :: _ :: _ => exact hlex

theorem readsOne_tokens {P : Expr → Prop} (cls : CharClass) (h : P (cls.expr φ.ignoreCase)) :
    ReadsOne strict φ cls.tokens P := by
  unfold expr at h
  unfold tokens
  split at h
  · exact readsOne_nothing h
  · exact readsOne_of_step (fun s hs => by rw [ParseState.step, hs]) h
  · exact readsOne_of_step (fun s hs => by rw [ParseState.step, hs]) h

theorem nesting_tokens (cls : CharClass) :
    nesting 0 cls.tokens < nestingLimit ∧
      ∀ change, nesting 0 (.opening (.plain change) :: cls.tokens ++ [.close]) < nestingLimit := by
  unfold tokens
  split <;> simp [nesting, nestingLimit]

theorem expr_fine (cls : CharClass) (folded : Bool) :
    (cls.expr folded).HasLanguage ∧ (cls.expr folded).Plain ∧ cls.expr folded ≠ .empty := by
  unfold expr
  split
  · exact ⟨⟨rfl, rfl, rfl⟩, trivial, nofun⟩
  · exact ⟨trivial, trivial, nofun⟩
  · exact ⟨trivial, trivial, nofun⟩

theorem exists_planWhole (cls : CharClass) (folded : Bool) : ∃ P, (cls.expr folded).planWhole = .ok P := by
  unfold expr
  split <;> exact ⟨_, rfl⟩

theorem contains_eq_takes (cls : CharClass) (folded : Bool) (d : Char) :
    CharSet.contains ⟨classItems cls, false, folded⟩ d = cls.takes folded d := by
  rw [Bool.eq_iff_iff, contains_classItems, takes, List.any_eq_true]
  refine exists_congr fun c => and_congr_right fun _ => ?_
  cases folded with
  | false => simp [sameChar]
  | true => simp [sameChar, mem_foldClass]

theorem language_expr (cls : CharClass) (folded : Bool) : (cls.expr folded).language = oneOf (cls.takes folded) := by
  unfold expr
  split
  · rename_i hnil
    ext t
    simp [Expr.language, mem_oneOf, takes, hnil, Language.notMem_zero]
  · rename_i c hc
    ext t
    simp [Expr.language, mem_oneOf, takes, hc]
  · rw [Expr.language]
    congr 1
    funext d
    exact contains_eq_takes cls folded d

/-- What is read moves on over a character that the class takes. -/
theorem mem_ends_expr {cls : CharClass} {folded : Bool} {p q : Cursor} :
    q ∈ (cls.expr folded).ends .ahead p ↔ ∃ c, p.step? .ahead = some (c, q) ∧ cls.takes folded c = true := by
  rw [Expr.mem_ends_iff_language (cls.expr_fine folded).1, language_expr]
  constructor
  · rintro ⟨_, ⟨c, hc, rfl⟩, hreads⟩
    exact ⟨c, Cursor.reads_singleton.1 hreads, hc⟩
  · rintro ⟨c, hstep, hc⟩
    exact ⟨[c], ⟨c, hc, rfl⟩, Cursor.reads_singleton.2 hstep⟩

theorem head?_ends_expr {cls : CharClass} {folded : Bool} {p q : Cursor} :
    ((cls.expr folded).ends .ahead p).head? = some q ↔
      ∃ c, p.step? .ahead = some (c, q) ∧ cls.takes folded c = true := by
  rw [← mem_ends_expr]
  refine ⟨List.mem_of_mem_head?, fun hq => ?_⟩
  obtain ⟨r, rest, hends⟩ := List.exists_cons_of_ne_nil (List.ne_nil_of_mem hq)
  have hr : r ∈ (cls.expr folded).ends .ahead p := hends ▸ List.mem_cons_self
  -- both are the place after the next character
  obtain ⟨c, hc, -⟩ := mem_ends_expr.1 hq
  obtain ⟨d, hd, -⟩ := mem_ends_expr.1 hr
  rw [hc] at hd
  rw [hends, List.head?_cons, (Prod.mk.inj (Option.some.inj hd)).2]

/-! ### Members -/

theorem takes_iff {cls : CharClass} {c : Char} : cls.takes false c = true ↔ c ∈ cls.members := by
  simp [takes, sameChar]

/-- Where case is ignored, the upper case that a class has been given is taken anyway. -/
theorem takes_ofChars_folded {chars : List Char} {c : Char} :
    (ofChars chars true).takes true c = true ↔ ∃ d ∈ chars, fold c = fold d := by
  simp only [takes, List.any_eq_true, sameChar, if_true, decide_eq_true_eq]
  constructor
  · rintro ⟨d, hd, hfold⟩
    obtain ⟨e, he, hfold'⟩ := exists_fold_eq hd
    exact ⟨e, he, (hfold'.trans hfold).symm⟩
  · rintro ⟨d, hd, hfold⟩
    exact ⟨d, mem_members_ofChars.2 (.inl hd), hfold.symm⟩

end CharClass

/-! ### Matches -/

/-- At every place the source matches the next character, if it is one of these, and otherwise nothing. -/
def Regex.MatchesOneOf (source : Text) (S : Char → Prop) : Prop :=
  ∃ r, compile source = .ok r ∧ ∀ p span, (matchAt? r.plan p).map Match.span = some span ↔
    ∃ c q, p.step? .ahead = some (c, q) ∧ S c ∧ span = (p, q)

/-- A source that is read as one item is compiled if the item has a plan. -/
theorem compile_of_readsOne {source : Text} {ts : List Token} {e : Expr} {P : Plan} (hts : tokens source = .ok ts)
    (hnesting : nesting 0 ts < nestingLimit) (hreads : ReadsOne True {} ts (· = e)) (he : e ≠ .empty)
    (hP : e.planWhole = .ok P) : ∃ r, compile source = .ok r ∧ r.plan = P := by
  rcases parse_of_choice (hreads.choice he) hts with ⟨parsed, bs, hparsed, hexpr, rfl⟩ | ⟨hstrict, -⟩
  · have hexpr : parsed.expr = e := hexpr
    rw [← hexpr] at hP
    refine ⟨⟨source, P, parsed.names⟩, ?_, rfl⟩
    simp only [compile, Regex.read, hts, hparsed, hP, bind, Except.bind, pure, Except.pure, if_neg hnesting.not_ge]
  · exact absurd trivial hstrict

/-- A source that is read as a class matches what the class takes. -/
theorem matchesOneOf_of_readsOne {cls : CharClass} {folded : Bool} {source : Text} {ts : List Token}
    (hts : tokens source = .ok ts) (hnesting : nesting 0 ts < nestingLimit)
    (hreads : ReadsOne True {} ts (· = cls.expr folded)) : MatchesOneOf source fun c => cls.takes folded c = true := by
  obtain ⟨-, hplain, hne⟩ := cls.expr_fine folded
  obtain ⟨P, hP⟩ := cls.exists_planWhole folded
  obtain ⟨r, hr, rfl⟩ := compile_of_readsOne hts hnesting hreads hne hP
  refine ⟨r, hr, fun p span => ?_⟩
  rw [span_matchAt? hplain hP, Option.map_eq_some_iff]
  simp only [CharClass.head?_ends_expr]
  constructor
  · rintro ⟨q, ⟨c, hstep, hc⟩, rfl⟩
    exact ⟨c, q, hstep, hc, rfl⟩
  · rintro ⟨c, q, hstep, hc, rfl⟩
    exact ⟨q, ⟨c, hstep, hc⟩, rfl⟩

theorem matchesOneOf_pattern (cls : CharClass) : MatchesOneOf cls.pattern fun c => cls.takes false c = true :=
  matchesOneOf_of_readsOne cls.lexes_tokens.2.tokens_eq cls.nesting_tokens.1 (cls.readsOne_tokens rfl)

/-- A class in a group that ignores case. -/
theorem matchesOneOf_folded (cls : CharClass) :
    MatchesOneOf (['(', '?', 'i', ':'] ++ cls.pattern ++ [')']) fun c => cls.takes true c = true := by
  obtain ⟨hopens, hlex⟩ := cls.lexes_tokens
  have hflags : Lexes ['(', '?', 'i', ':'] [.opening (.plain (flagsChange true false))] :=
    lexes_flags (i := true) (m := false) (x := false) (List.cons_ne_nil _ _)
  have hgroup := (hflags.append hlex hopens).append lexes_close (opens_cons (by decide) _)
  refine matchesOneOf_of_readsOne hgroup.tokens_eq (cls.nesting_tokens.2 _) ?_
  have hchoice : ReadsChoice True ⟨true, false, false⟩ cls.tokens (· = [cls.expr true]) :=
    ReadsOne.choice (cls.readsOne_tokens rfl) (cls.expr_fine true).2.2
  have hone : ReadsOne True {} (.opening (.plain (flagsChange true false)) :: cls.tokens ++ [.close])
      (· = cls.expr true) := hchoice.plainGroup (by rintro bs rfl; rfl)
  exact hone

/-- The text of the class of some characters matches these, that of any class its members, and where case is ignored that
of the class of some characters whatever folds as one of them does. -/
theorem matchesOneOf_class :
    (∀ chars, MatchesOneOf (CharClass.ofChars chars false).pattern (· ∈ chars)) ∧
    (∀ cls : CharClass, MatchesOneOf cls.pattern (· ∈ cls.members)) ∧
    ∀ chars, MatchesOneOf (['(', '?', 'i', ':'] ++ (CharClass.ofChars chars true).pattern ++ [')'])
      fun c => ∃ d ∈ chars, fold c = fold d := by
  refine ⟨fun chars => ?_, fun cls => ?_, fun chars => ?_⟩
  · simpa only [CharClass.takes_iff, CharClass.mem_ofChars] using matchesOneOf_pattern (CharClass.ofChars chars false)
  · simpa only [CharClass.takes_iff] using matchesOneOf_pattern cls
  · simpa only [CharClass.takes_ofChars_folded] using matchesOneOf_folded (CharClass.ofChars chars true)

end WordPattern
