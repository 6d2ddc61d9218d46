import WordPattern.Proofs.Matching.Spans
import WordPattern.Proofs.Reading.Groups
import WordPattern.Settings

/-! Whole sources: the beginnings of the groups that can stand around them, and compiling them.

A tame expression is refused only because it is too large for a sweep. -/

namespace WordPattern.Regex

/-! ### Groups with flags and names -/

/-- The text of flags that are switched on, with the one flag that may be switched off at the end. -/
def flagsText (ignoreCase multiline notExtended : Bool) : Text :=
  (if ignoreCase then ['i'] else []) ++ (if multiline then ['m'] else []) ++ (if notExtended then ['-', 'x'] else [])

def flagsChange (ignoreCase multiline : Bool) : FlagChange where
  ignoreCase := if ignoreCase then some true else none
  multiline := if multiline then some true else none

theorem lexes_flags {i m x : Bool} (h : flagsText i m x ≠ []) :
    Lexes (['(', '?'] ++ flagsText i m x ++ [':']) [.opening (.plain (flagsChange i m))] := by
  cases i <;> cases m <;> cases x <;> first | contradiction | exact lexes_token fun _ _ => rfl

theorem groupName_append {name : Text} (h : ∀ c ∈ name, (Unicode.isAlphanumeric c || c = '_') = true) (rest : Text) :
    groupName (name ++ '>' :: rest) = .ok (name, name.length + 1) := by
  induction name with
  | nil => rfl
  | cons c name ih =>
    have hc := h c List.mem_cons_self
    have hne : c ≠ '>' := by
      rintro rfl
      revert hc
      decide
    rw [List.cons_append, groupName, if_neg hne, if_pos hc, ih fun d hd => h d (List.mem_cons_of_mem _ hd)]
    rfl

theorem isGroupName_all {name : Text} (h : isGroupName name = true) :
    ∀ c ∈ name, (Unicode.isAlphanumeric c || c = '_') = true := by
  cases name with
  | nil => contradiction
  | cons c name =>
    simp only [isGroupName, Bool.and_eq_true, Bool.or_eq_true, List.all_eq_true] at h
    intro d hd
    rcases List.mem_cons.1 hd with rfl | hd
    · simp only [Unicode.isAlphanumeric, Bool.or_eq_true]
      exact h.1.imp_left .inl
    · simpa using h.2 d hd

theorem token_named {name : Text} (h : isGroupName name = true) (rest : Text) :
    token '(' (['?', '<'] ++ name ++ ['>'] ++ rest) = .ok (.opening (.named name), name.length + 3) := by
  cases name with
  | nil => contradiction
  | cons c name =>
    have hnonempty : nonemptyName (c :: name ++ '>' :: rest) = .ok (c :: name, name.length + 2) := by
      rw [nonemptyName, groupName_append (isGroupName_all h)]
      rfl
    have htext : ['?', '<'] ++ c :: name ++ ['>'] ++ rest = '?' :: '<' :: (c :: name ++ '>' :: rest) := by simp
    rw [htext]
    exact parenthesis_named hnonempty

theorem lexes_named {name : Text} (h : isGroupName name = true) :
    Lexes (['(', '?', '<'] ++ name ++ ['>']) [.opening (.named name)] := by
  refine lexes_token fun rest _ => ?_
  have hlength : (['?', '<'] ++ name ++ ['>']).length = name.length + 3 := by simp
  exact hlength ▸ token_named h rest

/-! ### Compiling -/

namespace Expr

theorem checkCounts_error {e : Expr} (h : e.Tame) {x : SyntaxError} (hx : e.checkCounts = .error x) :
    x = .tooLarge := by
  induction e with
  | seq first rest ih ih' | alt first rest ih ih' =>
    rcases bind_eq_error hx with hx | ⟨_, -, hx⟩
    · exact ih h.1 hx
    · exact ih' h.2 hx
  | rounds low high greedy body ih =>
    obtain ⟨hle, hbody⟩ := h
    simp only [checkCounts, if_neg (Nat.not_lt.2 hle)] at hx
    split_ifs at hx
    · exact (Except.error.inj hx).symm
    · exact ih hbody hx
  | capture group body ih | atomic body ih => exact ih h hx
  | look d negated body ih => exact ih h.2 hx
  | empty | fail | char | set | anyChar | anchor | backref => contradiction

theorem checkSweep_error {e : Expr} (h : e.Tame) {x : SyntaxError} (hx : e.checkSweep = .error x) : x = .tooLarge := by
  rcases bind_eq_error hx with hx | ⟨_, -, hx⟩
  · exact checkCounts_error h hx
  · split_ifs at hx
    · exact (Except.error.inj hx).symm
    · contradiction

theorem swept_error {e : Expr} {x : SyntaxError} (hx : e.swept = .error x) : e.checkSweep = .error x :=
  (bind_eq_error hx).resolve_right fun ⟨_, _, hx⟩ => by contradiction

/-- The expression and all expressions that it is put together from. -/
def parts : Expr → List Expr
  | seq first rest => seq first rest :: (first.parts ++ rest.parts)
  | alt first rest => alt first rest :: (first.parts ++ rest.parts)
  | rounds low high greedy body => rounds low high greedy body :: body.parts
  | capture group body => capture group body :: body.parts
  | atomic body => atomic body :: body.parts
  | look direction negated body => look direction negated body :: body.parts
  | e => [e]

theorem mem_parts_self (e : Expr) : e ∈ e.parts := by cases e <;> simp [parts]

/-- The expressions that an expression is put together from directly. -/
def operands : Expr → List Expr
  | seq first rest | alt first rest => [first, rest]
  | rounds _ _ _ body | capture _ body | atomic body | look _ _ body => [body]
  | _ => []

/-- What passes from an expression to its operands passes to all its parts. -/
theorem parts_induction {P : Expr → Prop} (hP : ∀ e, P e → ∀ o ∈ e.operands, P o) {e part : Expr} (h : P e)
    (hpart : part ∈ e.parts) : P part := by
  induction e with
  | seq first rest ih ih' | alt first rest ih ih' =>
    rcases List.mem_cons.1 hpart with rfl | hpart
    · exact h
    · have hoperands := hP _ h
      exact (List.mem_append.1 hpart).elim (ih (hoperands _ List.mem_cons_self)) (ih' (hoperands _ (by simp [operands])))
  | rounds low high greedy body ih | capture group body ih | atomic body ih | look direction negated body ih =>
    rcases List.mem_cons.1 hpart with rfl | hpart
    · exact h
    · exact ih (hP _ h _ List.mem_cons_self) hpart
  | empty | fail | char | set | anyChar | anchor | backref =>
    rw [List.mem_singleton.1 hpart]
    exact h

theorem Tame.operand {e o : Expr} (h : e.Tame) (ho : o ∈ e.operands) : o.Tame := by
  cases e with
  | seq first rest | alt first rest => exact (List.mem_pair.1 ho).elim (· ▸ h.1) (· ▸ h.2)
  | rounds low high greedy body | look direction negated body => exact List.mem_singleton.1 ho ▸ h.2
  | capture group body | atomic body => exact List.mem_singleton.1 ho ▸ h
  | empty | fail | char | set | anyChar | anchor | backref => exact absurd ho List.not_mem_nil

/-- Without looks behind, a plan is refused only for a part that cannot be swept. -/
theorem plan_error {e : Expr} (h : e.Tame) {referenced : List Nat} {stepwise leading : Bool} {x : SyntaxError}
    (hx : e.plan referenced stepwise leading = .error x) : ∃ part ∈ e.parts, part.checkSweep = .error x := by
  have hwhole : ∀ {e : Expr}, e.swept = .error x → ∃ part ∈ e.parts, part.checkSweep = .error x := fun hx =>
    ⟨_, mem_parts_self _, swept_error hx⟩
  have hgrow : ∀ {ps qs : List Expr}, ps ⊆ qs → (∃ part ∈ ps, part.checkSweep = .error x) →
      ∃ part ∈ qs, part.checkSweep = .error x := fun hsub ⟨part, hmem, hx⟩ => ⟨part, hsub hmem, hx⟩
  induction e generalizing stepwise leading with
  | seq first rest ih ih' =>
    have hfirst : first.parts ⊆ (seq first rest).parts := fun _ hp => List.mem_cons_of_mem _ (List.mem_append_left _ hp)
    have hrest : rest.parts ⊆ (seq first rest).parts := fun _ hp => List.mem_cons_of_mem _ (List.mem_append_right _ hp)
    unfold plan at hx
    split_ifs at hx
    · exact hwhole hx
    · simp only at hx
      split_ifs at hx
      · exact (pair_eq_error hx).elim (fun hx => hgrow hfirst (hwhole hx)) fun hx => hgrow hrest (ih' h.2 hx)
      · exact (pair_eq_error hx).elim (fun hx => hgrow hfirst (ih h.1 hx)) fun hx => hgrow hrest (ih' h.2 hx)
  | alt first rest ih ih' =>
    have hfirst : first.parts ⊆ (alt first rest).parts := fun _ hp => List.mem_cons_of_mem _ (List.mem_append_left _ hp)
    have hrest : rest.parts ⊆ (alt first rest).parts := fun _ hp => List.mem_cons_of_mem _ (List.mem_append_right _ hp)
    unfold plan at hx
    split_ifs at hx
    · exact hwhole hx
    · exact (pair_eq_error hx).elim (fun hx => hgrow hfirst (ih h.1 hx)) fun hx => hgrow hrest (ih' h.2 hx)
  | rounds low high greedy body ih =>
    unfold plan at hx
    split_ifs at hx
    · exact hwhole hx
    · exact hgrow (List.subset_cons_self ..) (ih h.2 (map_eq_error hx))
  | capture group body ih | atomic body ih =>
    unfold plan at hx
    split_ifs at hx
    · exact hwhole hx
    · exact hgrow (List.subset_cons_self ..) (ih h (map_eq_error hx))
  | look d negated body ih =>
    unfold plan at hx
    simp only [isSwept, isRegular, Bool.false_and, Bool.false_eq_true, if_false, h.1] at hx
    exact hgrow (List.subset_cons_self ..) (ih h.2 (map_eq_error hx))
  | empty | fail | char | set | anyChar | anchor | backref =>
    unfold plan at hx
    split_ifs at hx
    all_goals contradiction

theorem finalLook?_tame {e front body : Expr} (h : e.Tame) (hf : e.finalLook? = some (front, body)) :
    front.Tame ∧ body.Tame := by
  induction e generalizing front body with
  | seq first rest ih ih' =>
    unfold finalLook? at hf
    split at hf
    · rename_i heq
      obtain ⟨rfl, rfl⟩ := Prod.mk.inj (Option.some.inj hf)
      obtain ⟨rfl, -⟩ := Expr.seq.inj heq
      exact ⟨trivial, h.1.2⟩
    · rename_i heq
      obtain ⟨rfl, rfl⟩ := Expr.seq.inj heq
      obtain ⟨⟨front', body'⟩, hrest, heq⟩ := Option.map_eq_some_iff.1 hf
      obtain ⟨rfl, rfl⟩ := Prod.mk.inj heq
      obtain ⟨hfront, hbody⟩ := ih' h.2 hrest
      exact ⟨⟨h.1, hfront⟩, hbody⟩
    · contradiction
  | _ => simp [finalLook?] at hf

/-- A tame expression has a plan unless it is too large. -/
theorem planWhole_error {e : Expr} (h : e.Tame) {x : SyntaxError} (hx : e.planWhole = .error x) : x = .tooLarge := by
  have hplan : ∀ {e : Expr}, e.Tame → ∀ {referenced}, e.plan referenced false true = .error x → x = .tooLarge := by
    intro e h referenced hx
    obtain ⟨part, hpart, hx⟩ := plan_error h hx
    exact checkSweep_error (parts_induction (fun _ h _ => h.operand) h hpart) hx
  unfold planWhole at hx
  split at hx
  · rename_i front body hf
    obtain ⟨hfront, hbody⟩ := finalLook?_tame h hf
    exact hplan (show (sequence [capture 0 front, body]).Tame from ⟨hfront, hbody, trivial⟩) hx
  · exact hplan h hx

end Expr

/-- A source that is read as something tame is compiled, unless it is nested too deeply or too large. -/
theorem compile_error {source : Text} {parsed : Parsed} (hparsed : parse source = .ok parsed) (htame : parsed.expr.Tame)
    {x : SyntaxError} (hx : compile source = .error x) : x = .tooDeep ∨ x = .tooLarge := by
  obtain ⟨ts, hts, -⟩ := bind_eq_ok hparsed
  unfold compile at hx
  rw [hts] at hx
  simp only [bind, Except.bind] at hx
  split_ifs at hx
  · exact .inl (Except.error.inj hx).symm
  · rcases bind_eq_error (show read source = .error x from hx) with hx | ⟨parsed', hparsed', hx⟩
    · rw [hparsed] at hx
      contradiction
    · obtain rfl := Except.ok.inj (hparsed.symm.trans hparsed')
      exact .inr (Expr.planWhole_error htame (map_eq_error hx))

/-- A source is compiled as it is read, unless it is nested too deeply or too large. -/
theorem compile_of_branches {strict : Prop} {source : Text} {ts : List Token} {f : Reach} (hlex : Lexes source ts)
    (h : ReadsBranches strict {} ts f) :
    (∀ r, compile source = .ok r → ∀ p, (matchAt? r.plan p).map Match.span = (f p).head?.map (p, ·)) ∧
      (strict → ∀ x, compile source = .error x → x = .tooDeep ∨ x = .tooLarge) := by
  have hparse := parse_of_branches h hlex.tokens_eq
  constructor
  · intro r hr p
    unfold compile at hr
    rw [hlex.tokens_eq] at hr
    simp only [bind, Except.bind] at hr
    split_ifs at hr
    obtain ⟨parsed, hparsed, hr⟩ := bind_eq_ok (show read source = .ok r from hr)
    obtain ⟨P, hP, hr⟩ := bind_eq_ok hr
    obtain rfl := Except.ok.inj hr
    rcases hparse with ⟨parsed', hok, hfirm, rfl⟩ | ⟨-, x, hx⟩
    · obtain rfl := Except.ok.inj (hok.symm.trans hparsed)
      exact span_matchAt? hfirm.1.1 hP p
    · rw [hx] at hparsed
      contradiction
  · intro hstrict x hx
    rcases hparse with ⟨parsed, hparsed, hfirm, -⟩ | ⟨hn, -⟩
    · exact compile_error hparsed (hfirm.1.2 hstrict) hx
    · exact absurd hstrict hn

end WordPattern.Regex
