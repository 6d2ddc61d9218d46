import WordPattern.Proofs.Reading.Scanned
import WordPattern.Proofs.Reading.SelfContained
import WordPattern.Proofs.Reading.Whole

/-! Groups around texts that open and close their own groups.

Such a text may be cut into other tokens than its parts are cut into alone, and still the group that is opened before it is
closed after it. -/

namespace WordPattern.Regex

open ParseState

variable {s t inner source : Text} {ts : List Token} {o : Opening}

/-- The text closes all groups that it opens, and no others, and ends outside of escapes and sets. -/
def Paired (t : Text) : Prop := ∀ n, placeAfter .outside n t = some (.outside, n)

theorem paired_nil : Paired [] := fun _ => rfl

theorem Paired.append (hs : Paired s) (ht : Paired t) : Paired (s ++ t) := fun n => by
  rw [placeAfter_append, hs]
  exact ht n

theorem paired_of_balanced (hts : tokens t = .ok ts) (h : Balanced ts) : Paired t := by
  intro n
  have hplace : placeAfter .outside 0 t = some (.outside, 0) := by
    rw [placeAfter_tokens hts, h]
    rfl
  simpa using placeAfter_add hplace n

theorem balanced_of_parse {parsed : Parsed} (hts : tokens source = .ok ts) (h : parse source = .ok parsed) :
    Balanced ts := by
  obtain ⟨s, hs, haround, -⟩ := steps_of_parse hts h
  have hopen := openAfter_of_steps hs
  rw [haround] at hopen
  exact hopen

/-- A regular expression is paired. -/
theorem paired_of_parse {parsed : Parsed} (h : parse source = .ok parsed) : Paired source := by
  obtain ⟨ts, hts⟩ := exists_tokens_of_parse h
  exact paired_of_balanced hts (balanced_of_parse hts h)

theorem paired_of_lexes (h : Lexes t ts) (hts : Balanced ts) : Paired t := paired_of_balanced h.tokens_eq hts

theorem paired_of_inert (h : AllInert t) : Paired t := placeAfter_inert h (.inl rfl)

/-! ### Units -/

theorem openAfter_eq_none {n : Nat} {t : Token} (h : openAfter n [t] = none) : t = .close ∧ n = 0 := by
  cases t with
  | close =>
    cases n with
    | zero => exact ⟨rfl, rfl⟩
    | succ n => contradiction
  | _ => cases n <;> contradiction

/-- A text that closes the last of some open groups only at its end: the token there is the one that closes it. -/
theorem tokens_closed {n : Nat} (hplace : placeAfter .outside n inner = some (.outside, 0))
    (h : tokens (inner ++ [')']) = .ok ts) : ∃ mid, ts = mid ++ [.close] ∧ openAfter n mid = some 0 := by
  refine tokens_induction (motive := fun source ts => ∀ inner n, source = inner ++ [')'] →
    placeAfter .outside n inner = some (.outside, 0) → ∃ mid, ts = mid ++ [.close] ∧ openAfter n mid = some 0)
    (fun inner n hnil => by simp at hnil) ?_ h inner n rfl hplace
  intro c r t k later ht hlater ih inner n hsource hplace
  cases inner with
  | nil =>
    obtain ⟨rfl, rfl⟩ := List.cons.inj hsource
    obtain ⟨rfl, rfl⟩ := Prod.mk.inj (Except.ok.inj ht)
    obtain rfl := Except.ok.inj hlater
    obtain ⟨-, rfl⟩ := Prod.mk.inj (Option.some.inj hplace)
    exact ⟨[], rfl, rfl⟩
  | cons d inner =>
    rw [List.cons_append] at hsource
    obtain ⟨rfl, rfl⟩ := List.cons.inj hsource
    have hspec := token_spec ht
    have htoken := hspec.placeAfter n
    by_cases hk : k ≤ inner.length
    · rw [List.take_append_of_le_length hk] at htoken
      rw [← List.take_append_drop k inner, ← List.cons_append, placeAfter_append, htoken] at hplace
      cases hm : openAfter n [t] with
      | none =>
        rw [hm] at hplace
        contradiction
      | some m =>
        rw [hm] at hplace
        obtain ⟨mid, rfl, hmid⟩ := ih (inner.drop k) m (List.drop_append_of_le_length hk) hplace
        refine ⟨t :: mid, rfl, ?_⟩
        rw [openAfter_cons, hm]
        exact hmid
    · -- the token would take the parenthesis, and what it opens and closes would not be counted
      have hall : (inner ++ [')']).length ≤ k := by
        rw [List.length_append, List.length_singleton]
        omega
      rw [List.take_of_length_le hall, ← List.cons_append, placeAfter_append, hplace] at htoken
      cases hm : openAfter n [t] with
      | none =>
        have hzero := hspec.close (openAfter_eq_none hm).1
        omega
      | some m =>
        rw [hm] at htoken
        contradiction

def BeginsGroup (start : Text) (o : Opening) : Prop :=
  ∀ rest, tokens (start ++ rest) = (tokens rest).map (.opening o :: ·)

section Groups

variable {start : Text}

theorem beginsGroup_of_token {c : Char} {r : Text} (h : ∀ rest, token c (r ++ rest) = .ok (.opening o, r.length)) :
    BeginsGroup (c :: r) o := by
  intro rest
  rw [List.cons_append, tokens_of_token (h rest), List.drop_left]

theorem beginsGroup_groupStart (mode : Mode) (closed : Bool) :
    BeginsGroup (mode.groupStart closed) (groupOpening mode closed) := by
  unfold Mode.groupStart groupOpening
  split_ifs
  · exact beginsGroup_of_token fun _ => rfl
  · exact beginsGroup_of_token fun _ => rfl

theorem beginsGroup_flags {i m x : Bool} (h : flagsText i m x ≠ []) :
    BeginsGroup (['(', '?'] ++ flagsText i m x ++ [':']) (.plain (flagsChange i m)) := by
  cases i <;> cases m <;> cases x <;> first | contradiction | exact beginsGroup_of_token fun _ => rfl

theorem beginsGroup_named {name : Text} (h : isGroupName name = true) :
    BeginsGroup (['(', '?', '<'] ++ name ++ ['>']) (.named name) := by
  refine beginsGroup_of_token fun rest => ?_
  have hlength : (['?', '<'] ++ name ++ ['>']).length = name.length + 3 := by simp
  exact hlength ▸ token_named h rest

theorem BeginsGroup.paired (h : BeginsGroup start o) (ht : Paired t) : Paired (start ++ t ++ [')']) := by
  intro n
  have hstart : tokens start = .ok [.opening o] := by
    have hnil := h []
    rwa [List.append_nil] at hnil
  rw [placeAfter_append, placeAfter_append, placeAfter_tokens hstart]
  change ((placeAfter .outside (n + 1) t).bind fun x => placeAfter x.1 x.2 [')']) = _
  rw [ht]
  rfl

/-- A group around a paired text is a unit. -/
theorem BeginsGroup.singleUnit (h : BeginsGroup start o) (ht : Paired t) (hts : tokens (start ++ t ++ [')']) = .ok ts) :
    SingleUnit ts := by
  rw [List.append_assoc, h] at hts
  obtain ⟨later, hlater, rfl⟩ := map_eq_ok hts
  obtain ⟨mid, rfl, hmid⟩ := tokens_closed (ht 0) hlater
  exact .group o hmid

end Groups

/-! ### Repeats after units -/

theorem SingleUnit.getLast?_ne (h : SingleUnit ts) (o : Opening) : ts.getLast? ≠ some (.opening o) := by
  cases h with
  | item ht =>
    rintro heq
    obtain rfl := Option.some.inj heq
    contradiction
  | group =>
    rw [List.getLast?_concat]
    simp

theorem Quantifies.beginsRepeat {us : List Token} {f : Expr → Expr} (h : Quantifies us f) {q : Text}
    (hq : tokens q = .ok us) : BeginsRepeat q := by
  obtain ⟨t, later, low, high, rfl, ht⟩ : ∃ t later low high, us = t :: later ∧ t.bounds? = some (low, high) := by
    cases h with
    | greedy ht | lazy ht | possessive ht => exact ⟨_, _, _, _, rfl, ht⟩
  cases q with
  | nil => exact absurd (Except.ok.inj hq) (by simp)
  | cons c r =>
    obtain ⟨u, n, later', htoken, -, heq⟩ := tokens_cons hq
    obtain ⟨rfl, -⟩ := List.cons.inj heq
    have hrepeat : t.isRepeat = true := by
      cases t <;> first | rfl | contradiction
    refine ⟨?_, c, head_of_isRepeat htoken hrepeat, rfl⟩
    rintro r' hr
    obtain ⟨rfl, rfl⟩ := List.cons.inj hr
    cases hbounds : bounds? r with
    | some y => rfl
    | none =>
      rw [token, brace_eq_char hbounds] at htoken
      obtain ⟨rfl, -⟩ := Prod.mk.inj (Except.ok.inj htoken)
      contradiction

/-- A repeat that is written after a unit applies to all of it. -/
theorem SingleUnit.parse_append (h : SingleUnit ts) (hts : tokens source = .ok ts) {parsed : Parsed}
    (hparsed : parse source = .ok parsed) (hrepeat : parsed.expr.isRepeatable = true) {q : Text} {us : List Token}
    {f : Expr → Expr} (hq : tokens q = .ok us) (hf : Quantifies us f) :
    parse (source ++ q) = .ok ⟨f parsed.expr, parsed.names⟩ := by
  apply h.parse_quantified hts hparsed hrepeat hf
  rw [tokens_append hts (h.getLast?_ne _) (hf.beginsRepeat hq), hq]
  rfl

end WordPattern.Regex
