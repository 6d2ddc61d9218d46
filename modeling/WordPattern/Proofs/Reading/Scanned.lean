import WordPattern.Proofs.Reading.Brackets
import WordPattern.Proofs.Reading.Classes

/-! What a scan of characters counts is what the tokens open and close. -/

namespace WordPattern.Regex

open Place

section Sets

variable {n k : Nat} {c : Char} {r s : Text} {t : Token}

theorem consumes_asciiName? {set : NamedSet} (h : asciiName? r = some (set, n)) :
    Consumes asciiName? r (some (set, n)) n fun s => ∀ k, placeAfter .setName k s = some (.set, k) := by
  obtain ⟨⟨name, set'⟩, hmem, hname⟩ := List.exists_of_findSome?_eq_some h
  simp only at hname
  split_ifs at hname with hprefix
  obtain ⟨rest, rfl⟩ := List.isPrefixOf_iff_prefix.1 hprefix
  clear hname hprefix
  simp only [asciiSets, List.mem_cons, Prod.mk.injEq, List.not_mem_nil, or_false] at hmem
  rcases hmem with ⟨rfl, rfl⟩ | ⟨rfl, rfl⟩ | ⟨rfl, rfl⟩ | ⟨rfl, rfl⟩ | ⟨rfl, rfl⟩ | ⟨rfl, rfl⟩ | ⟨rfl, rfl⟩ | ⟨rfl, rfl⟩ |
    ⟨rfl, rfl⟩ | ⟨rfl, rfl⟩ | ⟨rfl, rfl⟩ | ⟨rfl, rfl⟩ | ⟨rfl, rfl⟩ | ⟨rfl, rfl⟩
  all_goals
    obtain ⟨rfl, rfl⟩ := Prod.mk.inj (Option.some.inj h)
    exact ⟨_, rest, rfl, rfl, fun _ => rfl, fun _ => rfl⟩

theorem consumes_asciiSet? {set : NamedSet} {negated : Bool} (h : asciiSet? r = some (set, negated, n)) :
    Consumes asciiSet? r (some (set, negated, n)) n fun s => ∀ k, placeAfter .setName k s = some (.set, k) := by
  unfold asciiSet? at h
  split at h
  · obtain ⟨⟨set', m⟩, hname, heq⟩ := Option.map_eq_some_iff.1 h
    obtain ⟨rfl, rfl, rfl⟩ : set' = set ∧ true = negated ∧ m + 2 = n := by simpa using heq
    refine (consumes_asciiName? hname).prepend [':', '^'] (fun r' hr' => ?_) fun s hs k => hs k
    rw [List.cons_append, List.singleton_append, asciiSet?, hr']
    rfl
  · rename_i hcaret
    obtain ⟨⟨set', m⟩, hname, heq⟩ := Option.map_eq_some_iff.1 h
    obtain ⟨rfl, rfl, rfl⟩ : set' = set ∧ false = negated ∧ m + 1 = n := by simpa using heq
    obtain ⟨name, s, hr, hlower, hm⟩ := asciiName?_spec hname
    refine (consumes_asciiName? hname).prepend [':'] (fun r' hr' => ?_) fun s hs k => hs k
    obtain ⟨name', s', rfl, hlower', -⟩ := asciiName?_spec hr'
    rw [List.singleton_append]
    unfold asciiSet?
    split
    · -- a name has no complement mark
      rename_i heq
      cases name' with
      | nil => exact absurd (List.cons.inj heq).2 (by simp)
      | cons c name' =>
        obtain rfl := (List.cons.inj (List.cons.inj heq).2).1
        exact absurd (hlower' _ List.mem_cons_self) (by decide)
    · rename_i heq
      obtain rfl := (List.cons.inj heq).2
      rw [hr']
      rfl
    · rename_i hcolon
      exact absurd rfl (hcolon _)
  · contradiction

/-- From its second character on, a member of a set is passed without leaving the set. -/
theorem consumes_setPart {part : SetPart} (hc : c ≠ ']') (h : setPart c r = .ok (part, n)) :
    Consumes (setPart c) r (.ok (part, n)) n fun s => ∀ k, placeAfter (afterMember c) k s = some (.set, k) := by
  have hescaped : ∀ s, IsEscaped s → ∀ k, placeAfter .setEscape k s = some (.set, k) := by
    rintro s ⟨d, s', rfl, hs'⟩ k
    exact placeAfter_inert hs' (.inr rfl) k
  unfold setPart at h
  split at h
  · cases hset : escapedSet? r with
    | some y =>
      have hconsumes := consumes_escapedSet? hset
      rw [hset] at h
      obtain ⟨rfl, rfl⟩ := Prod.mk.inj (Except.ok.inj h)
      refine hconsumes.mono (fun r' hr' => ?_) hescaped
      rw [setPart, hr']
    | none =>
      rw [hset] at h
      obtain ⟨⟨d, m⟩, hchar, heq⟩ := map_eq_ok h
      obtain ⟨rfl, rfl⟩ := Prod.mk.inj heq
      refine (consumes_character hset hchar).mono (fun r' hr' => ?_) hescaped
      obtain ⟨hset', hchar'⟩ := Prod.mk.inj hr'
      rw [setPart, hset', hchar']
      rfl
  · cases hset : asciiSet? r with
    | some y =>
      rw [hset] at h
      obtain ⟨rfl, rfl⟩ := Prod.mk.inj (Except.ok.inj h)
      refine (consumes_asciiSet? hset).mono (fun r' hr' => ?_) fun s hs => hs
      rw [setPart, hr']
    | none =>
      rw [hset] at h
      contradiction
  · obtain ⟨rfl, rfl⟩ := Prod.mk.inj (Except.ok.inj h)
    exact ⟨[], r, rfl, rfl, fun _ => rfl, fun _ => rfl⟩
  · rename_i hback hopen hhyphen
    obtain ⟨rfl, rfl⟩ := Prod.mk.inj (Except.ok.inj h)
    refine ⟨[], r, rfl, rfl, fun rest' => ?_, fun _ => ?_⟩
    · unfold setPart
      split <;> first | rfl | simp_all
    · simp_all [placeAfter, afterMember]

theorem placeAfter_set_cons (hc : c ≠ ']') (k : Nat) (s : Text) : placeAfter .set k (c :: s) = placeAfter (afterMember c) k s := by
  simp [placeAfter, openAfterChar, next, hc]

theorem ne_nil_of_placeAfter_set (h : ∀ k, placeAfter .set k s = some (.outside, k)) : s ≠ [] := by
  rintro rfl
  exact absurd (h 0) (by decide)

/-- The text up to the bracket that closes the set. -/
theorem consumes_setParts {parts : List SetPart} (h : setParts 0 r = .ok (parts, n)) :
    Consumes (setParts 0) r (.ok (parts, n)) n fun s => ∀ k, placeAfter .set k s = some (.outside, k) := by
  induction hlength : r.length using Nat.strong_induction_on generalizing r parts n with
  | _ l ih =>
    cases r with
    | nil => contradiction
    | cons c r =>
      by_cases hc : c = ']'
      · subst hc
        obtain ⟨rfl, rfl⟩ := Prod.mk.inj (Except.ok.inj h)
        exact ⟨[']'], r, rfl, rfl, fun _ => rfl, fun _ => rfl⟩
      · obtain ⟨part, later, m, k, hpart, hparts, rfl, rfl⟩ := setParts_cons_eq_ok hc h
        obtain ⟨s, rest, rfl, rfl, hs, hplace⟩ := consumes_setPart hc hpart
        rw [setParts_eq_drop _ (by simp), List.drop_left] at hparts
        obtain ⟨⟨later', i⟩, hrest, heq⟩ := map_eq_ok hparts
        obtain ⟨rfl, rfl⟩ := Prod.mk.inj heq
        have hshorter : rest.length < l := by
          rw [← hlength, List.length_cons, List.length_append]
          omega
        have hlater := ih rest.length hshorter hrest rfl
        refine hlater.prepend (c :: s) (fun r' hr' => ?_) fun s' hs' k => ?_
        · rw [List.cons_append, setParts, if_neg hc, hs]
          simp only [bind, Except.bind]
          rw [setParts_eq_drop _ (by simp), List.drop_left, hr']
          rfl
        · rw [List.cons_append, placeAfter_set_cons hc, placeAfter_append, hplace]
          exact hs' k

theorem setLead_cases (r : Text) :
    (r.head? = some ']' ∧ setLead r = [']']) ∨ (r.head? ≠ some ']' ∧ setLead r = r.takeWhile (· = '-')) := by
  unfold setLead
  split_ifs with h
  · exact .inl ⟨h, rfl⟩
  · exact .inr ⟨h, rfl⟩

theorem setLead_append_drop (r : Text) : setLead r ++ r.drop (setLead r).length = r := by
  rcases setLead_cases r with ⟨hhead, hlead⟩ | ⟨-, hlead⟩
  · obtain ⟨r, rfl⟩ := List.head?_eq_some_iff.1 hhead
    rw [hlead]
    rfl
  · rw [hlead]
    exact List.prefix_iff_eq_append.1 (List.takeWhile_prefix _)

/-- What a set begins with ends where it ended before, and is passed without leaving the set. -/
theorem setLead_append {more : Text} (h : setLead r ++ c :: more = r) (rest : Text) :
    setLead (setLead r ++ c :: rest) = setLead r ∧
      ∀ k, placeAfter .setFirst k (setLead r ++ c :: rest) = placeAfter .set k (c :: rest) := by
  rcases setLead_cases r with ⟨-, hlead⟩ | ⟨hclose, hlead⟩
  · rw [hlead]
    exact ⟨rfl, fun _ => rfl⟩
  · rw [hlead] at h ⊢
    have hc : decide (c = '-') = false := by
      have hrest : r.dropWhile (· = '-') = c :: more :=
        List.append_cancel_left (List.takeWhile_append_dropWhile.trans h.symm)
      have hstop := List.head?_dropWhile_not (· = '-') r
      rw [hrest] at hstop
      simpa using hstop
    have htake := (takeWhile_digits (· = '-') r hc rest).1
    have hall : ∀ d ∈ r.takeWhile (· = '-'), d = '-' := fun d hd => by simpa using List.mem_takeWhile_imp hd
    generalize r.takeWhile (· = '-') = hyphens at *
    cases hyphens with
    | nil =>
      have hclose : c ≠ ']' := by
        rintro rfl
        exact hclose (h ▸ rfl)
      refine ⟨setLead_eq_nil hclose (by simpa using hc), fun k => ?_⟩
      rw [List.nil_append, placeAfter_set_cons hclose]
      rfl
    | cons d hyphens =>
      obtain ⟨rfl, hhyphens⟩ := List.forall_mem_cons.1 hall
      refine ⟨htake, fun k => ?_⟩
      have hinert : AllInert hyphens := fun d hd => hhyphens d hd ▸ by decide
      change placeAfter .set k (hyphens ++ c :: rest) = _
      rw [placeAfter_append, placeAfter_inert hinert (.inr rfl)]
      rfl

/-- A set after its complement mark. -/
theorem consumes_bracketBody {negated : Bool} (h : bracketBody negated r = .ok (t, n)) :
    t.isItem = true ∧ Consumes (bracketBody negated) r (.ok (t, n)) n fun s => ∀ k, placeAfter .setFirst k s = some (.outside, k) := by
  obtain ⟨⟨parts, m⟩, hparts, h⟩ := bind_eq_ok h
  obtain ⟨items, hitems, h⟩ := bind_eq_ok h
  obtain ⟨rfl, rfl⟩ := Prod.mk.inj (Except.ok.inj h)
  obtain ⟨s, rest, hr, rfl, hs, hplace⟩ := consumes_setParts hparts
  obtain ⟨c, s, rfl⟩ := List.exists_cons_of_ne_nil (ne_nil_of_placeAfter_set hplace)
  have hlead : setLead r ++ c :: (s ++ rest) = r := by
    rw [← List.cons_append, ← hr]
    exact setLead_append_drop r
  refine ⟨rfl, setLead r ++ c :: s, rest, by rw [List.append_assoc, List.cons_append, hlead], by simp, fun rest' => ?_,
    fun k => ?_⟩
  · rw [List.append_assoc, List.cons_append, bracketBody, (setLead_append hlead _).1]
    simp only [List.drop_left]
    rw [← List.cons_append, hs]
    simp only [bind, Except.bind, hitems]
    rfl
  · rw [(setLead_append hlead s).2]
    exact hplace k

/-- A set after its opening bracket. -/
theorem consumes_bracket (h : bracket r = .ok (t, n)) :
    t.isItem = true ∧ Consumes bracket r (.ok (t, n)) n fun s => ∀ k, placeAfter .setStart k s = some (.outside, k) := by
  unfold bracket at h
  split at h
  · obtain ⟨⟨u, m⟩, hbody, heq⟩ := map_eq_ok h
    obtain ⟨rfl, rfl⟩ := Prod.mk.inj heq
    obtain ⟨hitem, hconsumes⟩ := consumes_bracketBody hbody
    refine ⟨hitem, hconsumes.prepend ['^'] (fun r' hr' => ?_) fun s hs k => hs k⟩
    rw [List.singleton_append, bracket, hr']
    rfl
  · rename_i hcaret
    obtain ⟨hitem, s, rest, rfl, rfl, hs, hplace⟩ := consumes_bracketBody h
    obtain ⟨c, s, rfl⟩ : ∃ c s', s = c :: s' := by
      refine List.exists_cons_of_ne_nil ?_
      rintro rfl
      exact absurd (hplace 0) (by decide)
    have hc : c ≠ '^' := by
      rintro rfl
      exact hcaret _ rfl
    refine ⟨hitem, c :: s, rest, rfl, rfl, fun rest' => ?_, fun k => ?_⟩
    · rw [← hs rest', List.cons_append]
      unfold bracket
      split
      · rename_i heq
        exact absurd (List.cons.inj heq).1 hc
      · rfl
    · rw [← hplace k]
      simp [placeAfter, openAfterChar, next, hc]

end Sets

section Groups

variable {n k : Nat} {c : Char} {r s name : Text} {t : Token}

theorem placeAfter_inert_cons (hc : IsInert c) (k : Nat) (s : Text) :
    placeAfter .outside k (c :: s) = placeAfter .outside k s := by
  rw [← List.singleton_append, placeAfter_append, placeAfter_inert (List.forall_mem_singleton.2 hc) (.inl rfl)]
  rfl

/-- Flags up to the colon leave the group open that they stand in, and otherwise its end belongs to them. -/
def EndsFlags (colon : Bool) (s : Text) : Prop :=
  s ≠ [] ∧ ∀ k, placeAfter .outside (k + 1) s = some (.outside, if colon then k + 1 else k)

theorem consumes_flagChange {on colon : Bool} {change result : FlagChange}
    (h : flagChange on change r = .ok (result, colon, n)) :
    Consumes (flagChange on change) r (.ok (result, colon, n)) n (EndsFlags colon) := by
  induction r generalizing on change n with
  | nil => contradiction
  | cons c r ih =>
    -- one more flag, and those after it
    have hmore : ∀ {on' : Bool} {change' : FlagChange}, IsInert c →
        (∀ r', r'.head? = r.head? → flagChange on change (c :: r') =
          (flagChange on' change' r').map fun x => (x.1, x.2.1, x.2.2 + 1)) →
        Consumes (flagChange on change) (c :: r) (.ok (result, colon, n)) n (EndsFlags colon) := by
      intro on' change' hc hnext
      rw [hnext r rfl] at h
      obtain ⟨⟨result', colon', m⟩, hrest, heq⟩ := map_eq_ok h
      obtain ⟨rfl, rfl, rfl⟩ : result' = result ∧ colon' = colon ∧ m + 1 = n := by simpa using heq
      obtain ⟨s, rest, rfl, rfl, hs, hne, hplace⟩ := ih hrest
      refine ⟨c :: s, rest, rfl, rfl, fun rest' => ?_, List.cons_ne_nil _ _, fun k => ?_⟩
      · have hhead : (s ++ rest').head? = (s ++ rest).head? := by
          rw [List.head?_append_of_ne_nil _ hne, List.head?_append_of_ne_nil _ hne]
        rw [List.cons_append, hnext _ hhead, hs]
        rfl
      · rw [placeAfter_inert_cons hc, hplace]
    have hstop := h
    unfold flagChange at hstop
    simp only at hstop
    split at hstop
    case h_1 | h_2 =>
      simp only [Except.ok.injEq, Prod.mk.injEq] at hstop
      obtain ⟨rfl, rfl, rfl⟩ := hstop
      exact ⟨[_], r, rfl, rfl, fun _ => rfl, List.cons_ne_nil _ _, fun _ => rfl⟩
    case h_3 | h_4 | h_5 => exact hmore (by decide) fun _ _ => rfl
    case h_6 =>
      split_ifs at hstop with hon
      refine @hmore on change (by decide) fun r' _ => ?_
      rw [flagChange]
      simp only [hon]
      rfl
    case h_7 =>
      split_ifs at hstop with hon
      refine @hmore false change (by decide) fun r' hr' => ?_
      rw [flagChange]
      simp only [hr', hon]
      rfl
    case h_8 => contradiction

theorem parenthesis_flags (hc : c ∉ [':', '>', '=', '!', '<', 'P', ')']) (r : Text) : parenthesis ('?' :: c :: r) = do
    let (change, colon, n) ← flagChange true {} (c :: r)
    return (if colon then .opening (.plain change) else .flags change, n + 1) := by
  simp only [List.mem_cons, List.not_mem_nil, or_false, not_or] at hc
  unfold parenthesis
  split <;> simp_all

/-- What a parenthesis opens depends on what it takes, unless there is no mark after it. -/
theorem consumes_parenthesis (h : parenthesis r = .ok (t, n)) :
    t = .opening .capture ∧ n = 0 ∧ r.head? ≠ some '?' ∨
      Consumes parenthesis r (.ok (t, n)) n fun s =>
        ∀ k, ∃ m, openAfter k [t] = some m ∧ placeAfter .outside (k + 1) s = some (.outside, m) := by
  have hinert : ∀ {s}, AllInert s → ∀ k, ∃ m, some (k + 1) = some m ∧ placeAfter .outside (k + 1) s = some (.outside, m) :=
    fun hs k => ⟨k + 1, rfl, placeAfter_inert hs (.inl rfl) _⟩
  unfold parenthesis at h
  simp only at h
  split at h
  case h_1 | h_2 | h_3 | h_4 =>
    obtain ⟨rfl, rfl⟩ := Prod.mk.inj (Except.ok.inj h)
    exact .inr ⟨[_, _], _, rfl, rfl, fun _ => rfl, fun _ => ⟨_, rfl, rfl⟩⟩
  case h_5 | h_6 =>
    obtain ⟨rfl, rfl⟩ := Prod.mk.inj (Except.ok.inj h)
    exact .inr ⟨[_, _, _], _, rfl, rfl, fun _ => rfl, fun _ => ⟨_, rfl, rfl⟩⟩
  case h_7 r _ _ =>
    obtain ⟨⟨name, m⟩, hname, heq⟩ := map_eq_ok h
    obtain ⟨rfl, rfl⟩ := Prod.mk.inj heq
    refine .inr ((consumes_nonemptyName hname).prepend ['?', '<'] (fun r' hr' => parenthesis_named hr') fun s hs => ?_)
    exact hinert (AllInert.cons (by decide) (hs.cons (by decide)))
  case h_8 r =>
    obtain ⟨⟨name, m⟩, hname, heq⟩ := map_eq_ok h
    obtain ⟨rfl, rfl⟩ := Prod.mk.inj heq
    refine .inr ((consumes_nonemptyName hname).prepend ['?', 'P', '<'] (fun r' hr' => ?_) fun s hs => ?_)
    · change (nonemptyName r').map _ = _
      rw [hr']
      rfl
    · exact hinert (AllInert.cons (by decide) (AllInert.cons (by decide) (hs.cons (by decide))))
  case h_9 => contradiction
  case h_10 r hcolon hatomic hahead hnotAhead hbehind hnotBehind hnamed hnamed' hclose =>
    obtain ⟨⟨change, colon, m⟩, hflags, h⟩ := bind_eq_ok h
    obtain ⟨rfl, rfl⟩ := Prod.mk.inj (Except.ok.inj h)
    obtain ⟨s, rest, rfl, rfl, hs, hne, hplace⟩ := consumes_flagChange hflags
    obtain ⟨c, s, rfl⟩ := List.exists_cons_of_ne_nil hne
    have hc : c ∉ [':', '>', '=', '!', '<', 'P', ')'] := by
      intro hc
      simp only [List.mem_cons, List.not_mem_nil, or_false] at hc
      rcases hc with rfl | rfl | rfl | rfl | rfl | rfl | rfl
      · exact hcolon _ rfl
      · exact hatomic _ rfl
      · exact hahead _ rfl
      · exact hnotAhead _ rfl
      · contradiction
      · contradiction
      · exact hclose _ rfl
    refine .inr ⟨'?' :: c :: s, rest, rfl, rfl, fun rest' => ?_, fun k => ?_⟩
    · have hflags' := hs rest'
      rw [List.cons_append] at hflags'
      rw [List.cons_append, List.cons_append, parenthesis_flags hc, hflags']
      rfl
    · refine ⟨if colon then k + 1 else k, ?_, ?_⟩
      · cases colon <;> rfl
      · rw [placeAfter_inert_cons (by decide), hplace]
  case h_11 hmark =>
    obtain ⟨rfl, rfl⟩ := Prod.mk.inj (Except.ok.inj h)
    refine .inl ⟨rfl, rfl, fun hhead => ?_⟩
    obtain ⟨r', rfl⟩ := List.head?_eq_some_iff.1 hhead
    exact hmark r' rfl

end Groups

/-! ### Tokens -/

section Tokens

variable {n k m : Nat} {c : Char} {r s q source : Text} {t : Token} {ts : List Token}

theorem openAfter_of_isItem (h : t.isItem = true) (k : Nat) : openAfter k [t] = some k := by
  cases t with
  | opening | close | flags | bar | star | plus | question | count => contradiction
  | _ => cases k <;> rfl

def BeginsRepeat (q : Text) : Prop := Admissible q ∧ ∃ c ∈ ['*', '+', '?', '\x7b'], q.head? = some c

theorem bounds?_append (h : bounds? r = none) (hq : BeginsRepeat q) : bounds? (r ++ q) = none := by
  obtain ⟨-, d, hd, hhead⟩ := hq
  obtain ⟨q, rfl⟩ := List.head?_eq_some_iff.1 hhead
  have hd : ¬ IsCountChar d := by
    simp only [List.mem_cons, List.not_mem_nil, or_false] at hd
    rcases hd with rfl | rfl | rfl | rfl <;> simp [IsCountChar]
  cases hbounds : bounds? (r ++ d :: q) with
  | none => rfl
  | some y =>
    obtain ⟨low, high, n⟩ := y
    obtain ⟨s, rest, hsplit, rfl, hs, hcount⟩ := consumes_bounds? hbounds
    rcases List.append_eq_append_iff.1 hsplit with ⟨a, rfl, hrest⟩ | ⟨a, rfl, -⟩
    · cases a with
      | nil =>
        have hnil := hs []
        rw [List.append_nil, List.append_nil, h] at hnil
        contradiction
      | cons e a =>
        obtain ⟨rfl, -⟩ := List.cons.inj hrest
        exact absurd (hcount d (by simp)) hd
    · rw [hs a] at h
      contradiction

theorem brace_eq_count {low : Nat} {high : Option Nat} (h : bounds? r = some (low, high, n)) :
    brace r = (.count ('\x7b' :: r.take n) low high, n) := by rw [brace, h]

theorem brace_eq_char (h : bounds? r = none) : brace r = (.char '\x7b', 0) := by rw [brace, h]

theorem parenthesis_capture (h : r.head? ≠ some '?') : parenthesis r = .ok (.opening .capture, 0) := by
  unfold parenthesis
  split <;> simp_all

/-- What a token takes, what it opens and closes, and that it is read before a repeat as it is read alone. A parenthesis at
the end of the text is the exception: the repeat may tell what it opens. -/
structure Token.Spec (c : Char) (r : Text) (t : Token) (n : Nat) : Prop where
  length_le : n ≤ r.length
  close : t = .close → n = 0
  placeAfter : ∀ k, placeAfter .outside k (c :: r.take n) = (openAfter k [t]).map fun m => (.outside, m)
  append : ∀ q, BeginsRepeat q → (t = .opening .capture → r ≠ []) → token c (r ++ q) = .ok (t, n)

/-- A token of one character that neither opens nor closes a group. -/
theorem Token.Spec.plain (hc : c ∉ ['\\', '[', '(', ')']) (htoken : ∀ r, token c r = .ok (t, 0))
    (hopen : ∀ k, openAfter k [t] = some k) (r : Text) : Token.Spec c r t 0 where
  length_le := Nat.zero_le _
  close _ := rfl
  placeAfter k := by
    simp only [List.mem_cons, List.not_mem_nil, or_false, not_or] at hc
    rw [hopen]
    simp [Regex.placeAfter, openAfterChar, next, hc]
  append _ _ _ := htoken _

theorem token_spec (h : token c r = .ok (t, n)) : Token.Spec c r t n := by
  have htoken := h
  unfold token at h
  split at h
  case h_1 =>
    obtain ⟨hitem, hlength, ⟨d, s, hs, hinert⟩, hq⟩ := escape_spec h
    refine ⟨hlength, ?_, fun k => ?_, fun q hrepeat _ => hq q hrepeat.1⟩
    · rintro rfl
      contradiction
    · rw [hs, openAfter_of_isItem hitem]
      exact placeAfter_inert hinert (.inl rfl) k
  case h_2 =>
    obtain ⟨hitem, hconsumes⟩ := consumes_bracket h
    refine ⟨hconsumes.length_le, ?_, fun k => ?_, fun q _ _ => hconsumes.append q⟩
    · rintro rfl
      contradiction
    · rw [openAfter_of_isItem hitem]
      exact hconsumes.take k
  case h_3 =>
    rcases consumes_parenthesis h with ⟨rfl, rfl, hmark⟩ | hconsumes
    · refine ⟨Nat.zero_le _, fun _ => rfl, fun _ => rfl, fun q _ hr => ?_⟩
      refine parenthesis_capture ?_
      rwa [List.head?_append_of_ne_nil _ (hr rfl)]
    · refine ⟨hconsumes.length_le, ?_, fun k => ?_, fun q _ _ => hconsumes.append q⟩
      · rintro rfl
        obtain ⟨m, hm, -⟩ := hconsumes.take 0
        contradiction
      · obtain ⟨m, hm, hplace⟩ := hconsumes.take k
        rw [hm]
        exact hplace
  case h_4 =>
    cases hbounds : bounds? r with
    | some y =>
      obtain ⟨low, high, m⟩ := y
      rw [brace_eq_count hbounds] at h
      obtain ⟨rfl, rfl⟩ := Prod.mk.inj (Except.ok.inj h)
      have hconsumes := consumes_bounds? hbounds
      refine ⟨hconsumes.length_le, fun hclose => by contradiction, fun k => ?_, fun q _ _ => ?_⟩
      · rw [placeAfter_inert_cons (by decide)]
        exact placeAfter_inert (fun c hc => (hconsumes.take c hc).inert) (.inl rfl) k
      · change Except.ok (brace (r ++ q)) = _
        rw [brace_eq_count (hconsumes.append q), List.take_append_of_le_length hconsumes.length_le]
    | none =>
      rw [brace_eq_char hbounds] at h
      obtain ⟨rfl, rfl⟩ := Prod.mk.inj (Except.ok.inj h)
      refine ⟨Nat.zero_le _, fun _ => rfl, fun k => rfl, fun q hq _ => ?_⟩
      change Except.ok (brace (r ++ q)) = _
      rw [brace_eq_char (bounds?_append hbounds hq)]
  case h_5 =>
    obtain ⟨rfl, rfl⟩ := Prod.mk.inj (Except.ok.inj h)
    refine ⟨Nat.zero_le _, fun _ => rfl, fun k => ?_, fun q _ _ => rfl⟩
    cases k <;> rfl
  case h_13 hescape hbracket hgroup hbrace hclose _ _ _ _ _ _ _ =>
    obtain ⟨rfl, rfl⟩ := Prod.mk.inj (Except.ok.inj h)
    refine .plain (by simp_all) (fun r' => ?_) (fun k => ?_) r
    · unfold token
      split <;> simp_all
    · cases k <;> rfl
  all_goals
    obtain ⟨rfl, rfl⟩ := Prod.mk.inj (Except.ok.inj h)
    exact .plain (by decide) (fun _ => rfl) (fun k => by cases k <;> rfl) r

/-! ### Whole texts -/

theorem tokens_cons (h : tokens (c :: r) = .ok ts) :
    ∃ t n later, token c r = .ok (t, n) ∧ tokens (r.drop n) = .ok later ∧ ts = t :: later := by
  obtain ⟨⟨t, n⟩, ht, h⟩ := bind_eq_ok h
  obtain ⟨later, hlater, h⟩ := bind_eq_ok h
  rw [tokensAfter_eq_drop] at hlater
  exact ⟨t, n, later, ht, hlater, (Except.ok.inj h).symm⟩

theorem tokens_of_token (ht : token c r = .ok (t, n)) : tokens (c :: r) = (tokens (r.drop n)).map (t :: ·) := by
  rw [tokens, tokensAfter, ht]
  simp only [bind, Except.bind, tokensAfter_eq_drop n]
  change _ = (tokensAfter 0 (r.drop n)).map _
  cases tokensAfter 0 (r.drop n) <;> rfl

/-- The tokens of a text one by one, each with what comes after it. -/
theorem tokens_induction {motive : Text → List Token → Prop} (hnil : motive [] [])
    (hcons : ∀ c r t n later, token c r = .ok (t, n) → tokens (r.drop n) = .ok later → motive (r.drop n) later →
      motive (c :: r) (t :: later)) (h : tokens source = .ok ts) : motive source ts := by
  induction hlength : source.length using Nat.strong_induction_on generalizing source ts with
  | _ l ih =>
    cases source with
    | nil =>
      obtain rfl := Except.ok.inj h
      exact hnil
    | cons c r =>
      obtain ⟨t, n, later, ht, hlater, rfl⟩ := tokens_cons h
      refine hcons c r t n later ht hlater (ih (r.drop n).length ?_ hlater rfl)
      rw [← hlength, List.length_cons, List.length_drop]
      omega

/-- The tokens of a text open and close what its characters do. -/
theorem placeAfter_tokens (h : tokens source = .ok ts) (k : Nat) :
    placeAfter .outside k source = (openAfter k ts).map fun m => (.outside, m) := by
  refine tokens_induction (motive := fun source ts => ∀ k,
    placeAfter .outside k source = (openAfter k ts).map fun m => (.outside, m)) (fun _ => rfl) ?_ h k
  intro c r t n later ht _ ih k
  rw [← List.take_append_drop n r, ← List.cons_append, placeAfter_append, (token_spec ht).placeAfter, openAfter_cons k t later]
  cases openAfter k [t] with
  | none => rfl
  | some m => exact ih m

/-- Before a repeat a text is read as it is read alone. -/
theorem tokens_append (h : tokens source = .ok ts) (hlast : ts.getLast? ≠ some (.opening .capture))
    (hq : BeginsRepeat q) : tokens (source ++ q) = (tokens q).map (ts ++ ·) := by
  refine tokens_induction (motive := fun source ts => ts.getLast? ≠ some (.opening .capture) →
    tokens (source ++ q) = (tokens q).map (ts ++ ·)) (fun _ => ?_) ?_ h hlast
  · rw [List.nil_append]
    cases tokens q <;> rfl
  · intro c r t n later ht hlater ih hlast
    have hspec := token_spec ht
    have hr : t = .opening .capture → r ≠ [] := by
      rintro rfl rfl
      rw [List.drop_nil] at hlater
      obtain rfl := Except.ok.inj hlater
      exact hlast rfl
    have hlast' : later.getLast? ≠ some (.opening .capture) := by
      intro hcapture
      refine hlast ?_
      rw [List.getLast?_cons, hcapture]
      rfl
    rw [List.cons_append, tokens_of_token (hspec.append q hq hr), List.drop_append_of_le_length hspec.length_le, ih hlast']
    cases tokens q <;> rfl

end Tokens

end WordPattern.Regex
