import Mathlib.Data.List.TakeWhile
import WordPattern.Proofs.Reading.Tokens
import WordPattern.Proofs.Reading.Units

/-! Parentheses in the text of a regular expression, counted character by character.

A scan only knows where it is: outside of everything, after a backslash, or in a bracketed set. It needs no tokens, so it
can go on where one text is put after another, even if a repeat count begins in the one and ends in the other. What it
counts is what the tokens of the whole text open and close. -/

namespace WordPattern.Regex

/-- Where a character of a regular expression stands. -/
inductive Place where
  | outside
  /-- After a backslash. -/
  | escape
  /-- After the bracket that opens a set. -/
  | setStart
  /-- After the complement mark of a set. -/
  | setFirst
  | set
  /-- After a backslash in a set. -/
  | setEscape
  /-- In a set with a name, itself in a set. -/
  | setName
  deriving DecidableEq, Repr

namespace Place

def afterMember (c : Char) : Place := if c = '\\' then .setEscape else if c = '[' then .setName else .set

def next : Place → Char → Place
  | outside, c => if c = '\\' then .escape else if c = '[' then .setStart else .outside
  | escape, _ => .outside
  | setStart, c => if c = '^' then .setFirst else afterMember c
  | setFirst, c => afterMember c
  | set, c => if c = ']' then .outside else afterMember c
  | setEscape, _ => .set
  | setName, c => if c = ']' then .set else .setName

end Place

/-- The number of open groups after a character, unless it closes a group that has not been opened. -/
def openAfterChar (p : Place) (n : Nat) (c : Char) : Option Nat :=
  if p = .outside ∧ c = '(' then some (n + 1)
  else if p = .outside ∧ c = ')' then (if n = 0 then none else some (n - 1))
  else some n

def placeAfter (p : Place) (n : Nat) : Text → Option (Place × Nat)
  | [] => some (p, n)
  | c :: t => (openAfterChar p n c).bind fun n => placeAfter (p.next c) n t

section Scan

variable {p q : Place} {n m k : Nat} {s t r : Text} {c : Char}

theorem placeAfter_append (p : Place) (n : Nat) (s t : Text) :
    placeAfter p n (s ++ t) = (placeAfter p n s).bind fun (q, m) => placeAfter q m t := by
  induction s generalizing p n with
  | nil => rfl
  | cons c s ih =>
    rw [List.cons_append, placeAfter, placeAfter, Option.bind_assoc]
    simp only [ih]

/-- Groups that are open around a text stay open. -/
theorem placeAfter_add (h : placeAfter p n t = some (q, m)) (k : Nat) : placeAfter p (n + k) t = some (q, m + k) := by
  induction t generalizing p n with
  | nil =>
    obtain ⟨rfl, rfl⟩ := Prod.mk.inj (Option.some.inj h)
    rfl
  | cons c t ih =>
    obtain ⟨n', hn', h⟩ := Option.bind_eq_some_iff.1 h
    have hstep : openAfterChar p (n + k) c = some (n' + k) := by
      unfold openAfterChar at hn' ⊢
      split_ifs at hn' ⊢ <;> simp_all <;> omega
    rw [placeAfter, hstep]
    exact ih h

/-- The characters that a place or a number of groups depends on. -/
def bracketChars : Text := ['\\', '[', ']', '(', ')']

/-- A character that has no meaning of its own, in a set or outside. -/
def IsInert (c : Char) : Prop := c ∉ bracketChars

instance (c : Char) : Decidable (IsInert c) := inferInstanceAs (Decidable (_ ∉ _))

theorem placeAfter_inert (h : ∀ c ∈ t, IsInert c) (hp : p = .outside ∨ p = .set) (n : Nat) : placeAfter p n t = some (p, n) := by
  induction t with
  | nil => rfl
  | cons c t ih =>
    obtain ⟨hc, ht⟩ := List.forall_mem_cons.1 h
    simp only [IsInert, bracketChars, List.mem_cons, List.not_mem_nil, or_false, not_or] at hc
    have hopen : openAfterChar p n c = some n := by
      unfold openAfterChar
      simp [hc]
    have hnext : p.next c = p := by rcases hp with rfl | rfl <;> simp [Place.next, Place.afterMember, hc]
    rw [placeAfter, hopen]
    simp only [Option.bind_some, hnext]
    exact ih ht

theorem inert_of_test (test : Char → Bool) (hc : test c = true)
    (htest : bracketChars.all (fun d => !test d) = true) : IsInert c := by
  intro hmem
  have hfails := List.all_eq_true.1 htest c hmem
  rw [hc] at hfails
  contradiction

end Scan

/-! ### The characters of a token -/

/-- The outcome depends on the first `n` characters alone, and they are good. -/
def Consumes {β : Type} (f : Text → β) (r : Text) (y : β) (n : Nat) (good : Text → Prop) : Prop :=
  ∃ s rest, r = s ++ rest ∧ s.length = n ∧ (∀ rest', f (s ++ rest') = y) ∧ good s

section Consumes

variable {β γ : Type} {f : Text → β} {r : Text} {y : β} {n : Nat} {good good' : Text → Prop}

theorem Consumes.append (h : Consumes f r y n good) (q : Text) : f (r ++ q) = y := by
  obtain ⟨s, rest, rfl, -, hf, -⟩ := h
  rw [List.append_assoc]
  exact hf _

theorem Consumes.take (h : Consumes f r y n good) : good (r.take n) := by
  obtain ⟨s, rest, rfl, rfl, -, hs⟩ := h
  rwa [List.take_left]

theorem Consumes.length_le (h : Consumes f r y n good) : n ≤ r.length := by
  obtain ⟨s, rest, rfl, rfl, -, -⟩ := h
  simp

/-- More characters are taken at the front. -/
theorem Consumes.prepend {g : Text → γ} {z : γ} (h : Consumes f r y n good) (pre : Text)
    (hg : ∀ r, f r = y → g (pre ++ r) = z) (hgood : ∀ s, good s → good' (pre ++ s)) :
    Consumes g (pre ++ r) z (n + pre.length) good' := by
  obtain ⟨s, rest, rfl, rfl, hf, hs⟩ := h
  refine ⟨pre ++ s, rest, (List.append_assoc ..).symm, ?_, fun rest' => ?_, hgood s hs⟩
  · rw [List.length_append, Nat.add_comm]
  · rw [List.append_assoc]
    exact hg _ (hf rest')

/-- The outcome is part of another. -/
theorem Consumes.mono {g : Text → γ} {z : γ} (h : Consumes f r y n good) (hg : ∀ r, f r = y → g r = z)
    (hgood : ∀ s, good s → good' s) : Consumes g r z n good' := h.prepend [] hg hgood

end Consumes

def AllInert (s : Text) : Prop := ∀ c ∈ s, IsInert c

instance (s : Text) : Decidable (AllInert s) := List.decidableBAll IsInert s

/-- After the first character all are inert. -/
def IsEscaped (s : Text) : Prop := ∃ c s', s = c :: s' ∧ AllInert s'

theorem AllInert.cons {c : Char} {s : Text} (hc : IsInert c) (hs : AllInert s) : AllInert (c :: s) :=
  List.forall_mem_cons.2 ⟨hc, hs⟩

theorem isEscaped_singleton (c : Char) : IsEscaped [c] := ⟨c, [], rfl, List.forall_mem_nil _⟩

section Tokens

variable {p q : Place} {n k : Nat} {r : Text} {t : Token} {c : Char}

/-! #### Counts -/

/-- A character that can stand in a repeat count after its opening brace. -/
def IsCountChar (c : Char) : Prop := c.isDigit = true ∨ c ∈ [',', '\x7d']

theorem IsCountChar.inert (h : IsCountChar c) : IsInert c := by
  rcases h with h | h
  · exact inert_of_test Char.isDigit h (by decide)
  · simp only [List.mem_cons, List.not_mem_nil, or_false] at h
    rcases h with rfl | rfl <;> decide

theorem countChars_digits (r : Text) : ∀ c ∈ r.takeWhile Char.isDigit, IsCountChar c :=
  fun _ hc => .inl (List.mem_takeWhile_imp hc)

/-- Digits end where they ended before, whatever follows. -/
theorem takeWhile_digits (isDigit : Char → Bool) (r : Text) {c : Char} (hc : isDigit c = false) (rest : Text) :
    (r.takeWhile isDigit ++ c :: rest).takeWhile isDigit = r.takeWhile isDigit ∧
      (r.takeWhile isDigit ++ c :: rest).dropWhile isDigit = c :: rest := by
  have hall : ∀ d ∈ r.takeWhile isDigit, isDigit d = true := fun d hd => List.mem_takeWhile_imp hd
  rw [List.takeWhile_append_of_pos hall, List.dropWhile_append_of_pos hall,
    List.takeWhile_cons_of_neg (by simp [hc]), List.dropWhile_cons_of_neg (by simp [hc]), List.append_nil]
  exact ⟨rfl, rfl⟩

theorem consumes_bounds? {low : Nat} {high : Option Nat} (h : bounds? r = some (low, high, n)) :
    Consumes bounds? r (some (low, high, n)) n fun s => ∀ c ∈ s, IsCountChar c := by
  have hclose : ∀ c ∈ ['\x7d'], IsCountChar c := List.forall_mem_singleton.2 (.inr (by decide))
  have hsplit := List.takeWhile_append_dropWhile (p := Char.isDigit) (l := r)
  have hbraced := fun rest => takeWhile_digits Char.isDigit r (c := '\x7d') rfl rest
  have hcomma := fun rest => takeWhile_digits Char.isDigit r (c := ',') rfl rest
  have hlow := countChars_digits r
  unfold bounds? at h
  simp only at h
  generalize r.takeWhile Char.isDigit = low' at *
  by_cases hlimit : boundLimit ≤ decimal low'
  · rw [if_pos hlimit] at h
    contradiction
  rw [if_neg hlimit] at h
  split at h
  · rename_i rest hrest
    split_ifs at h with hempty
    simp only [Option.some.injEq, Prod.mk.injEq] at h
    obtain ⟨rfl, rfl, rfl⟩ := h
    refine ⟨low' ++ ['\x7d'], rest, ?_, by simp, fun rest' => ?_, List.forall_mem_append.2 ⟨hlow, hclose⟩⟩
    · rw [← hsplit, hrest]
      simp
    · obtain ⟨htake, hdrop⟩ := hbraced rest'
      rw [List.append_assoc, List.singleton_append, bounds?]
      simp only [htake, hdrop, if_neg hlimit, if_neg hempty]
  · rename_i r' hr'
    have hsplit' := List.takeWhile_append_dropWhile (p := Char.isDigit) (l := r')
    have hbraced' := fun rest => takeWhile_digits Char.isDigit r' (c := '\x7d') rfl rest
    have hhigh := countChars_digits r'
    generalize r'.takeWhile Char.isDigit = high' at *
    split at h
    · rename_i rest hrest
      split_ifs at h with hlimit' hempty
      all_goals
        simp only [Option.some.injEq, Prod.mk.injEq] at h
        obtain ⟨rfl, rfl, rfl⟩ := h
        refine ⟨low' ++ ',' :: (high' ++ ['\x7d']), rest, ?_, ?_, fun rest' => ?_,
          List.forall_mem_append.2 ⟨hlow, List.forall_mem_cons.2 ⟨.inr (by decide), List.forall_mem_append.2 ⟨hhigh, hclose⟩⟩⟩⟩
        · rw [← hsplit, hr', ← hsplit', hrest]
          simp
        · simp
          omega
        · obtain ⟨htake, hdrop⟩ := hcomma (high' ++ '\x7d' :: rest')
          obtain ⟨htake', hdrop'⟩ := hbraced' rest'
          rw [List.append_assoc, List.cons_append, List.append_assoc, List.singleton_append, bounds?]
          simp only [htake, hdrop, htake', hdrop', if_neg hlimit, if_neg hlimit']
          simp [hempty]
    · contradiction
  · contradiction

/-! #### Escapes -/

theorem inert_of_isHexDigit (h : isHexDigit c = true) : IsInert c := inert_of_test isHexDigit h (by decide)

theorem consumes_codeDigits? {width : Nat} {digits : Text} (hwidth : 0 < width)
    (h : codeDigits? width r = some (digits, n)) : Consumes (codeDigits? width) r (some (digits, n)) n AllInert := by
  unfold codeDigits? at h
  simp only at h
  split_ifs at h with hlength
  · obtain ⟨rfl, rfl⟩ := Prod.mk.inj (Option.some.inj h)
    have hall : ∀ d ∈ (r.takeWhile isHexDigit).take width, isHexDigit d = true := fun d hd =>
      List.mem_takeWhile_imp (List.mem_of_mem_take hd)
    obtain ⟨rest, hrest⟩ : (r.takeWhile isHexDigit).take width <+: r :=
      (List.take_prefix _ _).trans (List.takeWhile_prefix _)
    generalize (r.takeWhile isHexDigit).take width = digits at *
    refine ⟨digits, rest, hrest.symm, hlength, fun rest' => ?_, fun d hd => inert_of_isHexDigit (hall d hd)⟩
    unfold codeDigits?
    rw [List.takeWhile_append_of_pos hall, List.take_left' hlength, if_pos hlength]
  · split at h
    · rename_i inner
      have hsplit := List.takeWhile_append_dropWhile (p := isHexDigit) (l := inner)
      have hbraced := fun rest => takeWhile_digits isHexDigit inner (c := '\x7d') rfl rest
      have hall : AllInert (inner.takeWhile isHexDigit) := fun d hd => inert_of_isHexDigit (List.mem_takeWhile_imp hd)
      generalize inner.takeWhile isHexDigit = inside at *
      split at h
      · rename_i rest hrest
        split_ifs at h with hcount
        obtain ⟨rfl, rfl⟩ := Prod.mk.inj (Option.some.inj h)
        refine ⟨'\x7b' :: (inside ++ ['\x7d']), rest, ?_, by simp, fun rest' => ?_, ?_⟩
        · rw [← hsplit, hrest]
          simp
        · obtain ⟨htake, hdrop⟩ := hbraced rest'
          have hnone : ('\x7b' :: (inside ++ '\x7d' :: rest')).takeWhile isHexDigit = [] := rfl
          rw [List.cons_append, List.append_assoc, List.singleton_append, codeDigits?]
          simp only [hnone, htake, hdrop, List.take_nil, List.length_nil, if_neg hwidth.ne, if_neg hcount]
        · exact .cons (by decide) (List.forall_mem_append.2 ⟨hall, List.forall_mem_singleton.2 (by decide)⟩)
      · contradiction
    · contradiction

theorem consumes_escapedCode {d : Char} {width : Nat} (hwidth : 0 < width)
    (hd : ∀ r, escapedChar (d :: r) = escapedCode d width r) (h : escapedCode d width r = .ok (c, n)) :
    Consumes escapedChar (d :: r) (.ok (c, n)) n IsEscaped := by
  unfold escapedCode at h
  split at h
  · rename_i digits m hdigits
    split_ifs at h with hvalid
    obtain ⟨rfl, rfl⟩ := Prod.mk.inj (Except.ok.inj h)
    refine (consumes_codeDigits? hwidth hdigits).prepend [d] (fun r' hr' => ?_) fun s hs => ⟨d, s, rfl, hs⟩
    rw [List.singleton_append, hd, escapedCode, hr']
    exact if_pos hvalid
  · contradiction

theorem consumes_escapedChar (h : escapedChar r = .ok (c, n)) : Consumes escapedChar r (.ok (c, n)) n IsEscaped := by
  unfold escapedChar at h
  split at h
  case h_1 => contradiction
  case h_10 => exact consumes_escapedCode (by decide) (fun _ => rfl) h
  case h_11 => exact consumes_escapedCode (by decide) (fun _ => rfl) h
  case h_12 => exact consumes_escapedCode (by decide) (fun _ => rfl) h
  case h_13 d rest _ _ _ _ _ _ _ _ _ _ _ =>
    split_ifs at h with halnum
    obtain ⟨rfl, rfl⟩ := Prod.mk.inj (Except.ok.inj h)
    refine ⟨[d], rest, rfl, rfl, fun rest' => ?_, isEscaped_singleton d⟩
    rw [List.singleton_append]
    unfold escapedChar
    split
    case h_13 => rw [if_neg (by simp_all)]; simp_all
    all_goals simp_all
  all_goals
    obtain ⟨rfl, rfl⟩ := Prod.mk.inj (Except.ok.inj h)
    exact ⟨[_], _, rfl, rfl, fun _ => rfl, isEscaped_singleton _⟩

theorem consumes_escapedSet? {set : NamedSet} {negated : Bool} (h : escapedSet? r = some (set, negated, n)) :
    Consumes escapedSet? r (some (set, negated, n)) n IsEscaped := by
  have hset : ∀ c, IsEscaped [c, '\x7b', 'L', 'u', '\x7d'] := fun c => ⟨c, _, rfl, by decide⟩
  unfold escapedSet? at h
  split at h
  case h_9 => contradiction
  case h_7 | h_8 =>
    simp only [Option.some.injEq, Prod.mk.injEq] at h
    obtain ⟨rfl, rfl, rfl⟩ := h
    exact ⟨[_, _, _, _, _], _, rfl, rfl, fun _ => rfl, hset _⟩
  all_goals
    simp only [Option.some.injEq, Prod.mk.injEq] at h
    obtain ⟨rfl, rfl, rfl⟩ := h
    exact ⟨[_], _, rfl, rfl, fun _ => rfl, isEscaped_singleton _⟩

theorem consumes_groupName {name : Text} (h : groupName r = .ok (name, n)) :
    Consumes groupName r (.ok (name, n)) n AllInert := by
  induction r generalizing name n with
  | nil => contradiction
  | cons c r ih =>
    unfold groupName at h
    split_ifs at h with hclose hword
    · obtain ⟨rfl, rfl⟩ := Prod.mk.inj (Except.ok.inj h)
      subst hclose
      exact ⟨['>'], r, rfl, rfl, fun _ => rfl, List.forall_mem_singleton.2 (by decide)⟩
    · obtain ⟨⟨name', m⟩, hrest, heq⟩ := map_eq_ok h
      obtain ⟨rfl, rfl⟩ := Prod.mk.inj heq
      have hc : IsInert c := by
        refine inert_of_test (fun c => Unicode.isAlphanumeric c || c = '_') hword ?_
        decide
      refine (ih hrest).prepend [c] (fun r hr => ?_) fun s hs => hs.cons hc
      rw [List.singleton_append, groupName, if_neg hclose, if_pos hword, hr]
      rfl

theorem consumes_nonemptyName {name : Text} (h : nonemptyName r = .ok (name, n)) :
    Consumes nonemptyName r (.ok (name, n)) n AllInert := by
  have hname := h
  unfold nonemptyName at h
  split at h
  · contradiction
  · rename_i hne
    refine (consumes_groupName h).prepend [] (fun r' hr' => ?_) fun s hs => hs
    rw [List.nil_append]
    unfold nonemptyName
    rw [hr']
    split
    · rename_i heq
      rw [h] at hne
      exact absurd heq (hne _)
    · rfl

theorem consumes_wordSide? {a : Anchor} (h : wordSide? r = some (a, n)) :
    Consumes wordSide? r (some (a, n)) n AllInert ∧ ∃ d inner, r = '\x7b' :: d :: inner ∧ d.isDigit = false ∧ d ≠ ',' ∧ d ≠ '\x7d' := by
  obtain ⟨⟨name, b⟩, hmem, hside⟩ := List.exists_of_findSome?_eq_some h
  simp only at hside
  split_ifs at hside with hprefix
  obtain ⟨rest, rfl⟩ := List.isPrefixOf_iff_prefix.1 hprefix
  clear hside hprefix
  simp only [wordSides, List.mem_cons, Prod.mk.injEq, List.not_mem_nil, or_false] at hmem
  rcases hmem with ⟨rfl, rfl⟩ | ⟨rfl, rfl⟩ | ⟨rfl, rfl⟩ | ⟨rfl, rfl⟩
  all_goals
    obtain ⟨rfl, rfl⟩ := Prod.mk.inj (Option.some.inj h)
    exact ⟨⟨_, rest, rfl, rfl, fun _ => rfl, by decide⟩, _, _, rfl, rfl, by decide, by decide⟩

theorem asciiName?_spec {r : Text} {set : NamedSet} {n : Nat} (h : asciiName? r = some (set, n)) :
    ∃ name rest, r = name ++ ':' :: ']' :: rest ∧ (∀ c ∈ name, c.isLower = true) ∧ n = name.length + 2 := by
  obtain ⟨⟨name, set'⟩, hmem, hname⟩ := List.exists_of_findSome?_eq_some h
  have hlower : ∀ e ∈ asciiSets, e.1.all Char.isLower = true := List.all_eq_true.1 (by decide)
  simp only at hname
  split_ifs at hname with hprefix
  obtain ⟨rest, rfl⟩ := List.isPrefixOf_iff_prefix.1 hprefix
  obtain ⟨-, rfl⟩ := Prod.mk.inj (Option.some.inj hname)
  exact ⟨name, rest, by simp, List.all_eq_true.1 (hlower _ hmem), rfl⟩

/-- Whether an escape stands for a set is told by its first character, if it can stand for a character. -/
theorem escapedSet?_eq_none {d : Char} (h : escapedSet? (d :: r) = none) (hchar : escapedChar (d :: r) = .ok (c, n))
    (r' : Text) : escapedSet? (d :: r') = none := by
  unfold escapedSet?
  split
  case h_9 => rfl
  all_goals
    rename_i heq
    obtain ⟨rfl, -⟩ := List.cons.inj heq
    contradiction

/-- An escape that stands for a character, in a set or outside. -/
theorem consumes_character (h : escapedSet? r = none) (hchar : escapedChar r = .ok (c, n)) :
    Consumes (fun r => (escapedSet? r, escapedChar r)) r (none, .ok (c, n)) n IsEscaped := by
  obtain ⟨s, rest, rfl, rfl, hf, d, s', rfl, hs⟩ := consumes_escapedChar hchar
  refine ⟨d :: s', rest, rfl, rfl, fun rest' => ?_, d, s', rfl, hs⟩
  exact Prod.ext (escapedSet?_eq_none h hchar _) (hf rest')

theorem isItem_of_escapedOutside? (h : escapedOutside? c = some t) (r : Text) :
    t.isItem = true ∧ escapedSet? (c :: r) = none ∧ c ≠ 'k' := by
  unfold escapedOutside? at h
  split at h
  case h_10 => contradiction
  all_goals
    obtain rfl := Option.some.inj h
    exact ⟨rfl, rfl, by decide⟩

theorem bounds?_eq_none (hdigit : c.isDigit = false) (hcomma : c ≠ ',') (hclose : c ≠ '\x7d') (r : Text) :
    bounds? (c :: r) = none := by
  have hc : ¬ c.isDigit = true := by simp [hdigit]
  unfold bounds?
  simp only [List.takeWhile_cons_of_neg hc, List.dropWhile_cons_of_neg hc]
  split
  · rfl
  · split
    · rename_i heq
      exact absurd (List.cons.inj heq).1 hclose
    · rename_i heq
      exact absurd (List.cons.inj heq).1 hcomma
    · rfl

theorem wordEdge_spec {edge : Token} (hedge : edge.isItem = true) (h : wordEdge c edge r = .ok (t, n)) :
    t.isItem = true ∧ n ≤ (c :: r).length ∧ IsEscaped ((c :: r).take n) ∧
      ∀ q, Admissible q → wordEdge c edge (r ++ q) = .ok (t, n) := by
  have hone : 1 ≤ (c :: r).length := by simp
  unfold wordEdge at h
  split at h
  · rename_i inner
    cases hbounds : bounds? inner with
    | some y =>
      rw [hbounds, Option.isSome_some, if_pos rfl] at h
      obtain ⟨rfl, rfl⟩ := Prod.mk.inj (Except.ok.inj h)
      refine ⟨hedge, hone, isEscaped_singleton c, fun q _ => ?_⟩
      rw [List.cons_append, wordEdge, (consumes_bounds? hbounds).append]
      rfl
    | none =>
      rw [hbounds, Option.isSome_none, if_neg Bool.false_ne_true] at h
      split at h
      · rename_i a m hside
        split_ifs at h with hc
        obtain ⟨rfl, rfl⟩ := Prod.mk.inj (Except.ok.inj h)
        obtain ⟨hconsumes, d, rest, hinner, hdigit, hcomma, hclose⟩ := consumes_wordSide? hside
        obtain rfl := (List.cons.inj hinner).2
        refine ⟨rfl, Nat.succ_le_succ hconsumes.length_le, ⟨c, _, rfl, hconsumes.take⟩, fun q _ => ?_⟩
        have hside' : wordSide? ('\x7b' :: (d :: rest ++ q)) = some (a, m) := hconsumes.append q
        have hnone : bounds? (d :: rest ++ q) = none := bounds?_eq_none hdigit hcomma hclose _
        rw [List.cons_append, wordEdge, hnone, hside']
        simp [hc]
      · contradiction
  · rename_i hbrace
    obtain ⟨rfl, rfl⟩ := Prod.mk.inj (Except.ok.inj h)
    refine ⟨hedge, hone, isEscaped_singleton c, fun q hq => ?_⟩
    unfold wordEdge
    split
    · rename_i inner hinner
      cases r with
      | nil => rw [hq inner hinner, if_pos rfl]
      | cons d r => exact absurd (congrArg (· :: r) (List.cons.inj hinner).1) (hbrace r)
    · rfl

theorem escape_cons (hset : escapedSet? (c :: r) = none) (hk : c ≠ 'k') :
    escape (c :: r) = match escapedOutside? c with
      | some t => if c = 'b' ∨ c = 'B' then wordEdge c t r else .ok (t, 1)
      | none => (escapedChar (c :: r)).map fun (c, n) => (.char c, n) := by
  unfold escape
  rw [hset]
  simp only
  split
  · rename_i heq
    exact absurd (List.cons.inj heq).1 hk
  · rename_i heq
    obtain ⟨rfl, rfl⟩ := List.cons.inj heq
    rfl
  · contradiction

/-- An escape is an item, and what it takes is an escaped character and inert ones. -/
theorem escape_spec (h : escape r = .ok (t, n)) :
    t.isItem = true ∧ n ≤ r.length ∧ IsEscaped (r.take n) ∧ ∀ q, Admissible q → escape (r ++ q) = .ok (t, n) := by
  cases hset : escapedSet? r with
  | some y =>
    have hconsumes := consumes_escapedSet? hset
    rw [escape.eq_def, hset] at h
    obtain ⟨rfl, rfl⟩ := Prod.mk.inj (Except.ok.inj h)
    refine ⟨rfl, hconsumes.length_le, hconsumes.take, fun q _ => ?_⟩
    rw [escape.eq_def, hconsumes.append]
  | none =>
    cases r with
    | nil => contradiction
    | cons c r =>
      by_cases hk : c = 'k'
      · subst hk
        cases r with
        | nil => contradiction
        | cons d r =>
          by_cases hd : d = '<'
          · subst hd
            obtain ⟨⟨name, m⟩, hname, heq⟩ := map_eq_ok (show (nonemptyName r).map _ = _ from h)
            obtain ⟨rfl, rfl⟩ := Prod.mk.inj heq
            have hconsumes := consumes_nonemptyName hname
            refine ⟨rfl, Nat.succ_le_succ (Nat.succ_le_succ hconsumes.length_le),
              ⟨'k', '<' :: r.take m, rfl, AllInert.cons (by decide) hconsumes.take⟩, fun q _ => ?_⟩
            change (nonemptyName (r ++ q)).map _ = _
            rw [hconsumes.append]
            rfl
          · simp [escape, hd, escapedSet?, escapedOutside?, escapedChar] at h
            contradiction
      · rw [escape_cons hset hk] at h
        cases hplace : escapedOutside? c with
        | some place =>
          obtain ⟨hitem, -, -⟩ := isItem_of_escapedOutside? hplace r
          have hext : ∀ q, escape (c :: r ++ q) =
              if c = 'b' ∨ c = 'B' then wordEdge c place (r ++ q) else .ok (place, 1) := by
            intro q
            rw [List.cons_append, escape_cons (isItem_of_escapedOutside? hplace _).2.1 hk, hplace]
          rw [hplace] at h
          simp only at h
          split_ifs at h with hc
          · obtain ⟨hitem, hlength, hescaped, hq⟩ := wordEdge_spec hitem h
            exact ⟨hitem, hlength, hescaped, fun q hadmissible => by rw [hext, if_pos hc, hq q hadmissible]⟩
          · obtain ⟨rfl, rfl⟩ := Prod.mk.inj (Except.ok.inj h)
            exact ⟨hitem, by simp, isEscaped_singleton c, fun q _ => by rw [hext, if_neg hc]⟩
        | none =>
          rw [hplace] at h
          obtain ⟨⟨d, m⟩, hchar, heq⟩ := map_eq_ok h
          obtain ⟨rfl, rfl⟩ := Prod.mk.inj heq
          have hconsumes := consumes_character hset hchar
          refine ⟨rfl, hconsumes.length_le, hconsumes.take, fun q _ => ?_⟩
          obtain ⟨hset', hchar'⟩ := Prod.mk.inj (hconsumes.append q)
          rw [List.cons_append] at hset' hchar' ⊢
          rw [escape_cons hset' hk, hplace, hchar']
          rfl

end Tokens

end WordPattern.Regex
