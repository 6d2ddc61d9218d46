import WordPattern.Proofs.Reading.Brackets
import WordPattern.Proofs.Reading.Classes
import WordPattern.Repeats

/-! A text that takes a repeat count without a group is a single token. -/

namespace WordPattern.Regex

/-- A character that has no meaning of its own inside brackets and ends nothing there. -/
def Ordinary (c : Char) : Prop := c ≠ '\\' ∧ c ≠ '[' ∧ c ≠ ']'

instance (c : Char) : Decidable (Ordinary c) := inferInstanceAs (Decidable (_ ∧ _))

theorem isFlatClass_ordinary {c : Char} (h : Ordinary c) (rest : Text) : isFlatClass 0 (c :: rest) = isFlatClass 0 rest := by
  obtain ⟨h1, h2, h3⟩ := h
  rw [isFlatClass] <;> simp_all

theorem IsInert.ordinary {c : Char} (h : IsInert c) : Ordinary c := by
  simp only [IsInert, bracketChars, List.mem_cons, List.not_mem_nil, or_false, not_or] at h
  exact ⟨h.1, h.2.1, h.2.2.1⟩

def OrdinaryBetween (j k : Nat) (s : Text) : Prop := ∀ i c, j ≤ i → i < k → s[i]? = some c → Ordinary c

theorem ordinaryBetween_self (j : Nat) (s : Text) : OrdinaryBetween j j s := fun i _ hj hk => absurd hj (by omega)

theorem ordinaryBetween_tail {j k : Nat} {c : Char} {s : Text} (h : OrdinaryBetween (j + 1) (k + 1) (c :: s)) :
    OrdinaryBetween j k s :=
  fun i d hj hk hi => h (i + 1) d (by omega) (by omega) (by simpa using hi)

theorem ordinaryBetween_of_isEscaped {s r : Text} {m : Nat} (h : IsEscaped ((s ++ r).take m)) :
    1 ≤ m ∧ OrdinaryBetween 1 m s := by
  obtain ⟨d, s', heq, hinert⟩ := h
  refine ⟨?_, fun i c hi him hc => (hinert c ?_).ordinary⟩
  · cases m with
    | zero => contradiction
    | succ m => exact Nat.succ_le_succ (Nat.zero_le m)
  · obtain ⟨i, rfl⟩ := Nat.exists_eq_add_of_le' hi
    have hget : ((s ++ r).take m)[i + 1]? = some c := by
      rw [List.getElem?_take_of_lt him, List.getElem?_append_left (List.getElem?_eq_some_iff.1 hc).1, hc]
    rw [heq, List.getElem?_cons_succ] at hget
    exact List.mem_of_getElem? hget

/-- After an escape inside brackets at least one character is taken, and those after it are ordinary. -/
theorem setPart_escape {s : Text} {part : SetPart} {m : Nat} (h : setPart '\\' (s ++ [']']) = .ok (part, m)) :
    1 ≤ m ∧ OrdinaryBetween 1 m s := by
  simp only [setPart] at h
  split at h
  · rename_i hset
    obtain ⟨-, rfl⟩ := Prod.mk.inj (Except.ok.inj h)
    exact ordinaryBetween_of_isEscaped (consumes_escapedSet? hset).take
  · obtain ⟨⟨d, n⟩, hchar, heq⟩ := map_eq_ok h
    obtain ⟨-, rfl⟩ := Prod.mk.inj heq
    exact ordinaryBetween_of_isEscaped (consumes_escapedChar hchar).take

/-- The name of a set is all that stands before its end. -/
theorem length_eq_of_setNameLength? {s name rest : Text} {n : Nat} (hs : s ++ [']'] = name ++ ':' :: rest)
    (hname : ∀ c ∈ name, c.isLower = true) (hn : setNameLength? s = some n) : name.length = n := by
  have htake : (s ++ [']']).takeWhile Char.isLower = name := by
    rw [hs, List.takeWhile_append_of_pos hname, List.takeWhile_cons_of_neg (by decide), List.append_nil]
  simp only [setNameLength?] at hn
  split at hn
  · rename_i hdrop
    split_ifs at hn
    have hshort : (s.takeWhile Char.isLower).length ≠ s.length := by
      intro he
      rw [he, List.drop_length] at hdrop
      contradiction
    rw [List.takeWhile_append, if_neg hshort] at htake
    rw [← htake]
    exact Option.some.inj hn
  · contradiction

/-- A named set is as long as its name tells. -/
theorem setPart_named {s : Text} {part : SetPart} {m n : Nat} (h : setPart '[' (':' :: s ++ [']']) = .ok (part, m))
    (hn : setNameLength? s = some n) : m = n + 3 := by
  simp only [setPart, List.cons_append] at h
  split at h
  · rename_i set negated k hk
    obtain ⟨-, rfl⟩ := Prod.mk.inj (Except.ok.inj h)
    unfold asciiSet? at hk
    split at hk
    · -- a complement mark is no name
      rename_i r heq
      cases s with
      | nil => exact absurd (List.cons.inj heq).2 (by simp)
      | cons c s =>
        obtain rfl := (List.cons.inj (List.cons.inj heq).2).1
        simp [setNameLength?] at hn
    · rename_i r _ heq
      obtain rfl := (List.cons.inj heq).2
      obtain ⟨⟨set', l⟩, hname, hl⟩ := Option.map_eq_some_iff.1 hk
      obtain ⟨name, rest, hs, hlower, rfl⟩ := asciiName?_spec hname
      rw [← length_eq_of_setNameLength? hs hlower hn]
      exact (Prod.mk.inj (Prod.mk.inj hl).2).2.symm
    · contradiction
  · contradiction

theorem isFlatClass_bracket {s : Text} (h : isFlatClass 0 ('[' :: s) = true) :
    ∃ name n, s = ':' :: name ∧ setNameLength? name = some n ∧ isFlatClass (n + 3) s = true := by
  by_cases hs : ∃ name, s = ':' :: name
  · obtain ⟨name, rfl⟩ := hs
    rw [isFlatClass] at h
    split at h
    · rename_i n hn
      exact ⟨name, n, rfl, hn, h⟩
    · contradiction
  · rw [isFlatClass] at h
    · contradiction
    · exact fun name hname => hs ⟨name, hname⟩

/-- What is read inside brackets reaches up to the last one if the text between them is flat. -/
theorem length_lt_of_setParts {s : Text} {j k n : Nat} {parts : List SetPart} (hflat : isFlatClass j s = true)
    (hjk : j ≤ k) (hb : OrdinaryBetween j k s) (h : setParts k (s ++ [']']) = .ok (parts, n)) : s.length < n := by
  induction s generalizing j k n parts with
  | nil =>
    cases k with
    | zero =>
      rw [List.nil_append, setParts, if_pos rfl] at h
      obtain ⟨-, rfl⟩ := Prod.mk.inj (Except.ok.inj h)
      decide
    | succ k => simp [setParts, Except.map] at h
  | cons c s ih =>
    cases k with
    | succ k =>
      obtain ⟨⟨parts', n'⟩, hp, heq⟩ := map_eq_ok h
      obtain ⟨-, rfl⟩ := Prod.mk.inj heq
      have hlt : s.length < n' := by
        cases j with
        | zero =>
          rw [isFlatClass_ordinary (hb 0 c (Nat.le_refl 0) (by omega) rfl)] at hflat
          exact ih hflat (Nat.zero_le k) (fun i d _ hi hd => hb (i + 1) d (by omega) (by omega) (by simpa using hd)) hp
        | succ j => exact ih hflat (by omega) (ordinaryBetween_tail hb) hp
      simpa using hlt
    | zero =>
      obtain rfl : j = 0 := Nat.le_zero.1 hjk
      have hc : c ≠ ']' := by
        rintro rfl
        simp [isFlatClass] at hflat
      obtain ⟨part, later, m, n', hpart, hp, -, rfl⟩ := setParts_cons_eq_ok hc h
      suffices s.length < n' by simpa using this
      by_cases hescape : c = '\\'
      · subst hescape
        obtain ⟨hm, hord⟩ := setPart_escape hpart
        rw [isFlatClass, Bool.and_eq_true] at hflat
        exact ih hflat.2 hm hord hp
      by_cases hopen : c = '['
      · subst hopen
        obtain ⟨name, l, rfl, hl, hrest⟩ := isFlatClass_bracket hflat
        obtain rfl := setPart_named hpart hl
        exact ih hrest (Nat.le_refl _) (ordinaryBetween_self _ _) hp
      · have hm : m = 0 := by
          unfold setPart at hpart
          split at hpart
          · contradiction
          · contradiction
          · exact (Prod.mk.inj (Except.ok.inj hpart)).2.symm
          · exact (Prod.mk.inj (Except.ok.inj hpart)).2.symm
        subst hm
        rw [isFlatClass_ordinary ⟨hescape, hopen, hc⟩] at hflat
        exact ih hflat (Nat.le_refl 0) (ordinaryBetween_self _ _) hp

/-- What a flat class begins with can be taken off. -/
theorem setLead_of_isFlatClass {c : Char} {s : Text} (h : isFlatClass 0 (c :: s) = true) :
    ∃ more, c :: s = setLead (c :: s ++ [']']) ++ more ∧ isFlatClass 0 more = true := by
  have hclose : c ≠ ']' := by
    rintro rfl
    simp [isFlatClass] at h
  have hdrop : ∀ t, isFlatClass 0 t = true → isFlatClass 0 (t.dropWhile (· = '-')) = true := by
    intro t ht
    induction t with
    | nil => rfl
    | cons d t ih =>
      by_cases hd : d = '-'
      · subst hd
        exact ih ht
      · simpa [hd] using ht
  refine ⟨(c :: s).dropWhile (· = '-'), ?_, hdrop _ h⟩
  have hlead : setLead (c :: s ++ [']']) = (c :: s).takeWhile (· = '-') := by
    rw [setLead, if_neg (by simp [hclose]), List.takeWhile_append]
    split_ifs with hall
    · rw [(List.takeWhile_prefix _).eq_of_length hall]
      simp
    · rfl
  rw [hlead, List.takeWhile_append_dropWhile]

/-- A flat class is read to its end. -/
theorem length_le_of_bracketBody {s : Text} {negated : Bool} {t : Token} {n : Nat} (hflat : isFlatClass 0 s = true)
    (h : bracketBody negated (s ++ [']']) = .ok (t, n)) : s.length < n := by
  obtain ⟨⟨parts, l⟩, hparts, h⟩ := bind_eq_ok h
  obtain ⟨items, -, h⟩ := bind_eq_ok h
  obtain ⟨-, rfl⟩ := Prod.mk.inj (Except.ok.inj h)
  cases s with
  | nil =>
    -- the bracket is a member, and then nothing ends the set
    contradiction
  | cons c s =>
    obtain ⟨more, heq, hmore⟩ := setLead_of_isFlatClass hflat
    generalize setLead (c :: s ++ [']']) = lead at *
    rw [heq, List.append_assoc, List.drop_left] at hparts
    have := length_lt_of_setParts hmore (Nat.le_refl 0) (ordinaryBetween_self _ _) hparts
    rw [heq, List.length_append]
    omega

theorem length_le_of_bracket {s : Text} {t : Token} {n : Nat} (hflat : isFlatClass 0 s = true)
    (h : bracket (s ++ [']']) = .ok (t, n)) : s.length < n := by
  unfold bracket at h
  split at h
  · rename_i r heq
    obtain ⟨⟨u, m⟩, hbody, hm⟩ := map_eq_ok h
    obtain ⟨-, rfl⟩ := Prod.mk.inj hm
    cases s with
    | nil => simp at heq
    | cons c s =>
      obtain ⟨rfl, rfl⟩ := List.cons.inj heq
      rw [isFlatClass_ordinary (by decide)] at hflat
      have := length_le_of_bracketBody hflat hbody
      simp only [List.length_cons]
      omega
  · exact length_le_of_bracketBody hflat h

theorem tokensAfter_of_length_le {n : Nat} {r : Text} (h : r.length ≤ n) : tokensAfter n r = .ok [] := by
  rw [tokensAfter_eq_drop, List.drop_eq_nil_of_le h]
  rfl

/-- A backslash and a character are one token. -/
theorem length_le_of_escape {c : Char} {t : Token} {n : Nat} (h : escape [c] = .ok (t, n)) : 1 ≤ n := by
  obtain ⟨-, -, ⟨d, s', heq, -⟩, -⟩ := escape_spec h
  cases n with
  | zero => contradiction
  | succ n => exact Nat.succ_le_succ (Nat.zero_le n)

/-- A text that takes a repeat count without a group is one token. -/
theorem tokens_of_isAtomicText {f : Text} {ts : List Token} (h : isAtomicText f = true) (hts : tokens f = .ok ts) :
    ∃ t, ts = [t] := by
  have hone : ∀ {c r}, f = c :: r → (∀ t n, token c r = .ok (t, n) → r.length ≤ n) → ∃ t, ts = [t] := by
    rintro c r rfl hlen
    obtain ⟨⟨t, n⟩, ht, hrest⟩ := bind_eq_ok hts
    obtain ⟨us, hus, hok⟩ := bind_eq_ok hrest
    rw [tokensAfter_of_length_le (hlen t n ht)] at hus
    obtain rfl := Except.ok.inj hus
    exact ⟨t, (Except.ok.inj hok).symm⟩
  unfold isAtomicText at h
  split at h
  · contradiction
  · exact hone rfl fun t n _ => Nat.zero_le n
  · exact hone rfl fun t n ht => length_le_of_escape ht
  · rename_i rest _
    simp only [Bool.and_eq_true, decide_eq_true_eq] at h
    obtain ⟨⟨hlast, -⟩, hflat⟩ := h
    have hrest : rest.dropLast ++ [']'] = rest := List.dropLast_append_getLast? _ hlast
    refine hone rfl fun t n ht => ?_
    rw [← hrest] at ht ⊢
    have := length_le_of_bracket hflat ht
    simp only [List.length_append, List.length_singleton]
    omega
  · contradiction

end WordPattern.Regex
