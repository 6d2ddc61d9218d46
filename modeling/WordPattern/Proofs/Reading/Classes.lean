import WordPattern.Proofs.Reading.Tokens
import WordPattern.Proofs.Success

/-! Character classes: how their text is read, and which characters it stands for. -/

namespace WordPattern.Regex

/-! ### The parts between brackets -/

/-- The parts of a class that are read from the text of a range. -/
def rangeParts (range : Char × Char) : List SetPart :=
  let (low, high) := range
  if high = low then [.char low false]
  else if high.toNat = low.toNat + 1 then [.char low false, .char high false]
  else [.char low false, .hyphen, .char high false]

def rangeItems (range : Char × Char) : List SetItem :=
  let (low, high) := range
  if high = low then [.range low low]
  else if high.toNat = low.toNat + 1 then [.range low low, .range high high]
  else [.range low high]

theorem setParts_eq_drop (n : Nat) {r : Text} (h : n ≤ r.length) :
    setParts n r = (setParts 0 (r.drop n)).map fun (parts, m) => (parts, m + n) := by
  induction n generalizing r with
  | zero =>
    rw [List.drop_zero]
    cases setParts 0 r <;> rfl
  | succ n ih =>
    cases r with
    | nil => simp at h
    | cons c r =>
      rw [setParts, ih (by simpa using h), List.drop_succ_cons]
      cases setParts 0 (r.drop n) <;> rfl

/-- Where a part starts it is read first, and then the parts after it. -/
theorem setParts_cons_eq_ok {c : Char} {r : Text} {parts : List SetPart} {n : Nat} (hc : c ≠ ']')
    (h : setParts 0 (c :: r) = .ok (parts, n)) :
    ∃ part later m k, setPart c r = .ok (part, m) ∧ setParts m r = .ok (later, k) ∧ parts = part :: later ∧ n = k + 1 := by
  rw [setParts, if_neg hc] at h
  obtain ⟨⟨part, m⟩, hpart, h⟩ := bind_eq_ok h
  obtain ⟨⟨later, k⟩, hlater, h⟩ := bind_eq_ok h
  obtain ⟨rfl, rfl⟩ := Prod.mk.inj (Except.ok.inj h)
  exact ⟨part, later, m, k, hpart, hlater, rfl, rfl⟩

/-- A fragment inside brackets is read as some parts, whatever follows. -/
def LexesParts (f : Text) (parts : List SetPart) : Prop :=
  ∀ rest, setParts 0 (f ++ rest) = (setParts 0 rest).map fun (more, n) => (parts ++ more, n + f.length)

theorem lexesParts_nil : LexesParts [] [] := by
  intro rest
  rw [List.nil_append]
  cases setParts 0 rest <;> rfl

theorem LexesParts.append {f g : Text} {ps qs : List SetPart} (hf : LexesParts f ps) (hg : LexesParts g qs) :
    LexesParts (f ++ g) (ps ++ qs) := by
  intro rest
  rw [List.append_assoc, hf, hg]
  cases setParts 0 rest with
  | error e => rfl
  | ok more =>
    simp only [Except.map, List.append_assoc, List.length_append]
    congr 2
    omega

/-- One part, with all characters that belong to it. -/
theorem lexesParts_part {c : Char} {r : Text} {part : SetPart} (hc : c ≠ ']')
    (h : ∀ rest, setPart c (r ++ rest) = .ok (part, r.length)) : LexesParts (c :: r) [part] := by
  intro rest
  rw [List.cons_append, setParts, if_neg hc, h]
  simp only [bind, Except.bind]
  rw [setParts_eq_drop _ (by simp), List.drop_left]
  cases setParts 0 rest with
  | error e => rfl
  | ok more => simp [Except.map, pure, Except.pure, Nat.add_assoc]

theorem lexesParts_hyphen : LexesParts ['-'] [.hyphen] := lexesParts_part (by decide) fun _ => rfl

theorem setPart_plain {c : Char} (h : isClassSyntaxChar c = false) (r : Text) : setPart c r = .ok (.char c false, 0) := by
  simp only [isClassSyntaxChar, List.mem_cons, List.not_mem_nil, or_false, decide_eq_false_iff_not, not_or] at h
  unfold setPart
  split <;> simp_all

theorem lexesParts_quoteClassChar (c : Char) : LexesParts (quoteClassChar c) [.char c false] := by
  unfold quoteClassChar blankEscape?
  split
  · exact lexesParts_part (by decide) fun _ => rfl
  · exact lexesParts_part (by decide) fun _ => rfl
  · exact lexesParts_part (by decide) fun _ => rfl
  · exact lexesParts_part (by decide) fun _ => rfl
  · exact lexesParts_part (by decide) fun _ => rfl
  · exact lexesParts_part (by decide) fun _ => rfl
  · rw [Option.getD_none]
    split_ifs with h
    · simp only [isClassSyntaxChar, decide_eq_true_eq, List.mem_cons, List.not_mem_nil, or_false] at h
      rcases h with rfl | rfl | rfl | rfl | rfl | rfl | rfl <;> exact lexesParts_part (by decide) fun _ => rfl
    · refine lexesParts_part ?_ fun _ => setPart_plain (by simpa using h) _
      rintro rfl
      exact h (by decide)

theorem lexesParts_range (range : Char × Char) : LexesParts (CharClass.rangeText range) (rangeParts range) := by
  obtain ⟨low, high⟩ := range
  unfold CharClass.rangeText rangeParts
  simp only
  split_ifs
  · exact lexesParts_quoteClassChar low
  · exact (lexesParts_quoteClassChar low).append (lexesParts_quoteClassChar high)
  · exact (lexesParts_quoteClassChar low).append (lexesParts_hyphen.append (lexesParts_quoteClassChar high))

theorem lexesParts_ranges (rs : List (Char × Char)) :
    LexesParts (rs.flatMap CharClass.rangeText) (rs.flatMap rangeParts) := by
  induction rs with
  | nil => exact lexesParts_nil
  | cons r rs ih => exact (lexesParts_range r).append ih

/-- The named sets that the shorthands of a class are read as. -/
def shorthandSets (cls : CharClass) : List NamedSet :=
  (if cls.word then [.asciiWord] else []) ++ (if cls.digit then [.asciiDigit] else []) ++
    (if cls.space then [.asciiSpace] else [])

theorem lexesParts_shorthand (cls : CharClass) :
    LexesParts cls.shorthandText ((shorthandSets cls).map (.bracketed · false)) := by
  have hword : LexesParts CharClass.wordText [.bracketed .asciiWord false] := lexesParts_part (by decide) fun _ => rfl
  have hdigit : LexesParts CharClass.digitText [.bracketed .asciiDigit false] := lexesParts_part (by decide) fun _ => rfl
  have hspace : LexesParts CharClass.spaceText [.bracketed .asciiSpace false] := lexesParts_part (by decide) fun _ => rfl
  unfold CharClass.shorthandText shorthandSets
  rw [List.map_append, List.map_append]
  refine (LexesParts.append ?_ ?_).append ?_
  · split_ifs
    · exact hword
    · exact lexesParts_nil
  · split_ifs
    · exact hdigit
    · exact lexesParts_nil
  · split_ifs
    · exact hspace
    · exact lexesParts_nil

def RangesOrdered (rs : List (Char × Char)) : Prop := ∀ r ∈ rs, r.1 ≤ r.2

theorem setItems_bracketed (sets : List NamedSet) :
    setItems (sets.map (.bracketed · false)) = .ok (sets.map (.named · false)) := by
  induction sets with
  | nil => rfl
  | cons s sets ih => simp [setItems, ih, Except.map]

/-- A character that is followed by no hyphen stands for itself. -/
theorem setItems_char {parts : List SetPart} (h : parts.head? ≠ some .hyphen) (c : Char) :
    setItems (.char c false :: parts) = (setItems parts).map (.range c c :: ·) := by
  cases parts with
  | nil => rfl
  | cons part parts =>
    cases part with
    | hyphen => simp at h
    | char => simp [setItems, goesOn]
    | named => simp [setItems, goesOn]
    | bracketed => simp [setItems, goesOn]

theorem setItems_range {r : Char × Char} (h : r.1 ≤ r.2) {parts : List SetPart} (hp : parts.head? ≠ some .hyphen) :
    setItems (rangeParts r ++ parts) = (setItems parts).map (rangeItems r ++ ·) ∧
      (rangeParts r ++ parts).head? ≠ some .hyphen := by
  obtain ⟨low, high⟩ := r
  unfold rangeParts rangeItems
  simp only
  split_ifs
  · exact ⟨setItems_char hp low, by simp⟩
  · refine ⟨?_, by simp⟩
    rw [List.cons_append, List.singleton_append, setItems_char (by simp), setItems_char hp]
    cases setItems parts <;> rfl
  · refine ⟨?_, by simp⟩
    change setItems (.char low false :: .hyphen :: .char high false :: parts) = _
    rw [setItems, if_neg (Char.not_lt.2 h)]
    rfl

theorem setItems_ranges {rs : List (Char × Char)} (h : RangesOrdered rs) (sets : List NamedSet) :
    setItems (rs.flatMap rangeParts ++ sets.map (SetPart.bracketed · false)) =
        .ok (rs.flatMap rangeItems ++ sets.map (SetItem.named · false)) ∧
      (rs.flatMap rangeParts ++ sets.map (SetPart.bracketed · false)).head? ≠ some .hyphen := by
  induction rs with
  | nil =>
    refine ⟨setItems_bracketed sets, ?_⟩
    cases sets <;> simp
  | cons r rs ih =>
    obtain ⟨ih, hhead⟩ := ih fun r hr => h r (List.mem_cons_of_mem _ hr)
    obtain ⟨heq, hne⟩ := setItems_range (h r List.mem_cons_self) hhead
    rw [List.flatMap_cons, List.append_assoc]
    refine ⟨?_, hne⟩
    rw [heq, ih, List.flatMap_cons, List.append_assoc]
    rfl

theorem setLead_eq_nil {c : Char} {r : Text} (hclose : c ≠ ']') (hhyphen : c ≠ '-') : setLead (c :: r) = [] := by
  simp [setLead, hclose, hhyphen]

/-- A bracketed class, whose text does not begin like a complement, with a bracket or with a hyphen. -/
theorem lexes_bracket {f : Text} {parts : List SetPart} {items : List SetItem} (hf : LexesParts f parts)
    (hi : setItems parts = .ok items) {c : Char} (hc : f.head? = some c) (hneg : c ≠ '^') (hclose : c ≠ ']')
    (hhyphen : c ≠ '-') :
    Lexes ('[' :: f ++ [']']) [.set false items] := by
  obtain ⟨r, rfl⟩ := List.head?_eq_some_iff.1 hc
  rw [List.cons_append]
  refine lexes_token fun rest _ => ?_
  have hparts := hf (']' :: rest)
  rw [show setParts 0 (']' :: rest) = .ok ([], 1) by rw [setParts, if_pos rfl]] at hparts
  change bracket (c :: r ++ [']'] ++ rest) = _
  rw [List.append_assoc, List.singleton_append]
  unfold bracket
  split
  · rename_i heq
    exact absurd (List.cons.inj heq).1 hneg
  · unfold bracketBody
    rw [List.cons_append, setLead_eq_nil hclose hhyphen]
    simp only [List.length_nil, List.drop_zero]
    rw [← List.cons_append, hparts]
    simp [bind, Except.bind, Except.map, pure, Except.pure, hi, Nat.add_comm]

theorem head_quoteClassChar (c : Char) :
    ∃ d, (quoteClassChar c).head? = some d ∧ d ≠ '^' ∧ d ≠ ']' ∧ d ≠ '-' := by
  unfold quoteClassChar blankEscape?
  split
  all_goals try exact ⟨'\\', rfl, by decide⟩
  rw [Option.getD_none]
  split_ifs with h
  · exact ⟨'\\', rfl, by decide⟩
  · refine ⟨c, rfl, ?_, ?_, ?_⟩ <;> rintro rfl <;> exact h (by decide)

theorem head_rangeText (r : Char × Char) :
    ∃ d, (CharClass.rangeText r).head? = some d ∧ d ≠ '^' ∧ d ≠ ']' ∧ d ≠ '-' := by
  obtain ⟨low, high⟩ := r
  obtain ⟨d, hd, h⟩ := head_quoteClassChar low
  obtain ⟨t, ht⟩ := List.head?_eq_some_iff.1 hd
  refine ⟨d, ?_, h⟩
  unfold CharClass.rangeText
  simp only
  split_ifs <;> simp [ht]

/-! ### Ranges -/

theorem char_le_iff {c d : Char} : c ≤ d ↔ c.toNat ≤ d.toNat := UInt32.le_iff_toNat_le

theorem ranges_ordered (cs : List Char) : RangesOrdered (ranges cs) := by
  induction cs with
  | nil => simp [ranges, RangesOrdered]
  | cons c rest ih =>
    rw [ranges]
    split
    · rename_i low high more hr
      rw [hr] at ih
      have hle : low.toNat ≤ high.toNat := char_le_iff.1 (ih (low, high) List.mem_cons_self)
      split_ifs with hc
      · intro r hmem
        rcases List.mem_cons.1 hmem with rfl | hmem
        · exact char_le_iff.2 (by simp only; omega)
        · exact ih r (List.mem_cons_of_mem _ hmem)
      · intro r hmem
        rcases List.mem_cons.1 hmem with rfl | hmem
        · exact Char.le_refl c
        · exact ih r hmem
    · intro r hmem
      obtain rfl := List.mem_singleton.1 hmem
      exact Char.le_refl c

def InRange (d : Char) (range : Char × Char) : Prop := range.1 ≤ d ∧ d ≤ range.2

theorem inRange_self {c d : Char} : InRange d (c, c) ↔ d = c := by
  simp only [InRange, char_le_iff, ← Char.toNat_inj]
  omega

theorem exists_mem_ranges {cs : List Char} {d : Char} : (∃ r ∈ ranges cs, InRange d r) ↔ d ∈ cs := by
  induction cs with
  | nil => simp [ranges]
  | cons c rest ih =>
    have hordered := ranges_ordered rest
    rw [List.mem_cons, ← ih, ranges]
    split
    · rename_i low high more hr
      rw [hr] at hordered ⊢
      have hle : low.toNat ≤ high.toNat := char_le_iff.1 (hordered (low, high) List.mem_cons_self)
      split_ifs with hc
      · have hgrow : InRange d (c, high) ↔ d = c ∨ InRange d (low, high) := by
          simp only [InRange, char_le_iff, ← Char.toNat_inj]
          omega
        simp only [List.mem_cons, exists_eq_or_imp, hgrow, or_assoc]
      · simp only [List.mem_cons, exists_eq_or_imp, inRange_self]
    · rename_i hr
      simp [hr, inRange_self]

theorem contains_rangeItems {r : Char × Char} (h : r.1 ≤ r.2) (d : Char) :
    ((rangeItems r).any (·.contains false d)) = true ↔ InRange d r := by
  obtain ⟨low, high⟩ := r
  have hle : low.toNat ≤ high.toNat := char_le_iff.1 h
  unfold rangeItems
  simp only
  split_ifs with he hn <;>
    simp only [List.any_cons, List.any_nil, Bool.or_false, Bool.or_eq_true, SetItem.contains, holdsOf, Bool.false_eq_true,
      if_false, Bool.and_eq_true, decide_eq_true_eq, InRange, char_le_iff, ← Char.toNat_inj] at * <;> omega

/-! ### Shorthands -/

/-- Two ASCII tests that agree on the ASCII characters agree on all. -/
theorem ascii_test_ext {f g : Char → Bool} (hf : ∀ c, f c = true → c.toNat < 128) (hg : ∀ c, g c = true → c.toNat < 128)
    (h : ∀ n < 128, f (Char.ofNat n) = g (Char.ofNat n)) (c : Char) : f c = g c := by
  by_cases hc : c.toNat < 128
  · have := h c.toNat hc
    rwa [Char.ofNat_toNat] at this
  · rw [Bool.eq_iff_iff]
    exact ⟨fun h => absurd (hf c h) hc, fun h => absurd (hg c h) hc⟩

theorem toNat_lt_of_isAlphanum {c : Char} (h : c.isAlphanum = true) : c.toNat < 128 := by
  unfold Char.isAlphanum Char.isAlpha Char.isUpper Char.isLower Char.isDigit at h
  simp only [Bool.or_eq_true, Bool.and_eq_true, decide_eq_true_eq, UInt32.le_iff_toNat_le, ge_iff_le] at h
  change c.val.toNat < 128
  have h1 : 'Z'.val.toNat = 90 := rfl
  have h2 : 'z'.val.toNat = 122 := rfl
  have h3 : '9'.val.toNat = 57 := rfl
  omega

theorem toNat_lt_of_mem {cs : List Char} (h : cs.all (·.toNat < 128) = true) {c : Char} (hc : c ∈ cs) :
    c.toNat < 128 := by
  simpa using List.all_eq_true.1 h c hc

theorem contains_asciiWord (c : Char) :
    NamedSet.asciiWord.contains c = (CharClass.asciiWordChars false).contains c := by
  refine ascii_test_ext (g := fun c => (CharClass.asciiWordChars false).contains c) ?_ ?_ ?_ c
  · intro c hc
    simp only [NamedSet.contains, Bool.or_eq_true, decide_eq_true_eq] at hc
    rcases hc with hc | rfl
    · exact toNat_lt_of_isAlphanum hc
    · decide
  · intro c hc
    exact toNat_lt_of_mem (by decide) (List.contains_iff_mem.1 hc)
  · decide

theorem contains_asciiDigit (c : Char) : NamedSet.asciiDigit.contains c = CharClass.asciiDigits.contains c := by
  refine ascii_test_ext (g := fun c => CharClass.asciiDigits.contains c) ?_ ?_ ?_ c
  · intro c hc
    have hdigit : c.isDigit = true := hc
    refine toNat_lt_of_isAlphanum ?_
    unfold Char.isAlphanum
    rw [hdigit, Bool.or_true]
  · intro c hc
    exact toNat_lt_of_mem (by decide) (List.contains_iff_mem.1 hc)
  · decide

theorem contains_asciiSpace (c : Char) : NamedSet.asciiSpace.contains c = CharClass.asciiBlanks.contains c := by
  rw [Bool.eq_iff_iff, List.contains_iff_mem]
  simp only [NamedSet.contains, decide_eq_true_eq]
  rfl

theorem any_shorthandSets (cls : CharClass) (c : Char) :
    ((shorthandSets cls).any (·.contains c)) = true ↔
      (cls.word = true ∧ c ∈ CharClass.asciiWordChars false) ∨ (cls.digit = true ∧ c ∈ CharClass.asciiDigits) ∨
        (cls.space = true ∧ c ∈ CharClass.asciiBlanks) := by
  unfold shorthandSets
  simp only [List.any_append, Bool.or_eq_true, or_assoc]
  refine or_congr ?_ (or_congr ?_ ?_)
  · cases cls.word <;> simp [contains_asciiWord]
  · cases cls.digit <;> simp [contains_asciiDigit]
  · cases cls.space <;> simp [contains_asciiSpace]

/-! ### The text of a class -/

/-- The items that the text of a class is read as. -/
def classItems (cls : CharClass) : List SetItem :=
  (ranges cls.chars).flatMap rangeItems ++ (shorthandSets cls).map (SetItem.named · false)

theorem any_classItems (cls : CharClass) (c : Char) :
    ((classItems cls).any (·.contains false c)) = true ↔ c ∈ cls.members := by
  have hranges : (((ranges cls.chars).flatMap rangeItems).any (·.contains false c)) = true ↔ c ∈ cls.chars := by
    rw [← exists_mem_ranges, List.any_flatMap, List.any_eq_true]
    refine exists_congr fun r => and_congr_right fun hr => ?_
    exact contains_rangeItems (ranges_ordered _ r hr) c
  have hsets : ((((shorthandSets cls).map (SetItem.named · false))).any (·.contains false c)) =
      (shorthandSets cls).any (·.contains c) := by
    simp [List.any_map, Function.comp_def, SetItem.contains, holdsOf]
  unfold classItems CharClass.members
  rw [List.any_append, Bool.or_eq_true, hranges, hsets, any_shorthandSets]
  simp only [List.mem_append, or_assoc]
  cases cls.word <;> cases cls.digit <;> cases cls.space <;> simp

theorem negated_not_mem_classItems (cls : CharClass) (set : NamedSet) : .named set true ∉ classItems cls := by
  have hrange : ∀ r, SetItem.named set true ∉ rangeItems r := by
    rintro ⟨low, high⟩
    unfold rangeItems
    simp only
    split_ifs <;> simp
  simp [classItems, hrange]

/-- Without complements an item holds a character if it holds one of its fold class. -/
theorem contains_folded {item : SetItem} (h : ∀ set, item ≠ .named set true) (c : Char) :
    item.contains true c = (foldClass c).any (item.contains false) := by
  cases item with
  | range low high => rfl
  | named set negated =>
    cases negated with
    | false =>
      have hplain : SetItem.contains false (.named set false) = set.contains := by
        funext d
        simp [SetItem.contains, holdsOf]
      rw [hplain]
      simp [SetItem.contains, holdsOf]
    | true => exact absurd rfl (h set)

/-- A set holds a character if it holds one of its fold class. -/
theorem contains_classItems {folded : Bool} {cls : CharClass} {d : Char} :
    CharSet.contains ⟨classItems cls, false, folded⟩ d = true ↔
      ∃ c ∈ cls.members, if folded then c ∈ foldClass d else c = d := by
  unfold CharSet.contains
  simp only [Bool.bne_false]
  cases folded with
  | false => simpa using any_classItems cls d
  | true =>
    have hitem : ∀ item ∈ classItems cls, item.contains true d = (foldClass d).any (item.contains false) :=
      fun item hmem => contains_folded (fun set he => negated_not_mem_classItems cls set (he ▸ hmem)) d
    simp only [if_true, List.any_eq_true, ← any_classItems cls]
    constructor
    · rintro ⟨item, hmem, hd⟩
      rw [hitem item hmem, List.any_eq_true] at hd
      obtain ⟨c, hc, hholds⟩ := hd
      exact ⟨c, ⟨item, hmem, hholds⟩, hc⟩
    · rintro ⟨c, ⟨item, hmem, hholds⟩, hc⟩
      refine ⟨item, hmem, ?_⟩
      rw [hitem item hmem, List.any_eq_true]
      exact ⟨c, hc, hholds⟩

theorem shorthandText_eq_nil {cls : CharClass} (h : cls.shorthandText = []) :
    cls.word = false ∧ cls.digit = false ∧ cls.space = false := by
  unfold CharClass.shorthandText at h
  simp only [List.append_eq_nil_iff] at h
  obtain ⟨⟨hw, hd⟩, hs⟩ := h
  refine ⟨?_, ?_, ?_⟩
  · cases hc : cls.word with
    | false => rfl
    | true => simp [hc, CharClass.wordText] at hw
  · cases hc : cls.digit with
    | false => rfl
    | true => simp [hc, CharClass.digitText] at hd
  · cases hc : cls.space with
    | false => rfl
    | true => simp [hc, CharClass.spaceText] at hs

theorem members_of_shorthandText_eq_nil {cls : CharClass} (h : cls.shorthandText = []) : cls.members = cls.chars := by
  obtain ⟨hw, hd, hs⟩ := shorthandText_eq_nil h
  simp [CharClass.members, hw, hd, hs]

theorem head_shorthandText {cls : CharClass} (h : cls.shorthandText ≠ []) : cls.shorthandText.head? = some '[' := by
  unfold CharClass.shorthandText at h ⊢
  cases hword : cls.word <;> cases hdigit : cls.digit <;> cases hspace : cls.space <;>
    simp_all [CharClass.wordText, CharClass.digitText, CharClass.spaceText]

theorem lexes_brackets {cls : CharClass} (h : cls.chars ≠ [] ∨ cls.shorthandText ≠ []) :
    Lexes ('[' :: (ranges cls.chars).flatMap CharClass.rangeText ++ cls.shorthandText ++ [']'])
      [.set false (classItems cls)] := by
  have hparts := (lexesParts_ranges (ranges cls.chars)).append (lexesParts_shorthand cls)
  have hitems := (setItems_ranges (ranges_ordered cls.chars) (shorthandSets cls)).1
  have hhead : ∃ d, ((ranges cls.chars).flatMap CharClass.rangeText ++ cls.shorthandText).head? = some d ∧
      d ≠ '^' ∧ d ≠ ']' ∧ d ≠ '-' := by
    cases hr : ranges cls.chars with
    | nil =>
      have hchars : cls.chars = [] := by
        rw [List.eq_nil_iff_forall_not_mem]
        intro c hc
        obtain ⟨r, hmem, -⟩ := exists_mem_ranges.2 hc
        simp [hr] at hmem
      exact ⟨'[', head_shorthandText (h.resolve_left fun hne => hne hchars), by decide⟩
    | cons r rs =>
      obtain ⟨d, hd, hne⟩ := head_rangeText r
      obtain ⟨t, ht⟩ := List.head?_eq_some_iff.1 hd
      exact ⟨d, by simp [ht], hne⟩
  obtain ⟨d, hd, hneg, hclose, hhyphen⟩ := hhead
  have hlex := lexes_bracket hparts hitems hd hneg hclose hhyphen
  rwa [← List.cons_append] at hlex

theorem two_le_length_members {cls : CharClass} (h : cls.shorthandText ≠ []) : 2 ≤ cls.members.length := by
  unfold CharClass.shorthandText at h
  unfold CharClass.members
  cases hword : cls.word <;> cases hdigit : cls.digit <;> cases hspace : cls.space <;>
    simp_all [CharClass.asciiWordChars, CharClass.asciiDigits, CharClass.asciiBlanks, CharClass.asciiUpper,
      CharClass.asciiLower]

/-- How the text of a class is read: as one that matches nothing, as a character, or as a set. -/
theorem pattern_cases (cls : CharClass) :
    (cls.members = [] ∧ cls.pattern = nothingText) ∨
      (∃ c, cls.members = [c] ∧ cls.pattern = quoteChar c) ∨
      (2 ≤ cls.members.length ∧ Lexes cls.pattern [.set false (classItems cls)] ∧ ∃ r, cls.pattern = '[' :: r) := by
  unfold CharClass.pattern
  split
  · rename_i hc hs
    exact .inl ⟨by rw [members_of_shorthandText_eq_nil hs, hc], rfl⟩
  · rename_i c hc hs
    exact .inr (.inl ⟨c, by rw [members_of_shorthandText_eq_nil hs, hc], rfl⟩)
  · rename_i hnil hone
    have hne : cls.chars ≠ [] ∨ cls.shorthandText ≠ [] := by
      by_cases hc : cls.chars = []
      · exact .inr (hnil hc)
      · exact .inl hc
    refine .inr (.inr ⟨?_, lexes_brackets hne, _, rfl⟩)
    by_cases hs : cls.shorthandText = []
    · rw [members_of_shorthandText_eq_nil hs]
      match hc : cls.chars with
      | [] => exact absurd hs (hnil hc)
      | [c] => exact absurd hs (hone c hc)
      | _ :: _ :: _ => simp
    · exact two_le_length_members hs

end WordPattern.Regex
