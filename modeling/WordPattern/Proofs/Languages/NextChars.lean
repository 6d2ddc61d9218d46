import WordPattern.Proofs.Languages.Trees
import WordPattern.Proofs.Writing.Assembled

/-! What is said of the next character holds of the language of a tree.

A text that a node stands for begins with one of the characters that are given for the node, or it is empty and the node
is said to match the empty text; and a text that the nodes of a sequence stand for one after the other, with some text
behind it, begins with one of the characters that are given for the nodes and what follows them. No other character is
given where everything in a tree can match something. The trees here take no patterns as they are. -/

namespace WordPattern

open Regex

/-- What the text of a class stands for. -/
theorem CharClass.language_eq_sourceLanguage (cls : CharClass) : cls.language = sourceLanguage cls.pattern := by
  have hchoice : SpellsChoice True {} cls.pattern cls.language (Takes cls.language) :=
    (spellsOne_class rfl cls).many.choice
  obtain ⟨-, ts, hlex, hdenotes⟩ := hchoice
  obtain ⟨hlanguage, hparses⟩ := hdenotes.parse hlex.tokens_eq
  obtain ⟨parsed, hparsed⟩ := hparses trivial
  rw [sourceLanguage, hparsed]
  exact (hlanguage parsed hparsed).2.symm

theorem Node.verbatimsEach_drop {ns : List Node} (h : verbatimsEach ns = []) (i : Nat) :
    verbatimsEach (ns.drop i) = [] := by
  rw [verbatimsEach_eq, List.flatMap_eq_nil_iff] at h ⊢
  exact fun n hn => h n (List.mem_of_mem_drop hn)

/-! ### The empty text and the first character -/

section First

variable {L M : Language Char} {yes : Bool} {c : Char} {t : Text}

theorem nil_mem_mul : [] ∈ L * M ↔ [] ∈ L ∧ [] ∈ M := by
  rw [Language.mem_mul]
  constructor
  · rintro ⟨s, hs, t, ht, heq⟩
    obtain ⟨rfl, rfl⟩ := List.append_eq_nil_iff.1 heq
    exact ⟨hs, ht⟩
  · rintro ⟨hL, hM⟩
    exact ⟨[], hL, [], hM, rfl⟩

theorem nil_mem_languageIf : [] ∈ languageIf yes L ↔ yes = true ∨ [] ∈ L := by
  cases yes with
  | false => simp [languageIf]
  | true => exact ⟨fun _ => .inl rfl, fun _ => .inl Language.nil_mem_one⟩

theorem cons_mem_languageIf : c :: t ∈ languageIf yes L ↔ c :: t ∈ L := by
  cases yes with
  | false => rfl
  | true => exact ⟨fun h => h.resolve_left (List.cons_ne_nil c t), .inr⟩

end First

namespace NextChars

/-- The character may come next. -/
def Allows (next : NextChars) (c : Char) : Prop :=
  match next with
  | chars cs => c ∈ cs
  | any => True

def Fits (next : NextChars) (t : Text) : Prop := ∀ c ∈ t.head?, next.Allows c

theorem not_allows_none {c : Char} : ¬ none.Allows c := List.not_mem_nil

theorem allows_union {F G : NextChars} {c : Char} : (F.union G).Allows c ↔ F.Allows c ∨ G.Allows c := by
  cases F <;> cases G <;> simp [union, Allows]

end NextChars

namespace Node

open NextChars

variable {c : Char} {t : Text}

mutual

theorem nullable_iff : (n : Node) → n.verbatims = [] → (n.nullable = true ↔ [] ∈ n.language)
  | leaf m t, _ => by
    rw [nullable, language, nil_mem_languageIf, Bool.or_eq_true, List.isEmpty_iff]
    exact or_congr_right eq_comm
  | charClass m cls, _ => by
    have hone : [] ∉ cls.language := fun ⟨_, _, h⟩ => List.cons_ne_nil _ _ h.symm
    rw [nullable, language, nil_mem_languageIf, or_iff_left hone]
  | verbatim m v, h => absurd h (List.cons_ne_nil v [])
  | sequence m children, h => by
    rw [nullable, language, nil_mem_languageIf, Bool.or_eq_true, allNullable_iff children h]
  | alternate m children, h => by
    rw [nullable, language, nil_mem_languageIf, Bool.or_eq_true, anyNullable_iff children h]

theorem allNullable_iff : (ns : List Node) → verbatimsEach ns = [] → (allNullable ns = true ↔ [] ∈ itemsLanguage ns)
  | [], _ => ⟨fun _ => Language.nil_mem_one, fun _ => rfl⟩
  | n :: rest, h => by
    obtain ⟨hn, hrest⟩ := List.append_eq_nil_iff.1 h
    rw [allNullable, itemsLanguage, nil_mem_mul, Bool.and_eq_true, nullable_iff n hn, allNullable_iff rest hrest]

theorem anyNullable_iff : (ns : List Node) → verbatimsEach ns = [] →
    (anyNullable ns = true ↔ [] ∈ branchesLanguage ns)
  | [], _ => ⟨fun h => absurd h Bool.false_ne_true, fun h => absurd h (Language.notMem_zero [])⟩
  | n :: rest, h => by
    obtain ⟨hn, hrest⟩ := List.append_eq_nil_iff.1 h
    rw [anyNullable, branchesLanguage, Language.mem_add, Bool.or_eq_true, nullable_iff n hn, anyNullable_iff rest hrest]

end

mutual

theorem allows_first : (n : Node) → n.verbatims = [] → ∀ {c t}, c :: t ∈ n.language → n.first.Allows c
  | leaf m u, _, c, t, ht => by
    rw [language, cons_mem_languageIf] at ht
    obtain rfl : c :: t = u := ht
    exact List.mem_cons_self
  | charClass m cls, _, c, t, ht => by
    rw [language, cons_mem_languageIf] at ht
    obtain ⟨d, hd, heq⟩ := ht
    obtain ⟨rfl, -⟩ := List.cons.inj heq
    have hmem : c ∈ cls.members := of_decide_eq_true hd
    exact hmem
  | verbatim m v, h, _, _, _ => absurd h (List.cons_ne_nil v [])
  | sequence m children, h, c, t, ht => by
    rw [language, cons_mem_languageIf] at ht
    rw [first]
    refine allows_follow children h ht (u := []) ?_ ?_
    · exact fun c hc => absurd hc (by simp)
    · rw [List.append_nil]
      rfl
  | alternate m children, h, c, t, ht => by
    rw [language, cons_mem_languageIf] at ht
    exact allows_firstOfAny children h ht

theorem allows_follow : (ns : List Node) → verbatimsEach ns = [] → ∀ {after : NextChars} {s u : Text} {c : Char},
    s ∈ itemsLanguage ns → after.Fits u → (s ++ u).head? = some c → (follow ns after).Allows c
  | [], _, after, s, u, c, hs, hu, hc => by
    obtain rfl : s = [] := hs
    exact hu c hc
  | n :: rest, h, after, s, u, c, hs, hu, hc => by
    obtain ⟨hn, hrest⟩ := List.append_eq_nil_iff.1 h
    obtain ⟨s₁, hs₁, s₂, hs₂, rfl⟩ := Language.mem_mul.1 hs
    rw [follow]
    cases s₁ with
    | nil =>
      -- the first node is left out, so the text begins with what follows it
      rw [if_pos ((nullable_iff n hn).2 hs₁), allows_union]
      exact .inr (allows_follow rest hrest hs₂ hu hc)
    | cons d s₁ =>
      obtain rfl : d = c := Option.some.inj hc
      split_ifs
      · exact allows_union.2 (.inl (allows_first n hn hs₁))
      · exact allows_first n hn hs₁

theorem allows_firstOfAny : (ns : List Node) → verbatimsEach ns = [] → ∀ {c t}, c :: t ∈ branchesLanguage ns →
    (firstOfAny ns).Allows c
  | [], _, c, t, ht => absurd ht (Language.notMem_zero _)
  | n :: rest, h, c, t, ht => by
    obtain ⟨hn, hrest⟩ := List.append_eq_nil_iff.1 h
    rw [firstOfAny, allows_union]
    exact ht.imp (allows_first n hn) (allows_firstOfAny rest hrest)

end

def Matches (n : Node) : Prop := ∃ t, t ∈ n.language

theorem Everywhere.matches : {n : Node} → n.Everywhere Matches → n.Matches
  | leaf _ _, h | charClass _ _, h | verbatim _ _, h => h
  | sequence _ _, h | alternate _ _, h => h.1

theorem EverywhereEach.exists_mem_itemsLanguage : {ns : List Node} → EverywhereEach Matches ns →
    ∃ t, t ∈ itemsLanguage ns
  | [], _ => ⟨[], rfl⟩
  | n :: rest, h => by
    obtain ⟨s, hs⟩ := Everywhere.matches h.1
    obtain ⟨t, ht⟩ := exists_mem_itemsLanguage h.2
    exact ⟨s ++ t, Language.append_mem_mul hs ht⟩

mutual

theorem exists_of_allows_first : (n : Node) → n.verbatims = [] → n.Everywhere Matches → ∀ {c}, n.first.Allows c →
    ∃ t, c :: t ∈ n.language
  | leaf m u, _, _, c, hc => by
    cases u with
    | nil => exact absurd hc List.not_mem_nil
    | cons d u =>
      obtain rfl := List.mem_singleton.1 hc
      exact ⟨u, cons_mem_languageIf.2 rfl⟩
  | charClass m cls, _, _, c, hc => ⟨[], cons_mem_languageIf.2 ⟨c, decide_eq_true hc, rfl⟩⟩
  | verbatim m v, h, _, _, _ => absurd h (List.cons_ne_nil v [])
  | sequence m children, h, hmatches, c, hc => by
    obtain ⟨t, ht | ⟨-, hnone⟩⟩ := exists_of_allows_follow children h hmatches.2 hc
    · exact ⟨t, cons_mem_languageIf.2 ht⟩
    · exact absurd hnone not_allows_none
  | alternate m children, h, hmatches, c, hc => by
    obtain ⟨t, ht⟩ := exists_of_allows_firstOfAny children h hmatches.2 hc
    exact ⟨t, cons_mem_languageIf.2 ht⟩

theorem exists_of_allows_follow : (ns : List Node) → verbatimsEach ns = [] → EverywhereEach Matches ns →
    ∀ {after : NextChars} {c : Char}, (follow ns after).Allows c →
      ∃ t, c :: t ∈ itemsLanguage ns ∨ ([] ∈ itemsLanguage ns ∧ after.Allows c)
  | [], _, _, after, c, hc => ⟨[], .inr ⟨rfl, hc⟩⟩
  | n :: rest, h, hmatches, after, c, hc => by
    obtain ⟨hn, hrest⟩ := List.append_eq_nil_iff.1 h
    have hfirst : n.first.Allows c → ∃ t, c :: t ∈ itemsLanguage (n :: rest) := fun hc => by
      obtain ⟨s, hs⟩ := exists_of_allows_first n hn hmatches.1 hc
      obtain ⟨t, ht⟩ := EverywhereEach.exists_mem_itemsLanguage hmatches.2
      exact ⟨s ++ t, Language.append_mem_mul hs ht⟩
    rw [follow] at hc
    split_ifs at hc with hnullable
    · rcases allows_union.1 hc with hc | hc
      · exact (hfirst hc).imp fun _ => .inl
      · have hnil := (nullable_iff n hn).1 hnullable
        obtain ⟨t, ht⟩ := exists_of_allows_follow rest hrest hmatches.2 hc
        refine ⟨t, ht.imp (Language.append_mem_mul hnil) fun ⟨hall, hafter⟩ => ?_⟩
        exact ⟨nil_mem_mul.2 ⟨hnil, hall⟩, hafter⟩
    · exact (hfirst hc).imp fun _ => .inl

theorem exists_of_allows_firstOfAny : (ns : List Node) → verbatimsEach ns = [] → EverywhereEach Matches ns →
    ∀ {c}, (firstOfAny ns).Allows c → ∃ t, c :: t ∈ branchesLanguage ns
  | [], _, _, c, hc => absurd hc not_allows_none
  | n :: rest, h, hmatches, c, hc => by
    obtain ⟨hn, hrest⟩ := List.append_eq_nil_iff.1 h
    rcases allows_union.1 hc with hc | hc
    · exact (exists_of_allows_first n hn hmatches.1 hc).imp fun _ => .inl
    · exact (exists_of_allows_firstOfAny rest hrest hmatches.2 hc).imp fun _ => .inr

end

/-- In a tree that takes no patterns as they are, a text of a node begins with a character that the node can begin with,
and a node is said to match the empty text just if it does; no other character is given if everything in the tree can
match something. What the children of a sequence after one of them stand for, with a text behind it that fits what
follows, begins with a character that can come next. A class stands for what its text stands for. -/
theorem next_chars_cover (n : Node) (h : n.verbatims = []) :
    (∀ cls : CharClass, cls.language = sourceLanguage cls.pattern) ∧
    (∀ c t, c :: t ∈ n.language → n.first.Allows c) ∧
    (n.nullable = true ↔ [] ∈ n.language) ∧
    (n.Everywhere Matches → ∀ c, n.first.Allows c → ∃ t, c :: t ∈ n.language) ∧
    ∀ m children, n = sequence m children → ∀ i < children.length, ∀ (after : NextChars) (s u : Text) (c : Char),
      s ∈ itemsLanguage (children.drop (i + 1)) → after.Fits u → (s ++ u).head? = some c →
        (follow (children.drop (i + 1)) after).Allows c := by
  refine ⟨CharClass.language_eq_sourceLanguage, fun _ _ => allows_first n h, nullable_iff n h,
    fun hmatches _ => exists_of_allows_first n h hmatches, ?_⟩
  rintro m children rfl i - after s u c
  exact allows_follow _ (verbatimsEach_drop h (i + 1))

def optionalParts : List Node :=
  [leaf ⟨true, .middle⟩ ['a', 'b'], charClass ⟨true, .middle⟩ (.ofChars ['x', 'y'] false), ofText ['z']]

/-- Of these parts in a sequence. -/
theorem next_chars_cover_optionalParts :
    (sequence .plain optionalParts).verbatims = [] ∧ ['z'] ∈ (sequence .plain optionalParts).language ∧
      (sequence .plain optionalParts).first.Allows 'z' ∧ [] ∉ (sequence .plain optionalParts).language ∧
      ['z'] ∈ itemsLanguage (optionalParts.drop 1) ∧ NextChars.none.Fits [] ∧
      (follow (optionalParts.drop 1) .none).Allows 'z' := by
  have hnone : NextChars.none.Fits [] := fun c hc => absurd hc (by simp)
  have hz : ['z'] ∈ (ofText ['z']).language := rfl
  have hlast : ['z'] ∈ itemsLanguage (optionalParts.drop 1) :=
    Language.append_mem_mul (nil_mem_languageIf.2 (.inl rfl)) (Language.append_mem_mul hz Language.nil_mem_one)
  have hwhole : ['z'] ∈ (sequence .plain optionalParts).language :=
    Language.append_mem_mul (nil_mem_languageIf.2 (.inl rfl)) hlast
  obtain ⟨-, hfirst, hnullable, -, hfollow⟩ := next_chars_cover (sequence .plain optionalParts) rfl
  refine ⟨rfl, hwhole, hfirst 'z' [] hwhole, fun hnil => ?_, hlast, hnone, ?_⟩
  · exact absurd (hnullable.2 hnil) (by decide)
  · exact hfollow .plain optionalParts rfl 0 (by decide) .none ['z'] [] 'z' hlast hnone rfl

end Node

end WordPattern
