import WordPattern.Proofs.Languages.Classes
import WordPattern.Proofs.Trees.Places

/-! The language of a tree, and the language of its text.

The text of a tree denotes exactly what the tree stands for, where all choices are left open. That the text is accepted
takes more: the repeats that it is abbreviated with have to repeat something. -/

namespace WordPattern

open Regex

def CharClass.language (cls : CharClass) : Language Char := oneOf fun c => c ∈ cls.members

namespace Node

/-! ### What a tree stands for -/

mutual

/-- The texts that a node stands for: its own text, the members of its class, what its pattern stands for, the product
of its children or the sum of its branches. -/
def language : Node → Language Char
  | leaf m t => languageIf m.optional {t}
  | charClass m cls => languageIf m.optional cls.language
  | verbatim m v => languageIf m.optional (sourceLanguage v.pattern)
  | sequence m children => languageIf m.optional (itemsLanguage children)
  | alternate m children => languageIf m.optional (branchesLanguage children)

def itemsLanguage : List Node → Language Char
  | [] => 1
  | n :: rest => language n * itemsLanguage rest

def branchesLanguage : List Node → Language Char
  | [] => 0
  | n :: rest => language n + branchesLanguage rest

end

theorem itemsLanguage_eq (ns : List Node) : itemsLanguage ns = (ns.map language).prod := by
  induction ns with
  | nil => rfl
  | cons n rest ih => rw [itemsLanguage, ih, List.map_cons, List.prod_cons]

mutual

/-- Something holds of every node of a tree. -/
def Everywhere (P : Node → Prop) : Node → Prop
  | leaf m t => P (leaf m t)
  | charClass m cls => P (charClass m cls)
  | verbatim m v => P (verbatim m v)
  | sequence m children => P (sequence m children) ∧ EverywhereEach P children
  | alternate m children => P (alternate m children) ∧ EverywhereEach P children

def EverywhereEach (P : Node → Prop) : List Node → Prop
  | [] => True
  | n :: rest => Everywhere P n ∧ EverywhereEach P rest

end

mutual

theorem Everywhere.mono {P Q : Node → Prop} (h : ∀ n, P n → Q n) : (n : Node) → n.Everywhere P → n.Everywhere Q
  | leaf _ _, hP => h _ hP
  | charClass _ _, hP => h _ hP
  | verbatim _ _, hP => h _ hP
  | sequence _ children, hP => ⟨h _ hP.1, EverywhereEach.mono h children hP.2⟩
  | alternate _ children, hP => ⟨h _ hP.1, EverywhereEach.mono h children hP.2⟩

theorem EverywhereEach.mono {P Q : Node → Prop} (h : ∀ n, P n → Q n) : (ns : List Node) → EverywhereEach P ns →
    EverywhereEach Q ns
  | [], _ => trivial
  | n :: rest, hP => ⟨Everywhere.mono h n hP.1, EverywhereEach.mono h rest hP.2⟩

end

mutual

theorem Everywhere.and {P Q : Node → Prop} : (n : Node) → n.Everywhere P → n.Everywhere Q →
    n.Everywhere fun n => P n ∧ Q n
  | leaf _ _, hP, hQ => ⟨hP, hQ⟩
  | charClass _ _, hP, hQ => ⟨hP, hQ⟩
  | verbatim _ _, hP, hQ => ⟨hP, hQ⟩
  | sequence _ children, hP, hQ => ⟨⟨hP.1, hQ.1⟩, EverywhereEach.and children hP.2 hQ.2⟩
  | alternate _ children, hP, hQ => ⟨⟨hP.1, hQ.1⟩, EverywhereEach.and children hP.2 hQ.2⟩

theorem EverywhereEach.and {P Q : Node → Prop} : (ns : List Node) → EverywhereEach P ns → EverywhereEach Q ns →
    EverywhereEach (fun n => P n ∧ Q n) ns
  | [], _, _ => trivial
  | n :: rest, hP, hQ => ⟨Everywhere.and n hP.1 hQ.1, EverywhereEach.and rest hP.2 hQ.2⟩

end

/-! ### What a tree has to be like -/

/-- Texts and sequences are short enough to be counted. -/
def Countable : Node → Prop
  | leaf _ t => t.length < boundLimit
  | sequence _ children => children.length < boundLimit
  | _ => True

/-- A pattern that is taken as it is is regular, and an atom if it is marked so. -/
def Regular : Node → Prop
  | verbatim _ v => IsRegular v.pattern ∧ (v.atomic = true → IsAtom v.pattern)
  | _ => True

/-- Alternatives of which there are none are not optional: their mark would not be written. -/
def Present : Node → Prop
  | alternate m [] => m.optional = false
  | _ => True

/-- What is optional can match some text that is not empty. -/
def Worthwhile (n : Node) : Prop := n.mark.optional = true → Takes n.language

/-- Of two neighbours in a sequence one can match some text that is not empty. -/
def Alternating : Node → Prop
  | sequence _ children => TakesByTurns (children.map language)
  | _ => True

/-- What is needed to write a node; more of it if the writing is strict. -/
structure Writable (strict : Prop) (n : Node) : Prop where
  countable : n.Countable
  regular : n.Regular
  present : n.Present
  worthwhile : strict → n.Worthwhile
  alternating : strict → n.Alternating

theorem Worthwhile.present {n : Node} (h : n.Worthwhile) : n.Present := by
  unfold Present
  split
  · rename_i m
    by_contra hm
    have hm : m.optional = true := by simpa using hm
    obtain ⟨t, ht, hne⟩ := h hm
    rw [language, languageIf, if_pos hm] at ht
    exact ht.elim hne (Language.notMem_zero t)
  · trivial

end Node

/-! ### Marks -/

variable {strict solid : Prop} {φ : Flags} {t : Text} {L : Language Char} {closed : Bool}

theorem takes_of_languageIf {yes : Bool} (h : Takes (languageIf yes L)) : Takes L := by
  obtain ⟨t, ht, hne⟩ := h
  cases yes with
  | false => exact ⟨t, ht, hne⟩
  | true => exact ⟨t, ht.resolve_left hne, hne⟩

/-- A text with the mark of its node. -/
theorem spells_finish {n : Node} (h : Spells strict φ t L solid)
    (hone : n.isAtomic = true → t ≠ [] → n.mark.optional = true → Spells strict φ (t ++ ['?']) (1 + L) solid)
    (htakes : strict → n.mark.optional = true → Takes L) :
    Spells strict φ (n.finish .backtracking closed t) (languageIf n.mark.optional L) solid := by
  unfold Node.finish languageIf
  cases hm : n.mark.optional with
  | false => exact h
  | true =>
    have hmark : Mode.optionalMark .backtracking closed = ['?'] := by simp [Mode.optionalMark]
    have hstrict := fun hs => htakes hs hm
    rw [if_pos rfl, if_pos rfl, hmark]
    split_ifs with hatomic
    · simp only [Bool.and_eq_true, Bool.not_eq_true', List.isEmpty_eq_false_iff] at hatomic
      exact hone hatomic.1 hatomic.2 hm
    · exact (h.choice.group closed).question fun hs => .inr (hstrict hs)

/-! ### Nodes -/

section Nodes

variable {m : Mark} {F : NextChars}

theorem pieces_text (hφ : φ.ignoreCase = false) (t : Text) :
    Pieces strict φ (t.map quoteChar) (t.map fun c => ({[c]} : Language Char)) := by
  induction t with
  | nil => exact .nil
  | cons c t ih => exact .cons_one (spellsOne_char hφ c).many ih

theorem prod_text (t : Text) : (t.map fun c => ({[c]} : Language Char)).prod = {t} := by
  induction t with
  | nil => rfl
  | cons c t ih =>
    rw [List.map_cons, List.prod_cons, ih]
    exact Set.image2_singleton

theorem takes_singleton {t : Text} (h : t ≠ []) : Takes {t} := ⟨t, rfl, h⟩

theorem turns_text (t : Text) : TakesByTurns (t.map fun c => ({[c]} : Language Char)) := by
  refine turns_of_forall fun L hL => ?_
  obtain ⟨c, -, rfl⟩ := List.mem_map.1 hL
  exact takes_singleton (List.cons_ne_nil c [])

theorem spells_leaf (hφ : φ.ignoreCase = false) (h : (Node.leaf m t).Writable strict) :
    Spells strict φ (Node.patternBefore .backtracking F (.leaf m t)) (Node.language (.leaf m t))
      (Takes (Node.language (.leaf m t))) := by
  have hlen : (t.map quoteChar).length < boundLimit := by
    rw [List.length_map]
    exact h.countable
  have hpieces : Pieces strict φ (t.map quoteChar) (t.map fun c => ({[c]} : Language Char)) := pieces_text hφ t
  have htext := spells_abbreviate (groupOpening_backtracking true) hpieces (fun _ => turns_text t) hlen
  rw [prod_text] at htext
  rw [Node.patternBefore, Node.language]
  have htakes : strict → m.optional = true → Takes {t} := fun hstrict hm => takes_of_languageIf (h.worthwhile hstrict hm)
  refine (spells_finish (n := .leaf m t) htext (fun hatomic _ hm => ?_) htakes).takes
  obtain ⟨c, rfl⟩ := List.length_eq_one_iff.1 (of_decide_eq_true hatomic)
  rw [List.map_singleton, abbreviate_singleton]
  exact (spellsOne_char hφ c).question fun hstrict => htakes hstrict hm

/-- The text of a class is one item. -/
theorem spellsOne_class (hφ : φ.ignoreCase = false) (cls : CharClass) :
    SpellsOne strict φ cls.pattern cls.language (Takes cls.language) := by
  obtain ⟨hopens, hlex⟩ := cls.lexes_tokens
  have hlanguage : (cls.expr φ.ignoreCase).language = cls.language := by
    rw [hφ, CharClass.language_expr, CharClass.language]
    congr 1
    funext c
    rw [Bool.eq_iff_iff, CharClass.takes_iff, decide_eq_true_eq]
  refine ⟨hopens, _, hlex, cls.readsOne_tokens ⟨(cls.expr_fine _).1, hlanguage, fun htakes => ?_⟩⟩
  rw [← hlanguage] at htakes
  exact Expr.isRepeatable_of_takes htakes

theorem spells_charClass (hφ : φ.ignoreCase = false) {cls : CharClass} (h : (Node.charClass m cls).Writable strict) :
    Spells strict φ (Node.patternBefore .backtracking F (.charClass m cls)) (Node.language (.charClass m cls))
      (Takes (Node.language (.charClass m cls))) := by
  have hclass : SpellsOne strict φ cls.pattern cls.language (Takes cls.language) := spellsOne_class hφ cls
  rw [Node.patternBefore, Node.language]
  unfold languageIf
  cases hm : m.optional with
  | false =>
    rw [if_neg (by simp), List.append_nil, if_neg (by simp)]
    exact hclass.many
  | true => exact hclass.question fun hstrict => takes_of_languageIf (h.worthwhile hstrict hm)

theorem spells_verbatim {multiline : Bool} {v : Verbatim} (h : (Node.verbatim m v).Writable strict) :
    Spells strict { multiline } (Node.patternBefore .backtracking F (.verbatim m v)) (Node.language (.verbatim m v))
      (Takes (Node.language (.verbatim m v))) := by
  obtain ⟨hregular, hatom⟩ := h.regular
  have hspells : Spells strict { multiline } v.pattern (sourceLanguage v.pattern) (Takes (sourceLanguage v.pattern)) :=
    ⟨hregular.opens, hregular.denotes⟩
  rw [Node.patternBefore, Node.language]
  refine (spells_finish (n := .verbatim m v) hspells (fun hatomic _ hm => ?_) fun hstrict hm => ?_).takes
  · obtain ⟨ts, hlex, hdenotes⟩ := hregular.denotes_question (hatom hatomic)
    have hmark : Opens ['?'] := opens_cons (by decide) _
    exact ⟨hregular.opens.append hmark, _, hlex.append lexes_question hmark, hdenotes⟩
  · exact takes_of_languageIf (h.worthwhile hstrict hm)

theorem placed_ne_root (first : Bool) :
    (if first then Position.only else .last) ≠ .root ∧ (if first then Position.first else .middle) ≠ .root := by
  cases first <;> simp

/-- The text of a sequence whose children are written for their languages. -/
theorem spells_sequence {children : List Node} {p : Position} (hnode : (Node.sequence m children).Writable strict)
    (h : Pieces strict φ (Node.itemPatterns .backtracking F (Node.placeItems true children)) (children.map Node.language)) :
    Spells strict φ (((Node.sequence m children).place p).patternBefore .backtracking F)
      (Node.language (.sequence m children)) (Takes (Node.language (.sequence m children))) := by
  have hlen : (Node.itemPatterns .backtracking F (Node.placeItems true children)).length < boundLimit := by
    rw [length_itemPatterns, Node.length_placeItems]
    exact hnode.countable
  have htext := spells_abbreviate (groupOpening_backtracking false) h (fun hstrict => hnode.alternating hstrict) hlen
  rw [← Node.itemsLanguage_eq] at htext
  rw [Node.place, Node.patternBefore, Node.language]
  refine (spells_finish (n := .sequence { m with position := p } _) htext (fun hatomic => ?_) fun hstrict hm => ?_).takes
  · exact absurd hatomic (by simp [Node.isAtomic])
  · exact takes_of_languageIf (hnode.worthwhile hstrict hm)

/-- Alternatives of which there are none match nothing. -/
theorem spells_nothing {p : Position} (hnode : (Node.alternate m []).Writable strict) :
    Spells strict φ (((Node.alternate m []).place p).patternBefore .backtracking F) (Node.language (.alternate m []))
      (Takes (Node.language (.alternate m []))) := by
  have hpresent : m.optional = false := hnode.present
  have hspells : SpellsOne strict φ nothingText 0 False :=
    ⟨opens_cons (by decide) _, _, lexes_nothing, denotesOne_nothing id⟩
  rw [Node.place, Node.patternBefore, Node.language, languageIf, hpresent]
  exact hspells.many.takes

/-- The text of alternatives below the top whose branches are written for their languages. -/
theorem spells_alternate {children : List Node} {p : Position} (hp : p ≠ .root)
    (hnode : (Node.alternate m children).Writable strict)
    (h : children ≠ [] → SpellsChoice strict φ
      (Text.join ['|'] (Node.branchPatterns .backtracking F (Node.placeEach (Node.branchPosition p) children)))
      (Node.branchesLanguage children) False) :
    Spells strict φ (((Node.alternate m children).place p).patternBefore .backtracking F)
      (Node.language (.alternate m children)) (Takes (Node.language (.alternate m children))) := by
  cases children with
  | nil => exact spells_nothing hnode
  | cons n rest =>
    have hgroup := (h (List.cons_ne_nil n rest)).group false
    have htakes : strict → m.optional = true → Takes (Node.branchesLanguage (n :: rest)) :=
      fun hstrict hm => takes_of_languageIf (hnode.worthwhile hstrict hm)
    have hroot : Node.isRoot (.alternate { m with position := p } (Node.placeEach (Node.branchPosition p) (n :: rest))) =
        false := by
      simp [Node.isRoot, Node.mark, hp]
    rw [Node.place, Node.patternBefore, Node.language, hroot]
    refine (spells_finish (n := .alternate { m with position := p } _) hgroup.many (fun _ _ hm => ?_) htakes).takes
    exact hgroup.question fun hstrict => .inr (htakes hstrict hm)

/-- The text of alternatives that are the whole tree needs no group, unless they are optional. -/
theorem spells_alternate_root {n : Node} {rest : List Node} (hnode : (Node.alternate m (n :: rest)).Writable strict)
    (h : SpellsChoice strict φ (Text.join ['|'] (Node.branchPatterns .backtracking .none
      (Node.placeEach (Node.branchPosition .root) (n :: rest)))) (Node.branchesLanguage (n :: rest)) False) :
    SpellsChoice strict φ (((Node.alternate m (n :: rest)).place .root).pattern .backtracking)
      (Node.language (.alternate m (n :: rest))) False := by
  have hroot : Node.isRoot (.alternate { m with position := .root } (Node.placeEach (Node.branchPosition .root) (n :: rest))) =
      true := rfl
  have hatomic : Node.isAtomic (.alternate { m with position := .root }
      (Node.placeEach (Node.branchPosition .root) (n :: rest))) = false := rfl
  have hmark : ∀ closed, Mode.optionalMark .backtracking closed = ['?'] := fun closed => by simp [Mode.optionalMark]
  have htakes : strict → m.optional = true → Takes (Node.branchesLanguage (n :: rest)) :=
    fun hstrict hm => takes_of_languageIf (hnode.worthwhile hstrict hm)
  rw [Node.pattern, Node.place, Node.patternBefore, Node.language, hroot, Node.finish, hatomic, hmark, languageIf]
  cases hm : m.optional with
  | false =>
    simp only [Node.mark, Bool.false_eq_true, if_false, if_true]
    exact h
  | true =>
    simp only [Node.mark, if_true, Bool.false_and, Bool.false_eq_true, if_false]
    exact ((h.group _).question fun hstrict => .inr (htakes hstrict hm)).choice

mutual

/-- Below the top, the text of a node is written for what the node stands for. -/
theorem spells_node {multiline : Bool} : (n : Node) → ∀ {p : Position} {F : NextChars}, p ≠ .root →
    n.Everywhere (Node.Writable strict) →
    Spells strict { multiline } ((n.place p).patternBefore .backtracking F) n.language (Takes n.language)
  | .leaf m _, p, _, _, h => spells_leaf (m := { m with position := p }) rfl ⟨h.1, h.2, h.3, h.4, h.5⟩
  | .charClass m _, p, _, _, h => spells_charClass (m := { m with position := p }) rfl ⟨h.1, h.2, h.3, h.4, h.5⟩
  | .verbatim m _, p, _, _, h => spells_verbatim (m := { m with position := p }) ⟨h.1, h.2, h.3, h.4, h.5⟩
  | .sequence _ children, _, _, _, h => spells_sequence h.1 (pieces_items children h.2)
  | .alternate _ children, _, _, hp, h =>
    spells_alternate hp h.1 (spells_branches children (Node.branchPosition_ne_root _) h.2)

theorem pieces_items {multiline : Bool} : (ns : List Node) → ∀ {first : Bool} {F : NextChars},
    Node.EverywhereEach (Node.Writable strict) ns →
    Pieces strict { multiline } (Node.itemPatterns .backtracking F (Node.placeItems first ns)) (ns.map Node.language)
  | [], _, _, _ => .nil
  | [n], first, _, h => .cons_one (spells_node n (placed_ne_root first).1 h.1) .nil
  | n :: n' :: rest, first, _, h =>
    .cons_one (spells_node n (placed_ne_root first).2 h.1) (pieces_items (n' :: rest) h.2)

theorem spells_branches {multiline : Bool} : (ns : List Node) → ∀ {p : Position} {F : NextChars}, p ≠ .root →
    Node.EverywhereEach (Node.Writable strict) ns → ns ≠ [] →
    SpellsChoice strict { multiline } (Text.join ['|'] (Node.branchPatterns .backtracking F (Node.placeEach p ns)))
      (Node.branchesLanguage ns) False
  | [], _, _, _, _, hne => absurd rfl hne
  | [n], p, F, hp, h, _ => by
    have hone : Node.branchesLanguage [n] = n.language := add_zero n.language
    rw [hone]
    exact ((spells_node n hp h.1).weaken False.elim).choice
  | n :: n' :: rest, p, F, hp, h, _ => by
    rw [Node.placeEach, Node.placeEach, join_branchPatterns]
    exact (spells_node n hp h.1).choice.bar (spells_branches (n' :: rest) hp h.2 (List.cons_ne_nil n' rest))

end

/-- The text of a whole tree, alternatives at the top without a group. -/
theorem spells_root {multiline : Bool} {n : Node} (h : n.Everywhere (Node.Writable strict)) :
    SpellsChoice strict { multiline } ((n.place .root).pattern .backtracking) n.language False := by
  cases n with
  | leaf m t => exact ((spells_leaf (m := { m with position := .root }) rfl ⟨h.1, h.2, h.3, h.4, h.5⟩).weaken False.elim).choice
  | charClass m cls =>
    exact ((spells_charClass (m := { m with position := .root }) rfl ⟨h.1, h.2, h.3, h.4, h.5⟩).weaken False.elim).choice
  | verbatim m v =>
    exact ((spells_verbatim (m := { m with position := .root }) ⟨h.1, h.2, h.3, h.4, h.5⟩).weaken False.elim).choice
  | sequence m children => exact ((spells_sequence h.1 (pieces_items children h.2)).weaken False.elim).choice
  | alternate m children =>
    obtain ⟨hnode, heach⟩ := h
    cases children with
    | nil => exact ((spells_nothing hnode).weaken False.elim).choice
    | cons n rest =>
      have hchoice : SpellsChoice strict { multiline } (Text.join ['|'] (Node.branchPatterns .backtracking .none
          (Node.placeEach (Node.branchPosition .root) (n :: rest)))) (Node.branchesLanguage (n :: rest)) False :=
        spells_branches (n :: rest) (Node.branchPosition_ne_root _) heach (List.cons_ne_nil n rest)
      exact spells_alternate_root hnode hchoice

end Nodes

/-! ### Whole trees -/

section Whole

variable {n : Node}

/-- The text of a tree, where it is a regular expression, denotes what the tree stands for; and where of two neighbours one
can match some text that is not empty, it is one, which nothing but its size keeps from being compiled. -/
theorem pattern_language (hcountable : n.Everywhere Node.Countable) (hregular : n.Everywhere Node.Regular)
    (hworthwhile : n.Everywhere Node.Worthwhile) :
    (∀ parsed, parse ((n.place .root).pattern .backtracking) = .ok parsed →
      parsed.expr.HasLanguage ∧ parsed.expr.language = n.language) ∧
    (n.Everywhere Node.Alternating → (∃ parsed, parse ((n.place .root).pattern .backtracking) = .ok parsed) ∧
      ∀ x, compile ((n.place .root).pattern .backtracking) = .error x → x = .tooDeep ∨ x = .tooLarge) := by
  have hparts := (hcountable.and n hregular).and n hworthwhile
  constructor
  · have hwritable : n.Everywhere (Node.Writable False) :=
      hparts.mono (fun _ h => ⟨h.1.1, h.1.2, h.2.present, False.elim, False.elim⟩) n
    obtain ⟨-, ts, hlex, hdenotes⟩ := @spells_root False false n hwritable
    exact (hdenotes.parse hlex.tokens_eq).1
  · intro halternating
    have hwritable : n.Everywhere (Node.Writable True) :=
      (hparts.and n halternating).mono (fun _ h => ⟨h.1.1.1, h.1.1.2, h.1.2.present, fun _ => h.1.2, fun _ => h.2⟩) n
    obtain ⟨-, ts, hlex, hdenotes⟩ := @spells_root True false n hwritable
    obtain ⟨hlanguage, hparsed⟩ := hdenotes.parse hlex.tokens_eq
    obtain ⟨parsed, hparsed⟩ := hparsed trivial
    exact ⟨⟨parsed, hparsed⟩, fun x hx => compile_error hparsed (hlanguage parsed hparsed).1.tame hx⟩

def numbered : Node :=
  .alternate .plain [.ofClass (.ofChars ['x', 'y'] false), .sequence .plain [.ofText ['n', 'o'],
    .verbatim ⟨true, .middle⟩ ⟨['\\', 'd', '+'], false, true, true, .pattern⟩]]

theorem isRegular_number : IsRegular ['\\', 'd', '+'] := by
  have hlex : Lexes ['\\', 'd', '+'] [.named .digit false, .plus] :=
    Lexes.append (f := ['\\', 'd']) (lexes_token fun _ _ => rfl) lexes_plus (opens_cons (by decide) _)
  refine { head := by decide, contained := ⟨_, hlex, rfl⟩, parses := ⟨_, rfl⟩, hasLanguage := ?_ }
  intro parsed hparsed
  obtain rfl := Except.ok.inj hparsed
  exact ⟨by decide, trivial⟩

theorem takes_number : Takes (sourceLanguage ['\\', 'd', '+']) :=
  ⟨['0'], ⟨1, le_refl 1, by simp, by rw [pow_one]; exact ⟨'0', by decide +kernel, rfl⟩⟩, by decide⟩

/-- Of that tree. -/
theorem pattern_language_numbered : (numbered.place .root).pattern .backtracking =
      ['[', 'x', 'y', ']', '|', 'n', 'o', '(', '?', ':', '\\', 'd', '+', ')', '?'] ∧
    ∃ parsed, parse ((numbered.place .root).pattern .backtracking) = .ok parsed ∧ parsed.expr.HasLanguage ∧
      parsed.expr.language = numbered.language := by
  have htakes : Takes (1 + sourceLanguage ['\\', 'd', '+']) := by
    obtain ⟨t, ht, hne⟩ := takes_number
    exact ⟨t, .inr ht, hne⟩
  have hcountable : numbered.Everywhere Node.Countable :=
    have hlen : 2 < boundLimit := by decide
    ⟨trivial, trivial, ⟨hlen, hlen, trivial, trivial⟩, trivial⟩
  have hregular : numbered.Everywhere Node.Regular :=
    ⟨trivial, trivial, ⟨trivial, trivial, ⟨isRegular_number, nofun⟩, trivial⟩, trivial⟩
  have hworthwhile : numbered.Everywhere Node.Worthwhile :=
    ⟨nofun, nofun, ⟨nofun, nofun, fun _ => htakes, trivial⟩, trivial⟩
  have halternating : numbered.Everywhere Node.Alternating :=
    ⟨trivial, trivial, ⟨List.isChain_pair.2 (.inr htakes), trivial, trivial, trivial⟩, trivial⟩
  obtain ⟨hlanguage, hparsed⟩ := pattern_language hcountable hregular hworthwhile
  obtain ⟨parsed, hparsed⟩ := (hparsed halternating).1
  exact ⟨by decide +kernel, parsed, hparsed, hlanguage parsed hparsed⟩

def emptyGroups : Node := .sequence .plain (.replicate 5 (.ofVerbatim ⟨['(', '?', ':', ')'], false, true, true, .pattern⟩))

/-- The letter `a` and the text of a repeat count. -/
def counted : Node := .sequence .plain [.ofText ['a'], .ofVerbatim ⟨['\x7b', '2', '\x7d'], false, true, true, .pattern⟩]

def countedHalves : Node := .sequence .plain [.ofVerbatim ⟨['a', '\x7b'], false, true, true, .pattern⟩,
  .ofVerbatim ⟨['2', '\x7d'], false, true, true, .pattern⟩]

theorem isRegular_emptyGroup : IsRegular ['(', '?', ':', ')'] := by
  have hlex : Lexes ['(', '?', ':', ')'] [.opening (.plain {}), .close] :=
    lexes_plainGroup.append lexes_close (opens_cons (by decide) _)
  refine { head := by decide, contained := ⟨_, hlex, rfl⟩, parses := ⟨_, rfl⟩, hasLanguage := ?_ }
  intro parsed hparsed
  obtain rfl := Except.ok.inj hparsed
  trivial

/-- A letter with a repeat count. -/
theorem mem_twice : ['a', 'a'] ∈ (Expr.rounds 2 (some 2) true (.char 'a' false)).language := by
  have hone : ['a'] ∈ (Expr.char 'a' false).language := ⟨'a', by decide, rfl⟩
  rw [Expr.language_exactly, pow_two]
  exact Language.append_mem_mul hone hone

/-- The text of a repeat count after a letter stands for itself. -/
theorem notMem_counted : ['a', 'a'] ∉ ({['a']} * (sourceLanguage ['\x7b', '2', '\x7d'] * 1) : Language Char) := by
  rintro ⟨_, rfl, _, ⟨_, ⟨_, ⟨c, hc, rfl⟩, _, _, rfl⟩, _, _, rfl⟩, heq⟩
  obtain ⟨rfl, -⟩ := List.cons.inj (List.cons.inj heq).2
  exact absurd hc (by decide)

theorem notMem_countedHalves :
    ['a', 'a'] ∉ (sourceLanguage ['a', '\x7b'] * (sourceLanguage ['2', '\x7d'] * 1) : Language Char) := by
  rintro ⟨_, ⟨_, ⟨_, _, rfl⟩, _, ⟨_, ⟨c, hc, rfl⟩, _, _, rfl⟩, rfl⟩, _, _, heq⟩
  obtain ⟨rfl, -⟩ := List.cons.inj (List.cons.inj heq).2
  exact absurd hc (by decide)

/-- Five empty groups are written with a count, which has nothing to repeat; and after a letter the text of a count does
not stand for itself, be it one pattern or two. -/
theorem pattern_language_fails :
    (emptyGroups.Everywhere Node.Countable ∧ emptyGroups.Everywhere Node.Regular ∧ emptyGroups.Everywhere Node.Worthwhile ∧
      (emptyGroups.place .root).pattern .backtracking = ['(', '?', ':', '(', '?', ':', ')', ')', '\x7b', '5', '\x7d'] ∧
      parse ((emptyGroups.place .root).pattern .backtracking) = .error .nothingToRepeat) ∧
    (∀ source ∈ [['\x7b', '2', '\x7d'], ['a', '\x7b'], ['2', '\x7d']],
      ∃ parsed, parse source = .ok parsed ∧ parsed.expr.HasLanguage) ∧
    ∀ n ∈ [counted, countedHalves],
      (∃ parsed, parse ((n.place .root).pattern .backtracking) = .ok parsed ∧ ['a', 'a'] ∈ parsed.expr.language) ∧
      ['a', 'a'] ∉ n.language := by
  refine ⟨⟨?_, ?_, ?_, by decide +kernel, by decide +kernel⟩, ?_, ?_⟩
  · exact ⟨(by decide : 5 < boundLimit), trivial, trivial, trivial, trivial, trivial, trivial⟩
  · have hgroup := And.intro isRegular_emptyGroup (nofun : false = true → IsAtom ['(', '?', ':', ')'])
    exact ⟨trivial, hgroup, hgroup, hgroup, hgroup, hgroup, trivial⟩
  · exact ⟨nofun, nofun, nofun, nofun, nofun, nofun, trivial⟩
  · simp only [List.forall_mem_cons, List.not_mem_nil, false_imp_iff, implies_true, and_true]
    exact ⟨⟨_, rfl, trivial, trivial, trivial, trivial⟩, ⟨_, rfl, trivial, trivial, trivial⟩, ⟨_, rfl, trivial, trivial, trivial⟩⟩
  · have hcounted : (counted.place .root).pattern .backtracking = ['a', '\x7b', '2', '\x7d'] := by decide +kernel
    have hhalves : (countedHalves.place .root).pattern .backtracking = ['a', '\x7b', '2', '\x7d'] := by decide +kernel
    simp only [List.forall_mem_cons, List.not_mem_nil, false_imp_iff, implies_true, and_true, hcounted, hhalves]
    exact ⟨⟨⟨_, rfl, mem_twice⟩, notMem_counted⟩, ⟨_, rfl, mem_twice⟩, notMem_countedHalves⟩

end Whole

end WordPattern
