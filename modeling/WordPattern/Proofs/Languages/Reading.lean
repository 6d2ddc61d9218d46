import WordPattern.Proofs.Languages.Expressions
import WordPattern.Proofs.Reading.Fragments

/-! The languages that fragments are read as.

Reading follows the structure of languages: items that follow each other are a product, branches are a sum, and repeats
are powers. A fragment is solid if it can be repeated as a group, as whatever can match some text that is not empty. -/

namespace WordPattern.Regex

open ParseState

/-- With some flags in force, the tokens are read as one item that has the given language. -/
def DenotesOne (strict : Prop) (φ : Flags) (ts : List Token) (L : Language Char) (solid : Prop) : Prop :=
  ReadsOne strict φ ts fun e => e.HasLanguage ∧ e.language = L ∧ (solid → e.isRepeatable = true)

def DenotesMany (strict : Prop) (φ : Flags) (ts : List Token) (L : Language Char) (solid : Prop) : Prop :=
  ReadsMany strict φ ts fun es =>
    (∀ e ∈ es, e.HasLanguage) ∧ (es.map Expr.language).prod = L ∧ (solid → ∃ e ∈ es, e.isRepeatable = true)

def DenotesChoice (strict : Prop) (φ : Flags) (ts : List Token) (L : Language Char) (solid : Prop) : Prop :=
  ReadsChoice strict φ ts fun bs =>
    (∀ b ∈ bs, b.HasLanguage) ∧ (bs.map Expr.language).sum = L ∧ (solid → (Expr.choice bs).isRepeatable = true)

theorem takes_of_prod {Ls : List (Language Char)} (h : Takes Ls.prod) : ∃ L ∈ Ls, Takes L := by
  obtain ⟨t, ht, hne⟩ := h
  induction Ls generalizing t with
  | nil => exact absurd ht hne
  | cons L Ls ih =>
    obtain ⟨u, hu, v, hv, rfl⟩ := ht
    by_cases hnil : u = []
    · obtain ⟨M, hM, htakes⟩ := ih v hv (by simpa [hnil] using hne)
      exact ⟨M, List.mem_cons_of_mem _ hM, htakes⟩
    · exact ⟨L, List.mem_cons_self, u, hu, hnil⟩

namespace Expr

/-- Items of which one can be repeated can be repeated as a group. -/
theorem isRepeatable_of_mem {es : List Expr} {e : Expr} (he : e ∈ es) (h : e.isRepeatable = true) :
    (sequence es).isRepeatable = true := by
  match es with
  | [] => contradiction
  | [f] => rwa [← List.mem_singleton.1 he]
  | f :: g :: es => rfl

end Expr

section Reading

variable {strict solid solid' : Prop} {φ : Flags} {ts us : List Token} {L M : Language Char}

/-! ### Items -/

theorem denotesMany_nil : DenotesMany strict φ [] 1 False := readsMany_nil ⟨by simp, rfl, False.elim⟩

/-- What can match some text that is not empty is solid. -/
theorem DenotesMany.orTakes (h : DenotesMany strict φ ts L solid) : DenotesMany strict φ ts L (solid ∨ Takes L) := by
  refine ReadsMany.mono h ?_
  rintro es ⟨hlang, rfl, hsolid⟩
  refine ⟨hlang, rfl, fun hs => hs.elim hsolid fun htakes => ?_⟩
  obtain ⟨M, hM, htakes⟩ := takes_of_prod htakes
  obtain ⟨e, he, rfl⟩ := List.mem_map.1 hM
  exact ⟨e, he, Expr.isRepeatable_of_takes htakes⟩

theorem DenotesMany.weaken (h : DenotesMany strict φ ts L solid) (hs : solid' → solid) :
    DenotesMany strict φ ts L solid' :=
  ReadsMany.mono h fun _ ⟨hlang, hL, hsolid⟩ => ⟨hlang, hL, fun h => hsolid (hs h)⟩

theorem DenotesMany.append (h : DenotesMany strict φ ts L solid) (h' : DenotesMany strict φ us M solid') :
    DenotesMany strict φ (ts ++ us) (L * M) (solid ∨ solid') := by
  refine ReadsMany.append h h' ?_
  rintro es fs ⟨hlang, rfl, hsolid⟩ ⟨hlang', rfl, hsolid'⟩
  refine ⟨fun e he => (List.mem_append.1 he).elim (hlang e) (hlang' e), by rw [List.map_append, List.prod_append], ?_⟩
  rintro (hs | hs)
  · obtain ⟨e, he, hrepeat⟩ := hsolid hs
    exact ⟨e, List.mem_append_left _ he, hrepeat⟩
  · obtain ⟨e, he, hrepeat⟩ := hsolid' hs
    exact ⟨e, List.mem_append_right _ he, hrepeat⟩

theorem denotes_singleton {e : Expr} (h : e.HasLanguage) (hs : solid → e.isRepeatable = true) :
    (∀ x ∈ [e], x.HasLanguage) ∧ ([e].map Expr.language).prod = e.language ∧ (solid → ∃ x ∈ [e], x.isRepeatable = true) :=
  ⟨fun _ hx => List.mem_singleton.1 hx ▸ h, mul_one e.language, fun h => ⟨e, List.mem_cons_self, hs h⟩⟩

theorem DenotesOne.many (h : DenotesOne strict φ ts L solid) : DenotesMany strict φ ts L solid := by
  refine ReadsOne.many h ?_
  rintro e ⟨hlang, rfl, hsolid⟩
  by_cases he : e = .empty
  · subst he
    rw [itemOf_empty]
    exact ⟨by simp, rfl, fun hs => absurd (hsolid hs) (by decide)⟩
  · rw [itemOf_of_ne he]
    exact denotes_singleton hlang hsolid

theorem denotesOne_of_step {t : Token} {e : Expr} (h : ∀ s : ParseState, s.flags = φ → s.step t = .ok (s.push e))
    (he : e.HasLanguage) (hs : e.isRepeatable = true) : DenotesOne strict φ [t] e.language solid :=
  readsOne_of_step h ⟨he, rfl, fun _ => hs⟩

theorem DenotesOne.question (h : DenotesOne strict φ ts L solid) (hs : strict → solid) :
    DenotesMany strict φ (ts ++ [.question]) (1 + L) solid' := by
  refine ReadsOne.question h (fun hstrict e he => he.2.2 (hs hstrict)) ?_
  rintro e ⟨hlang, rfl, -⟩
  rw [← Expr.language_optional e true]
  exact denotes_singleton ⟨Nat.zero_le 1, hlang⟩ fun _ => rfl

theorem DenotesOne.count (h : DenotesOne strict φ ts L solid) (hs : strict → solid) (source : Text) (k : Nat) :
    DenotesMany strict φ (ts ++ [.count source k (some k)]) (L ^ k) solid' := by
  refine ReadsOne.count h source k (fun hstrict e he => he.2.2 (hs hstrict)) ?_
  rintro e ⟨hlang, rfl, -⟩
  rw [← Expr.language_exactly e k true]
  exact denotes_singleton ⟨le_refl k, hlang⟩ fun _ => rfl

/-- A single token that is read as items is read as one item. -/
theorem DenotesMany.one_of_token {t : Token} (h : DenotesMany strict φ [t] L solid) :
    DenotesOne strict φ [t] L solid := by
  refine ReadsMany.one_of_token h fun e he => ?_
  by_cases hempty : e = .empty
  · subst hempty
    rw [itemOf_empty] at he
    obtain ⟨-, rfl, hsolid⟩ := he
    exact ⟨trivial, rfl, fun hs => absurd (hsolid hs) (by simp)⟩
  · rw [itemOf_of_ne hempty] at he
    obtain ⟨hlang, rfl, hsolid⟩ := he
    exact ⟨hlang e List.mem_cons_self, (mul_one e.language).symm, fun hs => by simpa using hsolid hs⟩

/-- Tokens that are ever accepted have one language. -/
theorem DenotesMany.unique (h : DenotesMany strict φ ts L solid) (h' : DenotesMany strict φ ts M solid')
    (hts : ¬ Refused strict φ ts) : L = M := by
  obtain ⟨es, ⟨-, rfl, -⟩, ⟨-, rfl, -⟩⟩ := ReadsMany.exists_both h h' hts
  rfl

/-! ### Groups -/

theorem DenotesMany.choice (h : DenotesMany strict φ ts L solid) : DenotesChoice strict φ ts L solid := by
  refine ReadsMany.choice h ?_
  rintro es ⟨hlang, rfl, hsolid⟩
  refine ⟨?_, ?_, fun hs => ?_⟩
  · intro b hb
    rw [List.mem_singleton.1 hb]
    exact Expr.hasLanguage_sequence.2 hlang
  · rw [List.map_singleton, List.sum_singleton, Expr.language_sequence]
  · obtain ⟨e, he, hrepeat⟩ := hsolid hs
    exact Expr.isRepeatable_of_mem he hrepeat

theorem DenotesChoice.bar (h : DenotesChoice strict φ ts L solid) (h' : DenotesChoice strict φ us M solid') :
    DenotesChoice strict φ (ts ++ .bar :: us) (L + M) False := by
  refine ReadsChoice.bar h h' ?_
  rintro bs cs ⟨hlang, rfl, -⟩ ⟨hlang', rfl, -⟩
  refine ⟨fun b hb => (List.mem_append.1 hb).elim (hlang b) (hlang' b), ?_, False.elim⟩
  rw [List.map_append, List.sum_append]

theorem DenotesChoice.plainGroup {change : FlagChange} (h : DenotesChoice strict (φ.apply change) ts L solid) :
    DenotesOne strict φ (.opening (.plain change) :: ts ++ [.close]) L (solid ∨ Takes L) := by
  refine ReadsChoice.plainGroup h ?_
  rintro bs ⟨hlang, rfl, hsolid⟩
  rw [← Expr.language_choice]
  exact ⟨Expr.hasLanguage_choice hlang, rfl, fun hs => hs.elim hsolid Expr.isRepeatable_of_takes⟩

theorem DenotesChoice.namedGroup (h : DenotesChoice strict φ ts L solid) (name : Text) :
    DenotesOne strict φ (.opening (.named name) :: ts ++ [.close]) L True := by
  refine ReadsChoice.namedGroup h name ?_
  rintro group bs ⟨hlang, rfl, -⟩
  rw [← Expr.language_choice]
  exact ⟨Expr.hasLanguage_choice hlang, rfl, fun _ => rfl⟩

/-- An assertion that never holds. -/
theorem denotesOne_nothing (hs : ¬ solid) : DenotesOne strict φ [.opening (.look .ahead true), .close] 0 solid :=
  readsOne_nothing ⟨⟨rfl, rfl, rfl⟩, rfl, fun h => absurd h hs⟩

/-- A source has the language of its branches. -/
theorem DenotesChoice.parse (h : DenotesChoice strict {} ts L solid) {source : Text} (hts : tokens source = .ok ts) :
    (∀ parsed, parse source = .ok parsed → parsed.expr.HasLanguage ∧ parsed.expr.language = L) ∧
      (strict → ∃ parsed, Regex.parse source = .ok parsed) := by
  rcases parse_of_choice h hts with ⟨parsed, bs, hparsed, hexpr, hlang, rfl, -⟩ | ⟨hstrict, x, hx⟩
  · refine ⟨fun parsed' hparsed' => ?_, fun _ => ⟨parsed, hparsed⟩⟩
    obtain rfl := Except.ok.inj (hparsed.symm.trans hparsed')
    rw [hexpr, Expr.language_choice]
    exact ⟨Expr.hasLanguage_choice hlang, rfl⟩
  · refine ⟨fun parsed hparsed => ?_, fun hs => absurd hs hstrict⟩
    rw [hx] at hparsed
    contradiction

end Reading

end WordPattern.Regex
