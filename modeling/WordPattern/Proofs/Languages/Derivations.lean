import Mathlib.Algebra.BigOperators.Ring.List
import WordPattern.Proofs.Languages.Trees
import WordPattern.Proofs.Trees.Derivations

/-! The language of a tree, by the strings of letters that it derives.

A string of letters stands for the texts in which each character stands for itself and each pattern for one of its texts.
A tree stands for what its derivations stand for, so the tree of a list of words stands for what the words do. -/

namespace WordPattern

open Regex

/-! ### Letters -/

def Letter.language : Letter → Language Char
  | char c => {[c]}
  | special v => sourceLanguage v.pattern

/-- The texts that a string of letters stands for. -/
def lettersLanguage (x : List Letter) : Language Char := (x.map Letter.language).prod

def stringsLanguage (ds : List (List Letter)) : Language Char := (ds.map lettersLanguage).sum

theorem mem_sum {Ls : List (Language Char)} {t : Text} : t ∈ Ls.sum ↔ ∃ L ∈ Ls, t ∈ L := by
  induction Ls with
  | nil => simp [Language.notMem_zero]
  | cons L Ls ih => rw [List.sum_cons, Language.mem_add, ih, List.exists_mem_cons_iff]

theorem mem_stringsLanguage {ds : List (List Letter)} {t : Text} :
    t ∈ stringsLanguage ds ↔ ∃ x ∈ ds, t ∈ lettersLanguage x := by
  simp only [stringsLanguage, mem_sum, List.mem_map, exists_exists_and_eq_and]

theorem lettersLanguage_append (x y : List Letter) : lettersLanguage (x ++ y) = lettersLanguage x * lettersLanguage y := by
  rw [lettersLanguage, List.map_append, List.prod_append]
  rfl

theorem lettersLanguage_text (t : Text) : lettersLanguage (t.map .char) = {t} := by
  rw [lettersLanguage, List.map_map]
  exact prod_text t

theorem lettersLanguage_singleton (l : Letter) : lettersLanguage [l] = l.language := List.prod_singleton

theorem stringsLanguage_singleton (x : List Letter) : stringsLanguage [x] = lettersLanguage x := List.sum_singleton

theorem stringsLanguage_append (ds es : List (List Letter)) :
    stringsLanguage (ds ++ es) = stringsLanguage ds + stringsLanguage es := by
  rw [stringsLanguage, List.map_append, List.sum_append]
  rfl

/-- Strings after one and the same string. -/
theorem stringsLanguage_map_append (x : List Letter) (es : List (List Letter)) :
    stringsLanguage (es.map (x ++ ·)) = lettersLanguage x * stringsLanguage es := by
  have hmap : (es.map (x ++ ·)).map lettersLanguage = es.map fun y => lettersLanguage x * lettersLanguage y := by
    rw [List.map_map]
    exact List.map_congr_left fun y _ => lettersLanguage_append x y
  rw [stringsLanguage, hmap, List.sum_map_mul_left]
  rfl

theorem stringsLanguage_product (ds es : List (List Letter)) :
    stringsLanguage (ds.flatMap fun x => es.map (x ++ ·)) = stringsLanguage ds * stringsLanguage es := by
  induction ds with
  | nil => exact (zero_mul _).symm
  | cons x ds ih =>
    have hcons : stringsLanguage (x :: ds) = lettersLanguage x + stringsLanguage ds := rfl
    rw [List.flatMap_cons, stringsLanguage_append, ih, stringsLanguage_map_append, hcons, add_mul]

namespace Node

theorem stringsLanguage_perhaps (yes : Bool) (ds : List (List Letter)) :
    stringsLanguage (perhaps yes ds) = languageIf yes (stringsLanguage ds) := by
  cases yes with
  | false => rfl
  | true =>
    have hnil : stringsLanguage [[]] = 1 := stringsLanguage_singleton []
    rw [perhaps, if_pos rfl, stringsLanguage_append, hnil, add_comm]
    rfl

/-! ### Trees -/

theorem stringsLanguage_members (cls : CharClass) : stringsLanguage (cls.members.map fun c => [.char c]) = cls.language := by
  ext t
  simp only [mem_stringsLanguage, List.mem_map, exists_exists_and_eq_and, lettersLanguage_singleton, Letter.language,
    CharClass.language, mem_oneOf, decide_eq_true_eq]
  exact Iff.rfl

mutual

/-- A node stands for what its derivations stand for. -/
theorem language_eq : (n : Node) → n.language = stringsLanguage n.derivations
  | .leaf m t => by
    rw [language, derivations, stringsLanguage_perhaps, stringsLanguage_singleton, lettersLanguage_text]
  | .charClass m cls => by rw [language, derivations, stringsLanguage_perhaps, stringsLanguage_members]
  | .verbatim m v => by
    rw [language, derivations, stringsLanguage_perhaps, stringsLanguage_singleton, lettersLanguage_singleton]
    rfl
  | .sequence m children => by rw [language, derivations, stringsLanguage_perhaps, itemsLanguage_eq_strings children]
  | .alternate m children => by rw [language, derivations, stringsLanguage_perhaps, branchesLanguage_eq_strings children]

theorem itemsLanguage_eq_strings : (ns : List Node) → itemsLanguage ns = stringsLanguage (itemDerivations ns)
  | [] => (stringsLanguage_singleton []).symm
  | n :: rest => by
    rw [itemsLanguage, itemDerivations, stringsLanguage_product, language_eq n, itemsLanguage_eq_strings rest]

theorem branchesLanguage_eq_strings : (ns : List Node) → branchesLanguage ns = stringsLanguage (branchDerivations ns)
  | [] => rfl
  | n :: rest => by
    rw [branchesLanguage, branchDerivations, stringsLanguage_append, language_eq n, branchesLanguage_eq_strings rest]

end

/-- What the tree of a list of words stands for. -/
theorem mem_language_build {symbol : Char → Option Verbatim} {words : List Text} (hempty : words.count [] ≤ 1) {t : Text} :
    t ∈ (ofWords symbol false words).flatten.language ↔ ∃ w ∈ words, t ∈ lettersLanguage (spell symbol w) := by
  rw [language_eq, derivations_flatten, mem_stringsLanguage]
  simp only [spells_ofWords hempty _]
  grind

end Node

end WordPattern
