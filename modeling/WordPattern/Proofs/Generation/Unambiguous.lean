import WordPattern.Generator
import WordPattern.Proofs.Generation.Table
import WordPattern.Proofs.Trees.Derivations

/-! The tree over a symbol table derives what the words stand for, and from words in order without specials each word in
one way. -/

namespace WordPattern

section Table

variable {settings : Settings} {items words : List Text} {table : SymbolTable}

def Rule.verbatim (rule : Rule) : Verbatim := ⟨rule.pattern, rule.atomic, rule.left, rule.right, .pattern⟩

/-- Boundaries are told apart from specials and from each other. -/
theorem SymbolTable.Holds.nodup_verbatims (h : table.Holds settings items)
    (hrules : (settings.rules.map Rule.verbatim).Nodup) : (table.symbols.map (·.verbatim)).Nodup := by
  have hentries : (table.entries.map (·.verbatim)).Nodup := by
    rw [h.entries]
    exact (((sortBy_perm _ settings.rules).map Rule.verbatim).nodup_iff).2 hrules
  have hrole : ∀ s ∈ table.entries, s.verbatim.role = .pattern := fun s hs => by
    obtain ⟨rule, -, hrule⟩ := h.entry_verbatim hs
    rw [hrule]
  have hleft : ∀ s, table.left = some s → s.verbatim.role = .leftBoundary := fun s hs => by
    obtain ⟨pattern, -, hpattern⟩ := h.left_verbatim hs
    rw [hpattern]
  have hright : ∀ s, table.right = some s → s.verbatim.role ≠ .pattern ∧ s.verbatim.role ≠ .leftBoundary :=
    fun s hs => by
      obtain ⟨pattern, -, hpattern⟩ := h.right_verbatim hs
      rw [hpattern]
      simp only
      split_ifs <;> simp
  have hoption : ∀ x : Option Symbol, (x.toList.map (·.verbatim)).Nodup := fun x => by cases x <;> simp
  rw [SymbolTable.symbols, List.map_append, List.map_append]
  refine List.Nodup.append (hentries.append (hoption _) ?_) (hoption _) ?_
  · intro v hv hv'
    obtain ⟨s, hs, rfl⟩ := List.mem_map.1 hv
    obtain ⟨t, ht, heq⟩ := List.mem_map.1 hv'
    have := hleft t (Option.mem_toList.1 ht)
    rw [heq, hrole s hs] at this
    contradiction
  · intro v hv hv'
    obtain ⟨t, ht, rfl⟩ := List.mem_map.1 hv'
    have hright := hright t (Option.mem_toList.1 ht)
    rcases List.mem_append.1 hv with hv | hv
    · obtain ⟨s, hs, heq⟩ := List.mem_map.1 hv
      exact hright.1 (heq ▸ hrole s hs)
    · obtain ⟨s, hs, heq⟩ := List.mem_map.1 hv
      exact hright.2 (heq ▸ hleft s (Option.mem_toList.1 hs))

theorem SymbolTable.Holds.eq_of_meaning (h : table.Holds settings items)
    (hrules : (settings.rules.map Rule.verbatim).Nodup) (c d : Char) (v : Verbatim) (hc : table.meaning c = some v)
    (hd : table.meaning d = some v) : c = d := by
  obtain ⟨s, hs, rfl, rfl⟩ := h.meaning_eq_some.1 hc
  obtain ⟨t, ht, rfl, hverbatim⟩ := h.meaning_eq_some.1 hd
  rw [List.inj_on_of_nodup_map (h.nodup_verbatims hrules) ht hs hverbatim]

theorem SymbolTable.Holds.injective_letter (h : table.Holds settings items)
    (hrules : (settings.rules.map Rule.verbatim).Nodup) : Function.Injective (Letter.ofChar table.meaning) :=
  Letter.injective_ofChar (h.eq_of_meaning hrules)

/-- Where case counts, the tree of words with at most one empty one derives what the words stand for and nothing else. Of
words in order each has one derivation if no two specials are written alike, as when there are none. -/
theorem derivations_tree (h : SymbolTable.ofWords settings items = .ok table) (hcase : settings.ignoreCase = false)
    (hempty : words.count [] ≤ 1) :
    (∀ x, x ∈ (table.tree settings words).derivations ↔ ∃ w ∈ words, x = spell table.meaning w) ∧
      ((settings.rules.map Rule.verbatim).Nodup → words.Pairwise (· < ·) → [] ∉ words →
        ∀ w ∈ words, (table.tree settings words).derivations.count (spell table.meaning w) = 1) := by
  have hderivations : (table.tree settings words).derivations =
      (Node.ofWords table.meaning false words).derivations := by
    rw [SymbolTable.tree, hcase]
    exact Node.derivations_build table.meaning false words
  have hspells : Node.Spells table.meaning words (Node.ofWords table.meaning false words) := Node.spells_ofWords hempty
  rw [hderivations]
  refine ⟨hspells, fun hrules hordered hnil w hw => ?_⟩
  have hlisted : Listed words := ⟨List.ne_nil_of_mem hw, hordered, fun v hv hempty => hnil (hempty ▸ hv)⟩
  have hinj := (SymbolTable.holds_of_ofWords h).injective_letter hrules
  exact List.count_eq_one_of_mem (Node.nodup_derivations_ofWords hinj hlisted) ((hspells _).2 ⟨w, hw, rfl⟩)

/-- Of `do` and `double` between the boundaries of words, `v` and `w` being the placeholders. -/
theorem derivations_tree_do_double : ∃ settings table, Settings.ofOptions { bound := .word .both } = .ok settings ∧
    SymbolTable.ofWords settings ["do".toList, "double".toList] = .ok table ∧
      (∀ x, x ∈ (table.tree settings ["vdoublew".toList, "vdow".toList]).derivations ↔
        ∃ w ∈ ["vdoublew".toList, "vdow".toList], x = spell table.meaning w) ∧
      ∀ w ∈ ["vdoublew".toList, "vdow".toList],
        (table.tree settings ["vdoublew".toList, "vdow".toList]).derivations.count (spell table.meaning w) = 1 := by
  refine ⟨_, _, rfl, rfl, ?_⟩
  refine And.imp_right ?_ (@derivations_tree _ ["do".toList, "double".toList] _ _ ?_ ?_ ?_)
  · exact fun hcount => hcount .nil (by decide) (by decide)
  · rfl
  · rfl
  · decide

end Table

end WordPattern
