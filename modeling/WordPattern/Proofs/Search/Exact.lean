import WordPattern.Proofs.Search.Longest

/-! Bound to both ends of the text, a pattern matches the items and no other text. -/

namespace WordPattern

open Regex

section Exact

variable {o : Options} {words : List Text}

/-- What has no line feed at its ends and is bound to both ends of a text is the whole text. -/
theorem occurs_text {w t : Text} {p q : Cursor} (hw : w ≠ []) (hends : w.head? ≠ some '\n' ∧ w.getLast? ≠ some '\n')
    (hp : p.text = t) (h : Occurs (.text .both) w p q) : w = t := by
  obtain ⟨c, hhead⟩ : ∃ c, w.head? = some c := ⟨_, List.head?_eq_some_head hw⟩
  obtain ⟨d, hlast⟩ : ∃ d, w.getLast? = some d := ⟨_, List.getLast?_eq_some_getLast hw⟩
  have hstart : p.before.isEmpty = true := by
    refine h.left .textStart rfl ?_
    rw [hhead] at hends ⊢
    simpa [Bound.admits] using hends.1
  have hend : q.after.isEmpty = true := by
    refine h.right .textEnd rfl ?_
    rw [hlast] at hends ⊢
    simpa [Bound.admits] using hends.2
  rw [← hp, Cursor.text, h.after, List.isEmpty_iff.1 hstart, List.isEmpty_iff.1 hend, List.append_nil]
  rfl

theorem occurs_self (w : Text) : Occurs (.text .both) w ⟨[], w⟩ ⟨w.reverse, []⟩ := by
  refine ⟨by simp, by simp, ?_, ?_⟩
  · rintro a h -
    obtain rfl := Option.some.inj h
    rfl
  · rintro a h -
    obtain rfl := Option.some.inj h
    rfl

/-- Such a pattern has a match in the items and in no other text. Of the limits only those on the compiled pattern are
left if there are enough placeholders. -/
theorem isMatch_iff_mem (ho : o.IsPlain) (hbound : o.bound = .text .both) (hstorable : ∀ w ∈ words, w.Storable) :
    ∃ g, Generator.ofOptions o = .ok g ∧
      ((∀ w ∈ g.settings.filter words, w.head? ≠ some '\n' ∧ w.getLast? ≠ some '\n') →
        (∃ table, SymbolTable.ofWords g.settings (g.settings.filter words) = .ok table) →
          (∀ e, g.regex words = .error e → e = .compile (.syntaxError .tooDeep) ∨ e = .compile (.syntaxError .tooLarge)) ∧
          ∀ r, g.regex words = .ok r → ∀ t, r.isMatch t = true ↔ t ∈ g.settings.filter words) := by
  obtain ⟨g, hg⟩ := ho.exists_generator
  have hitems := storable_filter ho hg hstorable
  refine ⟨g, hg, fun hends ⟨table, htable⟩ => ⟨fun e he => ?_, fun r hr t => ?_⟩⟩
  · obtain ⟨hlimit, hplaceholder⟩ := isLimit_of_regex ho hg hitems he
    refine hlimit.resolve_left fun h => ?_
    rw [hplaceholder h] at htable
    contradiction
  · have hfinds := findsLongest ho hg hitems hr t
    rw [hbound] at hfinds
    rw [Regex.isMatch, Option.isSome_iff_exists]
    constructor
    · rintro ⟨m, hm⟩
      obtain ⟨htext, w, hw, hocc⟩ := hfinds.occurs m hm
      have hne := (isPlain_settings ho hg).filter words w hw
      rwa [← occurs_text hne (hends w hw) htext hocc]
    · intro ht
      by_contra hnone
      have hnone : r.find? t = none := Option.eq_none_iff_forall_not_mem.2 fun m hm => hnone ⟨m, hm⟩
      exact hfinds.none.1 hnone t ht _ _ (by simp [Cursor.text]) (occurs_self t)

/-- Of `do` and `double` as whole texts. -/
theorem isMatch_do_double : ∃ g r, Generator.ofOptions { bound := .text .both } = .ok g ∧
    g.regex [['d', 'o'], ['d', 'o', 'u', 'b', 'l', 'e']] = .ok r ∧
      ∀ t, r.isMatch t = true ↔ t ∈ [['d', 'o'], ['d', 'o', 'u', 'b', 'l', 'e']] := by
  have hplain : Options.IsPlain { bound := .text .both } := ⟨fun _ h => by simp at h, trivial, rfl, rfl, rfl, rfl⟩
  obtain ⟨g, hg, hexact⟩ := isMatch_iff_mem hplain rfl
    (show ∀ w ∈ [['d', 'o'], ['d', 'o', 'u', 'b', 'l', 'e']], Text.Storable w by decide +kernel)
  obtain ⟨r, hr⟩ : ∃ r, g.regex [['d', 'o'], ['d', 'o', 'u', 'b', 'l', 'e']] = .ok r :=
    exists_regex hg (by decide +kernel)
  obtain rfl : Generator.mk .. = g := Except.ok.inj hg
  have hends : ∀ w ∈ [['d', 'o'], ['d', 'o', 'u', 'b', 'l', 'e']], w.head? ≠ some '\n' ∧ w.getLast? ≠ some '\n' := by
    decide
  exact ⟨_, r, hg, hr, (hexact hends ⟨_, rfl⟩).2 r hr⟩

end Exact

end WordPattern
