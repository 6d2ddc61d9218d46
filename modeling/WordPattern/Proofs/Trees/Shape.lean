import WordPattern.Proofs.Trees.Induction
import WordPattern.Proofs.Trees.Members
import WordPattern.Proofs.Trees.Places

/-! The tree of a list of words can be written.

It is spelled in the characters of the words, and where a left boundary can only begin a word it only begins the
pattern. No sequence is longer than some word. -/

namespace WordPattern

open Regex

section Spelling

variable {σ : Sense} {A : Char → Prop} {start : Bool} {symbol : Char → Option Verbatim} {ignoreCase : Bool}

def IsLeft (symbol : Char → Option Verbatim) (c : Char) : Prop := ∃ v, symbol c = some v ∧ v.role = .leftBoundary

/-- A left boundary stands nowhere but at the start of a word, and there only where it may. -/
def Leading (symbol : Char → Option Verbatim) (start : Bool) (words : List Text) : Prop :=
  ∀ w ∈ words, ∀ a c b, w = a ++ c :: b → IsLeft symbol c → a = [] ∧ start = true

/-- Characters that are no symbols are used for spelling. -/
def SpeltWith (A : Char → Prop) (symbol : Char → Option Verbatim) (words : List Text) : Prop :=
  ∀ w ∈ words, ∀ c ∈ w, symbol c = none → A c

def SpellsClasses (σ : Sense) (A : Char → Prop) (ignoreCase : Bool) : Prop :=
  ∀ cs : List Char, (∀ c ∈ cs, A c) → σ.Spelled A (.chars (CharClass.ofChars cs ignoreCase).members)

theorem Leading.of_subset {words vs : List Text} (h : Leading symbol start words) (hsub : ∀ w ∈ vs, w ∈ words) :
    Leading symbol start vs :=
  fun w hw => h w (hsub w hw)

theorem Leading.before {words before after : List Text} (h : Leading symbol start words)
    (hproduct : Factoring.IsProduct words before after) : Leading symbol start before := by
  obtain ⟨s, hs⟩ := List.exists_mem_of_ne_nil _ hproduct.after_ne
  rintro p hp a c b rfl hc
  exact h _ (hproduct.append_mem hp hs) a c (b ++ s) (by simp) hc

theorem Leading.after {words before after : List Text} (h : Leading symbol start words)
    (hproduct : Factoring.IsProduct words before after) (hp : ∃ p ∈ before, p ≠ []) : Leading symbol false after := by
  obtain ⟨p, hp, hne⟩ := hp
  rintro s hs a c b rfl hc
  obtain ⟨hnil, -⟩ := h _ (hproduct.append_mem hp hs) (p ++ a) c b (by simp) hc
  exact absurd (List.append_eq_nil_iff.1 hnil).1 hne

theorem SpeltWith.before {words before after : List Text} (h : SpeltWith A symbol words)
    (hproduct : Factoring.IsProduct words before after) : SpeltWith A symbol before := by
  obtain ⟨s, hs⟩ := List.exists_mem_of_ne_nil _ hproduct.after_ne
  exact fun p hp c hc => h _ (hproduct.append_mem hp hs) c (List.mem_append_left _ hc)

theorem SpeltWith.after {words before after : List Text} (h : SpeltWith A symbol words)
    (hproduct : Factoring.IsProduct words before after) : SpeltWith A symbol after := by
  obtain ⟨p, hp⟩ := List.exists_mem_of_ne_nil _ hproduct.before_ne
  exact fun s hs c hc => h _ (hproduct.append_mem hp hs) c (List.mem_append_right _ hc)

theorem proper_optionalIf {n : Node} (h : σ.Proper A start n) (yes : Bool) : σ.Proper A start (n.optionalIf yes) := by
  unfold Node.optionalIf
  split_ifs
  · cases n <;> exact h
  · exact h

theorem proper_ofSequence {ns : List Node} (h : σ.ProperItems A start ns) : σ.Proper A start (.ofSequence ns) := by
  unfold Node.ofSequence
  split
  · exact h.1
  · exact h

theorem proper_ofBranches {ns : List Node} (h : σ.ProperBranches A start ns) : σ.Proper A start (.ofBranches ns) := by
  unfold Node.ofBranches
  split
  · exact h.1
  · exact h

theorem properBranches_of_forall {ns : List Node} (h : ∀ n ∈ ns, σ.Proper A start n) : σ.ProperBranches A start ns := by
  induction ns with
  | nil => trivial
  | cons n rest ih => exact ⟨h n List.mem_cons_self, ih fun m hm => h m (List.mem_cons_of_mem _ hm)⟩

theorem proper_ofChar {c : Char} (hlit : symbol c = none → A c) (hleft : IsLeft symbol c → start = true) :
    σ.Proper A start (.ofChar symbol c) := by
  unfold Node.ofChar
  split
  · rename_i v hv
    exact fun hrole => hleft ⟨v, hv, hrole⟩
  · rename_i hnone
    exact fun d hd => List.mem_singleton.1 hd ▸ hlit hnone

theorem properItems_word {w : Text} (hw : Leading symbol start [w]) (hA : SpeltWith A symbol [w]) :
    σ.ProperItems A start (w.map (Node.ofChar symbol)) := by
  induction w generalizing start with
  | nil => trivial
  | cons c w ih =>
    have hmem : c :: w ∈ [c :: w] := List.mem_singleton_self _
    refine ⟨proper_ofChar (hA _ hmem c List.mem_cons_self) fun hc => (hw _ hmem [] c w rfl hc).2, ih ?_ ?_⟩
    · rintro v hv a d b rfl hd
      obtain ⟨hnil, -⟩ := hw _ hmem (c :: a) d b (by rw [← List.mem_singleton.1 hv]; rfl) hd
      exact absurd hnil (List.cons_ne_nil _ _)
    · intro v hv d hd
      rw [List.mem_singleton.1 hv] at hd
      exact hA _ hmem d (List.mem_cons_of_mem _ hd)

theorem proper_ofWords (hclass : SpellsClasses σ A ignoreCase) {words : List Text} (h : Listed words)
    (hleading : Leading symbol start words) (hA : SpeltWith A symbol words) :
    σ.Proper A start (.ofWords symbol ignoreCase words) := by
  refine Node.ofWords_induction (P := fun words n => ∀ start, Leading symbol start words → SpeltWith A symbol words →
    σ.Proper A start n) ?_ ?_ ?_ ?_ words h start hleading hA
  · exact fun w _ start hleading hA => proper_ofSequence (properItems_word hleading hA)
  · intro words parts rests k _ hproduct _ _ hparts _ hn hm start hleading hA
    have hne : ∃ p ∈ parts, p ≠ [] := by
      obtain ⟨p, hp⟩ := List.exists_mem_of_ne_nil _ hparts.ne_nil
      exact ⟨p, hp, hparts.nonempty p hp⟩
    have hrests := fun w (hw : w ∈ nonemptyWords rests) => (mem_nonemptyWords.1 hw).1
    refine proper_ofSequence ⟨hn start (hleading.before hproduct) (hA.before hproduct), proper_optionalIf ?_ _, trivial⟩
    exact hm false ((hleading.after hproduct hne).of_subset hrests) fun w hw => hA.after hproduct w (hrests w hw)
  · intro words rests parts k _ hproduct _ _ _ hlisted hn hm start hleading hA
    have hne : ∃ p ∈ rests, p ≠ [] := by
      obtain ⟨p, hp⟩ := List.exists_mem_of_ne_nil _ hlisted.ne_nil
      exact ⟨p, mem_nonemptyWords.1 hp⟩
    have hrests := fun w (hw : w ∈ nonemptyWords rests) => (mem_nonemptyWords.1 hw).1
    refine proper_ofSequence ⟨proper_optionalIf ?_ _, hm false (hleading.after hproduct hne) (hA.after hproduct), trivial⟩
    exact hn start ((hleading.before hproduct).of_subset hrests) fun w hw => hA.before hproduct w (hrests w hw)
  · intro words lone others _ hbranching hothers start hleading hA
    refine proper_ofBranches (properBranches_of_forall fun n hn => ?_)
    rcases Node.mem_branches.1 hn with ⟨-, rfl⟩ | ⟨g, hg, rfl⟩
    · exact hclass lone fun c hc => hA [c] (hbranching.of_lone hc) c (List.mem_singleton_self c) (hbranching.literal c hc)
    · have hsub := hbranching.of_group hg
      exact (hothers g hg).2 start (hleading.of_subset hsub) fun w hw => hA w (hsub w hw)

end Spelling

section Width

open Node

variable {known : Verbatim → Prop} {symbol : Char → Option Verbatim} {ignoreCase : Bool}

theorem inlined_ofSequence (ns : List Node) : (ofSequence ns).flatten.inlined = flattenInto ns := by
  unfold ofSequence
  split
  · rw [flattenInto, flattenInto, List.append_nil]
  · rfl

theorem shaped_of_inlined {n : Node} (hne : n.inlined ≠ []) (hlen : n.inlined.length < boundLimit)
    (h : ShapedEach known n.inlined) : n.Shaped known := by
  unfold inlined at hne hlen h
  split at h
  · exact ⟨hne, hlen, h⟩
  · exact h.1

theorem shapedEach_inlined {n : Node} (h : n.Shaped known) : ShapedEach known n.inlined ∧ n.inlined ≠ [] := by
  unfold inlined
  split
  · exact ⟨h.2.2, h.1⟩
  · exact ⟨⟨h, trivial⟩, List.cons_ne_nil _ _⟩

theorem shapedEach_append {ns ms : List Node} (h : ShapedEach known ns) (h' : ShapedEach known ms) :
    ShapedEach known (ns ++ ms) := by
  induction ns with
  | nil => exact h'
  | cons n rest ih => exact ⟨h.1, ih h.2⟩

theorem shaped_optionalIf {n : Node} (h : n.Shaped known) (yes : Bool) : (n.optionalIf yes).Shaped known := by
  unfold optionalIf
  split_ifs
  · cases n <;> exact h
  · exact h

theorem flatten_optionalIf (n : Node) (yes : Bool) : (n.optionalIf yes).flatten = n.flatten.optionalIf yes := by
  unfold optionalIf
  split_ifs
  · cases n <;> rfl
  · rfl

theorem length_inlined_optionalIf_le {n : Node} (h : n.inlined ≠ []) (yes : Bool) :
    (n.optionalIf yes).inlined.length ≤ n.inlined.length := by
  have hpos := List.length_pos_iff.2 h
  unfold optionalIf
  split_ifs
  · cases n <;> exact hpos
  · exact le_refl _

/-- A node is shaped when it is flattened, and no longer than some word. -/
structure Fits (known : Verbatim → Prop) (words : List Text) (n : Node) : Prop where
  shaped : n.flatten.Shaped known
  width : ∃ w ∈ words, n.flatten.inlined.length ≤ w.length

theorem boundLimit_pos : 1 < boundLimit := by decide

theorem shaped_ofChar (hknown : ∀ c v, symbol c = some v → known v) (c : Char) : (ofChar symbol c).Shaped known := by
  unfold ofChar
  split
  · rename_i v hv
    exact hknown c v hv
  · exact ⟨List.cons_ne_nil _ _, boundLimit_pos⟩

theorem flattenInto_word (w : Text) : flattenInto (w.map (ofChar symbol)) = w.map (ofChar symbol) := by
  induction w with
  | nil => rfl
  | cons c w ih =>
    have hchar : (ofChar symbol c).flatten.inlined = [ofChar symbol c] := by
      unfold ofChar
      split <;> rfl
    rw [List.map_cons, flattenInto, hchar, ih, List.singleton_append]

theorem flattenInto_pair (n m : Node) : flattenInto [n, m] = n.flatten.inlined ++ m.flatten.inlined := by
  rw [flattenInto, flattenInto, flattenInto, List.append_nil]

/-- Two nodes one after the other. -/
theorem fits_pair {words : List Text} {n m : Node} {v w : Text} (hn : n.flatten.Shaped known)
    (hm : m.flatten.Shaped known) (hv : n.flatten.inlined.length ≤ v.length) (hw : m.flatten.inlined.length ≤ w.length)
    (hmem : v ++ w ∈ words) (hlen : ∀ w ∈ words, w.length < boundLimit) : Fits known words (ofSequence [n, m]) := by
  obtain ⟨hn, hne⟩ := shapedEach_inlined hn
  obtain ⟨hm, -⟩ := shapedEach_inlined hm
  have hflat : (ofSequence [n, m]).flatten.inlined = n.flatten.inlined ++ m.flatten.inlined := by
    rw [inlined_ofSequence, flattenInto_pair]
  have hwidth : (ofSequence [n, m]).flatten.inlined.length ≤ (v ++ w).length := by
    rw [hflat, List.length_append, List.length_append]
    omega
  refine ⟨shaped_of_inlined ?_ (hwidth.trans_lt (hlen _ hmem)) ?_, _, hmem, hwidth⟩
  · rw [hflat]
    exact List.append_ne_nil_of_left_ne_nil hne _
  · rw [hflat]
    exact shapedEach_append hn hm

theorem shapedEach_flattenEach {ns : List Node} (h : ∀ n ∈ ns, n.flatten.Shaped known) :
    ShapedEach known (flattenEach ns) := by
  induction ns with
  | nil => trivial
  | cons n rest ih => exact ⟨h n List.mem_cons_self, ih fun m hm => h m (List.mem_cons_of_mem _ hm)⟩

/-- Alternatives. -/
theorem fits_ofBranches {words : List Text} {ns : List Node} (hwords : ∀ w ∈ words, w ≠ []) (hne : words ≠ [])
    (hns : ns ≠ []) (h : ∀ n ∈ ns, Fits known words n) : Fits known words (ofBranches ns) := by
  unfold ofBranches
  split
  · exact h _ List.mem_cons_self
  · obtain ⟨w, hw⟩ := List.exists_mem_of_ne_nil _ hne
    refine ⟨⟨by decide, ?_, shapedEach_flattenEach fun n hn => (h n hn).shaped⟩, w, hw, ?_⟩
    · cases ns with
      | nil => contradiction
      | cons n rest => exact List.cons_ne_nil _ _
    · exact List.length_pos_iff.2 (hwords w hw)

theorem fits_ofWords (hknown : ∀ c v, symbol c = some v → known v) {words : List Text} (h : Listed words)
    (hlen : ∀ w ∈ words, w.length < boundLimit) : Fits known words (ofWords symbol ignoreCase words) := by
  refine ofWords_induction (P := fun words n => (∀ w ∈ words, w.length < boundLimit) → Fits known words n)
    ?_ ?_ ?_ ?_ words h hlen
  · intro w hne hlen
    have hmem := List.mem_singleton_self w
    have hflat : (ofSequence (w.map (ofChar symbol))).flatten.inlined = w.map (ofChar symbol) := by
      rw [inlined_ofSequence, flattenInto_word]
    refine ⟨shaped_of_inlined ?_ ?_ ?_, w, hmem, ?_⟩
    · simpa [hflat] using hne
    · simpa [hflat] using hlen w hmem
    · rw [hflat]
      clear hflat hlen hmem hne
      induction w with
      | nil => trivial
      | cons c w ih => exact ⟨shaped_ofChar hknown c, ih⟩
    · simp [hflat]
  · intro words parts rests k _ hproduct _ _ hparts hlisted hn hm hlen
    obtain ⟨p, hp⟩ := List.exists_mem_of_ne_nil _ hparts.ne_nil
    obtain ⟨s, hs⟩ := List.exists_mem_of_ne_nil _ hlisted.ne_nil
    obtain ⟨hlenp, hlens⟩ := hproduct.length_lt hlen
    obtain ⟨hshaped, v, hv, hwidth⟩ := hn hlenp
    obtain ⟨hshaped', w, hw, hwidth'⟩ := hm fun r hr => hlens r (mem_nonemptyWords.1 hr).1
    have hmem := hproduct.append_mem hv (mem_nonemptyWords.1 hw).1
    refine fits_pair hshaped ?_ hwidth ?_ hmem hlen
    · rw [flatten_optionalIf]
      exact shaped_optionalIf hshaped' _
    · rw [flatten_optionalIf]
      exact (length_inlined_optionalIf_le (shapedEach_inlined hshaped').2 _).trans hwidth'
  · intro words rests parts k _ hproduct _ _ _ _ hn hm hlen
    obtain ⟨hlenr, hlenp⟩ := hproduct.length_lt hlen
    obtain ⟨hshaped, v, hv, hwidth⟩ := hn fun r hr => hlenr r (mem_nonemptyWords.1 hr).1
    obtain ⟨hshaped', w, hw, hwidth'⟩ := hm hlenp
    have hmem := hproduct.append_mem (mem_nonemptyWords.1 hv).1 hw
    refine fits_pair ?_ hshaped' ?_ hwidth' hmem hlen
    · rw [flatten_optionalIf]
      exact shaped_optionalIf hshaped _
    · rw [flatten_optionalIf]
      exact (length_inlined_optionalIf_le (shapedEach_inlined hshaped).2 _).trans hwidth
  · intro words lone others hlisted hbranching hothers hlen
    refine fits_ofBranches hlisted.nonempty hlisted.ne_nil (branches_ne_nil hbranching hlisted.ne_nil _) fun n hn => ?_
    rcases mem_branches.1 hn with ⟨hlone, rfl⟩ | ⟨g, hg, rfl⟩
    · obtain ⟨c, hc⟩ := List.exists_mem_of_ne_nil _ hlone
      have hmember : c ∈ (CharClass.ofChars lone ignoreCase).members := CharClass.mem_members_ofChars.2 (.inl hc)
      exact ⟨List.ne_nil_of_mem hmember, [c], hbranching.of_lone hc, le_refl _⟩
    · have hsub := hbranching.of_group hg
      obtain ⟨hshaped, w, hw, hwidth⟩ := (hothers g hg).2 fun w hw => hlen w (hsub w hw)
      exact ⟨hshaped, w, hsub w hw, hwidth⟩

end Width

end WordPattern
