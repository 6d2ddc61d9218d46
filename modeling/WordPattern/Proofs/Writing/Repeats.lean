import WordPattern.Proofs.Reading.Groups
import WordPattern.Proofs.Writing.Abbreviation
import WordPattern.Proofs.Writing.Closing

/-! Repeats can be written with counts.

The texts of a sequence stand for stretches of its nodes. Writing a run of equal blocks once with a count keeps this up:
where the texts are equal so is what they match, and a block may be closed if the nodes that it stands for may. -/

namespace WordPattern

open Regex

/-- A text is written for something that is matched before `F`. -/
structure Written (σ : Sense) (mode : Mode) (strict : Prop) (φ : Flags) (F : NextChars) (t : Text) (f : Reach) : Prop where
  opens : Opens t
  nonempty : strict → t ≠ []
  reads : ∃ ts g, Lexes t ts ∧ ReadsItems strict φ ts g ∧ σ.Agrees mode F f g

/-- Texts are written for stretches of nodes before `F`. -/
inductive Segments (σ : Sense) (mode : Mode) (strict : Prop) (φ : Flags) (F : NextChars) : List Text → List Node → Prop
  | nil : Segments σ mode strict φ F [] []
  | cons {t : Text} {ts : List Text} {ns rest : List Node} :
    ns ≠ [] → Written σ mode strict φ (Node.follow rest F) t (σ.items ns) → Segments σ mode strict φ F ts rest →
    Segments σ mode strict φ F (t :: ts) (ns ++ rest)

variable {σ : Sense} {A : Char → Prop} {mode : Mode} {strict : Prop} {φ : Flags} {F : NextChars} {start : Bool}

theorem follow_append (ns ms : List Node) (F : NextChars) :
    Node.follow (ns ++ ms) F = Node.follow ns (Node.follow ms F) := by
  induction ns with
  | nil => rfl
  | cons n ns ih => rw [List.cons_append, Node.follow, ih, Node.follow]

theorem itemsDecided_append (ns ms : List Node) (F : NextChars) :
    Node.itemsDecided F (ns ++ ms) = (Node.itemsDecided (Node.follow ms F) ns && Node.itemsDecided F ms) := by
  induction ns with
  | nil => rfl
  | cons n ns ih => simp only [List.cons_append, Node.itemsDecided, ih, follow_append, Bool.and_assoc]

theorem properItems_append {ns ms : List Node} (hne : ns ≠ []) :
    σ.ProperItems A start (ns ++ ms) ↔ σ.ProperItems A start ns ∧ σ.ProperItems A false ms := by
  induction ns generalizing start with
  | nil => contradiction
  | cons n ns ih =>
    rw [List.cons_append, Sense.ProperItems, Sense.ProperItems, and_assoc]
    refine and_congr_right fun _ => ?_
    cases ns with
    | nil => simp [Sense.ProperItems]
    | cons m ns => exact ih (by simp)

theorem properItems_left {ns ms : List Node} (h : σ.ProperItems A start (ns ++ ms)) : σ.ProperItems A start ns := by
  by_cases hne : ns = []
  · rw [hne]
    trivial
  · exact ((properItems_append hne).1 h).1

theorem properItems_right {ns ms : List Node} (h : σ.ProperItems A start (ns ++ ms)) :
    ∃ start', σ.ProperItems A start' ms := by
  by_cases hne : ns = []
  · rw [hne] at h
    exact ⟨start, h⟩
  · exact ⟨false, ((properItems_append hne).1 h).2⟩

namespace Segments

theorem append {fs gs : List Text} {ns ms : List Node} (h : Segments σ mode strict φ (Node.follow ms F) fs ns)
    (h' : Segments σ mode strict φ F gs ms) : Segments σ mode strict φ F (fs ++ gs) (ns ++ ms) := by
  induction h with
  | nil => exact h'
  | cons hne hw _ ih =>
    rw [List.cons_append, List.append_assoc]
    rw [← follow_append] at hw
    exact .cons hne hw ih

theorem split {fs gs : List Text} {ns : List Node} (h : Segments σ mode strict φ F (fs ++ gs) ns) :
    ∃ ns₁ ns₂, ns = ns₁ ++ ns₂ ∧ Segments σ mode strict φ (Node.follow ns₂ F) fs ns₁ ∧
      Segments σ mode strict φ F gs ns₂ := by
  induction fs generalizing ns with
  | nil => exact ⟨[], ns, rfl, .nil, h⟩
  | cons f fs ih =>
    cases h with
    | @cons _ _ ns rest hne hw hrest =>
      obtain ⟨ns₁, ns₂, rfl, h₁, h₂⟩ := ih hrest
      rw [follow_append] at hw
      exact ⟨ns ++ ns₁, ns₂, (List.append_assoc ..).symm, .cons hne hw h₁, h₂⟩

theorem nodes_ne_nil {fs : List Text} {ns : List Node} (h : Segments σ mode strict φ F fs ns) (hne : fs ≠ []) : ns ≠ [] := by
  cases h with
  | nil => contradiction
  | cons hns _ _ => simp [hns]

/-- All texts together are written for all nodes. -/
theorem written (hσ : mode = .possessive → σ.Lawful A) {fs : List Text} {ns : List Node} (h : Segments σ mode strict φ F fs ns)
    (hne : fs ≠ []) (hn : σ.ProperItems A start ns) : Written σ mode strict φ F fs.flatten (σ.items ns) := by
  induction h generalizing start with
  | nil => contradiction
  | @cons t ts ns rest hns hw hrest ih =>
    obtain ⟨hn₁, hn₂⟩ := (properItems_append hns).1 hn
    cases ts with
    | nil =>
      cases hrest
      simpa [Node.follow] using hw
    | cons t' ts =>
      obtain ⟨hopens', -, us, g', hlex', hreads', hagrees'⟩ := ih (by simp) hn₂
      obtain ⟨hopens, hnonempty, ts, g, hlex, hreads, hagrees⟩ := hw
      refine ⟨hopens.append hopens', fun hs => by simp [hnonempty hs], ts ++ us, g.andThen g', hlex.append hlex' hopens',
        hreads.append hreads', ?_⟩
      rw [Sense.items_append]
      exact hagrees.andThen hagrees' fun κ hm hκ => Sense.safe_items (hσ hm) hn₂ hκ

end Segments

/-! ### Blocks with a count -/

section Quantified

variable {block : List Text} {ts : List Token} {g : Reach} {ns : List Node}

/-- Every stretch of nodes that a block stands for is matched as its text is read. -/
theorem agrees_block (hσ : mode = .possessive → σ.Lawful A) (h : Segments σ mode strict φ F block ns) (hne : block ≠ [])
    (hn : σ.ProperItems A start ns) (hlex : Lexes block.flatten ts) (hreads : ReadsItems strict φ ts g)
    (hts : ¬ Refused strict φ ts) : σ.Agrees mode F (σ.items ns) g := by
  obtain ⟨-, -, us, g', hlex', hreads', hagrees⟩ := h.written hσ hne hn
  obtain rfl := hlex.unique hlex'
  rwa [hreads.unique hreads' hts]

/-- A run of equal blocks, each of them kept as it is written. -/
theorem agrees_run (hσ : mode = .possessive → σ.Lawful A) (closed : Bool) (hne : block ≠ []) (hlex : Lexes block.flatten ts)
    (hreads : ReadsItems strict φ ts g) (hts : ¬ Refused strict φ ts) (hF : σ.Spelled A F) {count : Nat}
    (h : Segments σ mode strict φ F (List.replicate count block).flatten ns) (hn : σ.ProperItems A start ns)
    (hclosed : mode = .possessive → closed = true → Node.itemsDecided F ns = true) :
    σ.Agrees mode F (σ.items ns) (Rounds.times (g.kept mode closed) count) := by
  induction count generalizing ns start with
  | zero =>
    cases h
    exact .refl _
  | succ count ih =>
    rw [List.replicate_succ, List.flatten_cons] at h
    obtain ⟨ns₁, ns₂, rfl, h₁, h₂⟩ := h.split
    obtain ⟨hn₁, hn₂⟩ := (properItems_append (h₁.nodes_ne_nil hne)).1 hn
    have hfirst := agrees_block hσ h₁ hne hn₁ hlex hreads hts
    have hrest := ih h₂ hn₂ fun hm hc => by
      have := hclosed hm hc
      rw [itemsDecided_append, Bool.and_eq_true] at this
      exact this.2
    have hkept : σ.Agrees mode (Node.follow ns₂ F) (σ.items ns₁) (g.kept mode closed) := by
      unfold Reach.kept
      split_ifs with hc
      · refine Sense.agrees_preferred hfirst.head_eq fun κ hκ => ?_
        have hd := hclosed hc.1 hc.2
        rw [itemsDecided_append, Bool.and_eq_true] at hd
        exact Sense.commits_items (hσ hc.1) ns₁ hn₁ (hκ hc.1) (Sense.spelled_follow ns₂ hn₂ hF) hd.1
      · exact hfirst
    rw [Sense.items_append]
    exact hkept.andThen hrest fun κ hm hκ => Sense.safe_items (hσ hm) hn₂ hκ

/-- A run of equal blocks is written once with a count. -/
theorem written_quantified (hσ : mode = .possessive → σ.Lawful A) {closed : Bool} (hne : block ≠ []) {count : Nat} (hpos : 0 < count)
    (hcount : count < boundLimit) (hF : σ.Spelled A F)
    (h : Segments σ mode strict φ F (List.replicate count block).flatten ns) (hn : σ.ProperItems A start ns)
    (hclosed : mode = .possessive → closed = true → Node.itemsDecided F ns = true) :
    Written σ mode strict φ F (quantified mode closed block count) (σ.items ns) := by
  obtain ⟨count, rfl⟩ := Nat.exists_eq_succ_of_ne_zero (Nat.pos_iff_ne_zero.1 hpos)
  have hfirst := h
  rw [Nat.succ_eq_add_one, List.replicate_succ, List.flatten_cons] at hfirst
  obtain ⟨ns₁, ns₂, rfl, h₁, -⟩ := hfirst.split
  obtain ⟨hopens, hnonempty, ts, g, hlex, hreads, -⟩ :=
    h₁.written hσ hne ((properItems_append (h₁.nodes_ne_nil hne)).1 hn).1
  have hrun := fun hts closed => agrees_run hσ closed hne hlex hreads hts hF h hn
  refine ⟨opens_quantified hopens hcount closed, fun _ => by simp [quantified_eq, countText], ?_⟩
  by_cases hts : Refused strict φ ts
  · obtain ⟨us, hlex', hus⟩ := refused_quantified mode closed hlex hopens hts hcount
    exact ⟨us, _, hlex', hus.items _, .refl _⟩
  · rw [quantified_eq]
    split_ifs with hatomic
    · obtain ⟨t, rfl⟩ := tokens_of_isAtomicText hatomic hlex.tokens_eq
      refine ⟨_, _, hlex.append (lexes_count hcount) (opens_count hcount), hreads.item_of_token.count _ _, ?_⟩
      have := hrun hts false fun _ h => absurd h (by decide)
      rwa [Reach.kept_false] at this
    · have hbranches := hreads.branches fun hs => hlex.ne_nil (hnonempty hs)
      exact ⟨_, _, (lexes_group hlex hopens mode closed).append (lexes_count hcount) (opens_count hcount),
        (hbranches.closable mode closed).count _ _, hrun hts closed hclosed⟩

end Quantified

/-! ### Rounds of abbreviation -/

section Abbreviation

variable {closed : Bool} {fragments : List Text} {ns : List Node}

theorem segments_abbreviated (hσ : mode = .possessive → σ.Lawful A) (hF : σ.Spelled A F) (h : Segments σ mode strict φ F fragments ns)
    (hn : σ.ProperItems A start ns) (hclosed : mode = .possessive → closed = true → Node.itemsDecided F ns = true)
    (hlen : fragments.length < boundLimit) : Segments σ mode strict φ F (abbreviated mode closed fragments) ns := by
  refine abbreviated_induction (P := (Segments σ mode strict φ F · ns)) h fun before block n after hblock hcount hle hseg => ?_
  obtain ⟨ns₁, ns₂, rfl, h₁, h₂⟩ := hseg.split
  obtain ⟨ns₂, ns₃, rfl, h₂, h₃⟩ := h₂.split
  simp only [itemsDecided_append, Bool.and_eq_true] at hclosed
  obtain ⟨start', hn'⟩ := properItems_right hn
  obtain ⟨start'', hn''⟩ := properItems_right hn'
  have hrun : (List.replicate n block).flatten ≠ [] := by
    simpa [Nat.pos_iff_ne_zero.1 (Nat.lt_of_lt_of_le Nat.zero_lt_two hcount)] using hblock
  refine h₁.append (.cons (h₂.nodes_ne_nil hrun) ?_ h₃)
  exact written_quantified hσ hblock (by omega) (by omega) (Sense.spelled_follow ns₃ hn'' hF) h₂ (properItems_left hn')
    fun hm hc => (hclosed hm hc).2.1

/-- A sequence written with counts is written for the same nodes. -/
theorem written_abbreviate (hσ : mode = .possessive → σ.Lawful A) (hF : σ.Spelled A F) (h : Segments σ mode strict φ F fragments ns)
    (hne : fragments ≠ []) (hn : σ.ProperItems A start ns)
    (hclosed : mode = .possessive → closed = true → Node.itemsDecided F ns = true)
    (hlen : fragments.length < boundLimit) :
    Written σ mode strict φ F (abbreviate mode closed fragments) (σ.items ns) := by
  have hshort := segments_abbreviated hσ hF h hn hclosed hlen
  refine hshort.written hσ (fun hnil => ?_) hn
  rw [hnil] at hshort
  cases hshort
  exact h.nodes_ne_nil hne rfl

end Abbreviation

end WordPattern
