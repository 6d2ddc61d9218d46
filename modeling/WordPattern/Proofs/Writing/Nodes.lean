import WordPattern.Node.Pattern
import WordPattern.Proofs.Writing.Repeats

/-! The text of a tree is read as what the tree matches.

In possessive writing the text prunes the ways to match, but never one that could matter before what may follow; so the
preferred match of the whole is that of the tree in both ways of writing. -/

namespace WordPattern

open Regex

variable {σ : Sense} {A : Char → Prop} {mode : Mode} {strict : Prop} {φ : Flags} {F : NextChars} {start : Bool}

/-! ### Marks -/

section Marks

variable {t : Text} {ts : List Token} {f g h : Reach}

theorem Written.of_item (hlex : Lexes t ts) (ho : Opens t) (hne : strict → t ≠ []) (hreads : ReadsItem strict φ ts f) :
    Written σ mode strict φ F t f :=
  ⟨ho, hne, ts, f, hlex, hreads.items, .refl f⟩

/-- What is optional, and closed where the next character decides. -/
theorem written_optional {closed : Bool} (hlex : Lexes t ts) (ho : Opens t) (hreads : ReadsItem strict φ ts h)
    (hhead : ∀ p, (h p).head? = (f p).head?) (hopen : ¬ (mode = .possessive ∧ closed = true) → σ.Agrees mode F f h)
    (hclosed : mode = .possessive → closed = true → ∀ κ, σ.Safe F κ → Onward.Commits κ f.optional) :
    Written σ mode strict φ F (t ++ mode.optionalMark closed) f.optional := by
  have hmark : mode.optionalMark closed ≠ [] := by
    unfold Mode.optionalMark
    split_ifs <;> simp
  refine ⟨ho.append ?_, fun _ => by simp [hmark], ?_⟩
  · unfold Mode.optionalMark
    split_ifs <;> exact opens_cons (by decide) _
  · unfold Mode.optionalMark
    split_ifs with hc
    · have hmarks := lexes_question.append lexes_plus (opens_cons (by decide) _)
      refine ⟨_, _, hlex.append hmarks (opens_cons (by decide) _), hreads.possessiveQuestion, ?_⟩
      refine Sense.agrees_preferred (fun p => ?_) fun κ hκ => hclosed hc.1 hc.2 κ (hκ hc.1)
      simp only [Reach.optional, List.head?_append, hhead]
    · exact ⟨_, _, hlex.append lexes_question (opens_cons (by decide) _), hreads.question, (hopen hc).optional⟩

theorem head_kept (closed : Bool) (p : Cursor) : (f.kept mode closed p).head? = (f p).head? := by
  unfold Reach.kept
  split_ifs
  · exact Sense.head_preferred f p
  · rfl

end Marks

/-- A text that is read as one item is written for something that is matched before `F`. -/
def WrittenItem (σ : Sense) (mode : Mode) (strict : Prop) (φ : Flags) (F : NextChars) (t : Text) (f : Reach) : Prop :=
  ∃ ts h, Lexes t ts ∧ ReadsItem strict φ ts h ∧ σ.Agrees mode F f h

/-- A text with the mark of its node. -/
theorem written_finish {n : Node} {closed : Bool} {t : Text} {f : Reach} (hw : Written σ mode strict φ F t f)
    (hitem : n.isAtomic = true → t ≠ [] → WrittenItem σ mode strict φ F t f)
    (hclosed : mode = .possessive → closed = true → ∀ κ, σ.Safe F κ → Onward.Commits κ (f.optionalIf n.mark.optional)) :
    Written σ mode strict φ F (n.finish mode closed t) (f.optionalIf n.mark.optional) := by
  unfold Node.finish
  cases hm : n.mark.optional with
  | false => exact hw
  | true =>
    rw [hm] at hclosed
    rw [if_pos rfl]
    split_ifs with hatomic
    · simp only [Bool.and_eq_true, Bool.not_eq_true', List.isEmpty_eq_false_iff] at hatomic
      obtain ⟨ts, h, hlex, hreads, hagrees⟩ := hitem hatomic.1 hatomic.2
      exact written_optional hlex hw.opens hreads hagrees.head_eq (fun _ => hagrees) hclosed
    · obtain ⟨hopens, hnonempty, ts, g, hlex, hreads, hagrees⟩ := hw
      have hbranches := hreads.branches fun hs => hlex.ne_nil (hnonempty hs)
      refine written_optional (lexes_group hlex hopens mode closed) (opens_group mode closed t)
        (hbranches.closable mode closed) (fun p => (head_kept closed p).trans (hagrees.head_eq p)) (fun hc => ?_) hclosed
      rw [Reach.kept, if_neg hc]
      exact hagrees

/-! ### What a tree has to be like -/

/-- The text of a special, optional or not; such a choice is never closed. -/
def Verbatim.specialText (yes : Bool) (v : Verbatim) : Text :=
  if yes then (if v.atomic && !v.pattern.isEmpty then v.pattern else Mode.group .backtracking false v.pattern) ++ ['?']
  else v.pattern

/-- What is taken as it is can be read, as what it stands for. -/
structure Verbatim.Readable (σ : Sense) (strict : Prop) (φ : Flags) (v : Verbatim) : Prop where
  boundary : v.role ≠ .pattern → v.atomic = true ∧ v.pattern ≠ [] ∧ Opens v.pattern ∧
    ∃ ts, Lexes v.pattern ts ∧ ReadsItem strict φ ts (σ.assertion v)
  special : v.role = .pattern → ∀ yes, Opens (v.specialText yes) ∧ (strict → v.specialText yes ≠ []) ∧
    ∃ ts, Lexes (v.specialText yes) ts ∧ ReadsItems strict φ ts (σ.special yes v)

mutual

/-- Nothing in the tree is empty or too long for a count, and the top of a tree stands nowhere below it. -/
def Node.Shaped (known : Verbatim → Prop) : Node → Prop
  | .leaf _ t => t ≠ [] ∧ t.length < boundLimit
  | .charClass _ cls => cls.members ≠ []
  | .verbatim _ v => known v
  | .sequence _ children => children ≠ [] ∧ children.length < boundLimit ∧ Node.ShapedEach known children
  | .alternate m children => m.position ≠ .root ∧ children ≠ [] ∧ Node.ShapedEach known children

def Node.ShapedEach (known : Verbatim → Prop) : List Node → Prop
  | [] => True
  | n :: rest => n.Shaped known ∧ Node.ShapedEach known rest

end

def Node.ShapedRoot (known : Verbatim → Prop) : Node → Prop
  | .alternate m children => m.position = .root ∧ children ≠ [] ∧ Node.ShapedEach known children
  | n => n.Shaped known

/-! ### Leaves and classes -/

theorem readsItem_char (hφ : φ.ignoreCase = σ.folded) (c : Char) : ReadsItem strict φ [.char c] (σ.char c) := by
  have hread : ReadsItem strict φ [.char c] ((Expr.char c φ.ignoreCase).ends .ahead) :=
    readsItem_of_step (fun s hs => by rw [ParseState.step, hs]) ⟨⟨trivial, fun _ => trivial⟩, fun _ => rfl⟩
  rwa [hφ] at hread

theorem quoteChar_ne_nil (c : Char) : quoteChar c ≠ [] := by
  unfold quoteChar blankEscape?
  split <;> simp
  split_ifs <;> simp

/-- Characters are written one by one. -/
theorem segments_text (hφ : φ.ignoreCase = σ.folded) (t : Text) :
    Segments σ mode strict φ F (t.map quoteChar) (t.map fun c => .ofText [c]) := by
  induction t with
  | nil => exact .nil
  | cons c t ih =>
    refine .cons (List.cons_ne_nil (.ofText [c]) []) ?_ ih
    refine .of_item (lexes_quoteChar c) (opens_quoteChar c) (fun _ => quoteChar_ne_nil c) ?_
    rw [Sense.items_singleton, Node.ofText, Sense.reach]
    have hchar : (σ.text [c]).optionalIf Mark.plain.optional = σ.char c := Reach.andThen_nil _
    rw [hchar]
    exact readsItem_char hφ c

theorem proper_leaves {t : Text} (h : ∀ c ∈ t, A c) (start : Bool) :
    σ.ProperItems A start (t.map fun c => .ofText [c]) := by
  induction t generalizing start with
  | nil => trivial
  | cons c t ih =>
    refine ⟨fun d hd => ?_, ih (fun d hd => h d (List.mem_cons_of_mem _ hd)) false⟩
    rw [List.mem_singleton.1 hd]
    exact h c List.mem_cons_self

theorem itemsDecided_leaves (t : Text) (F : NextChars) : Node.itemsDecided F (t.map fun c => .ofText [c]) = true := by
  induction t with
  | nil => rfl
  | cons c t ih =>
    rw [List.map_cons, Node.itemsDecided, ih]
    rfl

theorem written_text (hσ : mode = .possessive → σ.Lawful A) (hφ : φ.ignoreCase = σ.folded) (hF : σ.Spelled A F) {t : Text} (hne : t ≠ [])
    (hlen : t.length < boundLimit) (ht : ∀ c ∈ t, A c) :
    Written σ mode strict φ F (abbreviate mode true (t.map quoteChar)) (σ.text t) := by
  rw [← Sense.items_leaves]
  exact written_abbreviate hσ hF (segments_text hφ t) (by simpa using hne) (proper_leaves ht true)
    (fun _ _ => itemsDecided_leaves t F) (by simpa using hlen)

theorem abbreviate_singleton (mode : Mode) (closed : Bool) (f : Text) : abbreviate mode closed [f] = f := by
  have hnone : abbreviateOnce mode closed [f] = none := by simp [abbreviateOnce]
  rw [abbreviate, abbreviated, hnone]
  exact List.append_nil f

/-- The text of a class that is not empty is one item. -/
theorem readsItem_class (hφ : φ.ignoreCase = σ.folded) {cls : CharClass} (h : cls.members ≠ []) :
    ∃ ts, Lexes cls.pattern ts ∧ Opens cls.pattern ∧ cls.pattern ≠ [] ∧ ReadsItem strict φ ts (σ.charClass cls) := by
  rcases pattern_cases cls with ⟨hnil, -⟩ | ⟨c, hc, hp⟩ | ⟨hlen, hlex, r, hr⟩
  · exact absurd hnil h
  · rw [hp]
    have hclass : σ.charClass cls = σ.char c := by
      unfold Sense.charClass Sense.char Sense.classTest
      rw [hc]
    rw [hclass]
    exact ⟨_, lexes_quoteChar c, opens_quoteChar c, quoteChar_ne_nil c, readsItem_char hφ c⟩
  · refine ⟨_, hlex, by rw [hr]; exact opens_cons (by decide) r, by simp [hr], ?_⟩
    have hread : ReadsItem strict φ [.set false (classItems cls)]
        ((Expr.set ⟨classItems cls, false, φ.ignoreCase⟩).ends .ahead) :=
      readsItem_of_step (fun s hs => by rw [ParseState.step, hs]) ⟨⟨trivial, fun _ => trivial⟩, fun _ => rfl⟩
    have hclass : σ.charClass cls = fun p => p.past .ahead (CharSet.contains ⟨classItems cls, false, σ.folded⟩) := by
      funext p
      unfold Sense.charClass Sense.classTest
      congr 1
      funext d
      split
      · rename_i c hc
        simp [hc] at hlen
      · rfl
    rw [hclass, ← hφ]
    exact hread

/-! ### Trees -/

section Trees

variable {m : Mark}

theorem written_leaf (hσ : mode = .possessive → σ.Lawful A) (hφ : φ.ignoreCase = σ.folded) {t : Text} (hne : t ≠ [])
    (hlen : t.length < boundLimit) (hn : σ.Proper A start (.leaf m t)) (hF : σ.Spelled A F) :
    Written σ mode strict φ F (Node.patternBefore mode F (.leaf m t)) (σ.reach (.leaf m t)) := by
  rw [Node.patternBefore, Sense.reach]
  refine written_finish (n := .leaf m t) (written_text hσ hφ hF hne hlen hn) (fun hatomic _ => ?_) fun hm hc κ hκ => ?_
  · obtain ⟨c, rfl⟩ := List.length_eq_one_iff.1 (of_decide_eq_true hatomic)
    have hchar : σ.text [c] = σ.char c := Reach.andThen_nil _
    rw [List.map_singleton, abbreviate_singleton, hchar]
    exact ⟨_, _, lexes_quoteChar c, readsItem_char hφ c, .refl _⟩
  · exact Sense.commits_reach (hσ hm) (.leaf m t) hn hκ hF (Bool.and_eq_true_iff.1 hc).2

theorem written_charClass (hσ : mode = .possessive → σ.Lawful A) (hφ : φ.ignoreCase = σ.folded) {cls : CharClass} (hne : cls.members ≠ [])
    (hn : σ.Proper A start (.charClass m cls)) (hF : σ.Spelled A F) :
    Written σ mode strict φ F (Node.patternBefore mode F (.charClass m cls)) (σ.reach (.charClass m cls)) := by
  obtain ⟨ts, hlex, hopens, hnonempty, hreads⟩ :
      ∃ ts, Lexes cls.pattern ts ∧ Opens cls.pattern ∧ cls.pattern ≠ [] ∧ ReadsItem strict φ ts (σ.charClass cls) :=
    readsItem_class hφ hne
  rw [Node.patternBefore, Sense.reach]
  cases hm : m.optional with
  | false =>
    rw [if_neg (by simp), List.append_nil]
    exact .of_item hlex hopens (fun _ => hnonempty) hreads
  | true =>
    refine written_optional hlex hopens hreads (fun _ => rfl) (fun _ => .refl _) fun hp hc κ hκ => ?_
    have := Sense.commits_reach (hσ hp) (.charClass m cls) hn hκ hF (Bool.and_eq_true_iff.1 hc).2
    rwa [Sense.reach, hm] at this

theorem written_verbatim (hσ : mode = .possessive → σ.Lawful A) {v : Verbatim} (hv : v.Readable σ strict φ)
    (hn : σ.Proper A start (.verbatim m v)) (hF : σ.Spelled A F) :
    Written σ mode strict φ F (Node.patternBefore mode F (.verbatim m v)) (σ.reach (.verbatim m v)) := by
  have hcommits := fun hp hc κ hκ => Sense.commits_reach (κ := κ) (hσ hp) (.verbatim m v) hn hκ hF hc
  rw [Node.patternBefore]
  rw [Sense.reach, Sense.verbatim] at hcommits ⊢
  by_cases hrole : v.role = .pattern
  · obtain ⟨hopens, hnonempty, ts, hlex, hreads⟩ := hv.special hrole m.optional
    have htext : Node.finish mode (.verbatim m v) (decide (mode = .possessive) && Node.closable F (.verbatim m v)) v.pattern =
        v.specialText m.optional := by
      have hopen : Node.closable F (.verbatim m v) = false := by simp [Node.closable, Node.decided, hrole]
      rw [hopen, Bool.and_false]
      simp [Node.finish, Verbatim.specialText, Node.mark, Node.isAtomic, Mode.group, Mode.groupStart, Mode.optionalMark]
    rw [htext, if_pos hrole]
    exact ⟨hopens, hnonempty, ts, _, hlex, hreads, .refl _⟩
  · obtain ⟨hatomic, hnonempty, hopens, ts, hlex, hreads⟩ := hv.boundary hrole
    rw [if_neg hrole] at hcommits ⊢
    exact written_finish (n := .verbatim m v) (.of_item hlex hopens (fun _ => hnonempty) hreads)
      (fun _ _ => ⟨ts, _, hlex, hreads, .refl _⟩) fun hp hc κ hκ => hcommits hp (Bool.and_eq_true_iff.1 hc).2 κ hκ

structure BranchesWritten (σ : Sense) (mode : Mode) (strict : Prop) (φ : Flags) (F : NextChars) (t : Text) (f : Reach) :
    Prop where
  opens : Opens t
  nonempty : strict → t ≠ []
  reads : ∃ ts g, Lexes t ts ∧ ReadsBranches strict φ ts g ∧ σ.Agrees mode F f g

theorem Written.branches {t : Text} {f : Reach} (h : Written σ mode strict φ F t f) :
    BranchesWritten σ mode strict φ F t f := by
  obtain ⟨hopens, hnonempty, ts, g, hlex, hreads, hagrees⟩ := h
  exact ⟨hopens, hnonempty, ts, g, hlex, hreads.branches fun hs => hlex.ne_nil (hnonempty hs), hagrees⟩

theorem BranchesWritten.bar {t u : Text} {f g : Reach} (h : BranchesWritten σ mode strict φ F t f)
    (h' : BranchesWritten σ mode strict φ F u g) : BranchesWritten σ mode strict φ F (t ++ '|' :: u) (f.orElse g) := by
  obtain ⟨hopens, -, ts, g₁, hlex, hreads, hagrees⟩ := h
  obtain ⟨hopens', -, us, g₂, hlex', hreads', hagrees'⟩ := h'
  refine ⟨hopens.append (opens_cons (by decide) u), fun _ => by simp, ts ++ .bar :: us, g₁.orElse g₂, ?_,
    hreads.bar hreads', hagrees.orElse hagrees'⟩
  exact hlex.append (lexes_bar.append hlex' hopens') (opens_cons (by decide) u)

/-- Alternatives below the top of a tree are written in a group. -/
theorem written_alternate (hσ : mode = .possessive → σ.Lawful A) {children : List Node} (hroot : m.position ≠ .root) (hne : children ≠ [])
    (hw : BranchesWritten σ mode strict φ F (Text.join ['|'] (Node.branchPatterns mode F children)) (σ.branches children))
    (hn : σ.Proper A start (.alternate m children)) (hF : σ.Spelled A F) :
    Written σ mode strict φ F (Node.patternBefore mode F (.alternate m children)) (σ.reach (.alternate m children)) := by
  obtain ⟨hopens, hnonempty, ts, g, hlex, hreads, hagrees⟩ := hw
  rw [Node.patternBefore]
  have hempty : children.isEmpty = false := by simpa using hne
  have hplace : Node.isRoot (.alternate m children) = false := by simp [Node.isRoot, Node.mark, hroot]
  simp only [hempty, hplace, Bool.false_eq_true, if_false]
  rw [Sense.reach]
  generalize hd : (decide (mode = .possessive) && Node.decided F (.alternate m children)) = decided
  have hitem : WrittenItem σ mode strict φ F (mode.group decided (Text.join ['|'] (Node.branchPatterns mode F children)))
      (σ.branches children) := by
    refine ⟨_, _, lexes_group hlex hopens mode decided, hreads.closable mode decided, ?_⟩
    unfold Reach.kept
    split_ifs with hc
    · refine Sense.agrees_preferred hagrees.head_eq fun κ hκ => ?_
      have hdecided : Node.branchesDecided F .none children = true := by
        rw [hc.2, Bool.and_eq_true] at hd
        exact hd.2
      exact Sense.commits_branches (hσ hc.1) children hn (hκ hc.1) hF hdecided
    · exact hagrees
  have hwritten : Written σ mode strict φ F (mode.group decided (Text.join ['|'] (Node.branchPatterns mode F children)))
      (σ.branches children) := by
    obtain ⟨us, h, hlex', hreads', hagrees'⟩ := hitem
    exact ⟨opens_group mode decided _, fun _ => by simp [Mode.group], us, h, hlex', hreads'.items, hagrees'⟩
  refine written_finish (n := .alternate m children) hwritten (fun _ _ => hitem) fun hp hc κ hκ => ?_
  exact Sense.commits_reach (hσ hp) (.alternate m children) hn hκ hF (Bool.and_eq_true_iff.1 hc).2

theorem join_branchPatterns (mode : Mode) (F : NextChars) (n n' : Node) (rest : List Node) :
    Text.join ['|'] (Node.branchPatterns mode F (n :: n' :: rest)) =
      n.patternBefore mode F ++ '|' :: Text.join ['|'] (Node.branchPatterns mode F (n' :: rest)) := by
  rw [Node.branchPatterns, Node.branchPatterns, Text.join, List.append_assoc, List.singleton_append]
  simp

theorem length_itemPatterns (mode : Mode) (F : NextChars) (ns : List Node) :
    (Node.itemPatterns mode F ns).length = ns.length := by
  induction ns with
  | nil => rfl
  | cons n ns ih => rw [Node.itemPatterns, List.length_cons, List.length_cons, ih]

mutual

/-- Below the top, every node is written as it is matched. -/
theorem written_node (hσ : mode = .possessive → σ.Lawful A) (hφ : φ.ignoreCase = σ.folded) : (n : Node) → ∀ {start : Bool} {F : NextChars},
    n.Shaped (Verbatim.Readable σ strict φ) → σ.Proper A start n → σ.Spelled A F →
    Written σ mode strict φ F (n.patternBefore mode F) (σ.reach n)
  | .leaf _ _, _, _, hs, hn, hF => written_leaf hσ hφ hs.1 hs.2 hn hF
  | .charClass _ _, _, _, hs, hn, hF => written_charClass hσ hφ hs hn hF
  | .verbatim _ _, _, _, hs, hn, hF => written_verbatim hσ hs hn hF
  | .sequence m children, start, F, hs, hn, hF => by
    obtain ⟨hne, hlen, heach⟩ := hs
    have hseg := segments_items hσ hφ children heach hn hF
    have hlength := length_itemPatterns mode F children
    rw [Node.patternBefore, Sense.reach]
    refine written_finish (n := .sequence m children)
      (written_abbreviate hσ hF hseg ?_ hn (fun _ hd => (Bool.and_eq_true_iff.1 hd).2) (by rw [hlength]; exact hlen))
      (fun hatomic _ => absurd hatomic (by simp [Node.isAtomic])) fun hp hc κ hκ => ?_
    · intro hnil
      rw [hnil] at hlength
      exact hne (List.length_eq_zero_iff.1 hlength.symm)
    · exact Sense.commits_reach (hσ hp) (.sequence m children) hn hκ hF (Bool.and_eq_true_iff.1 hc).2
  | .alternate m children, start, F, hs, hn, hF =>
    written_alternate hσ hs.1 hs.2.1 (written_branches hσ hφ children hs.2.2 hn hF hs.2.1) hn hF

theorem segments_items (hσ : mode = .possessive → σ.Lawful A) (hφ : φ.ignoreCase = σ.folded) : (ns : List Node) →
    ∀ {start : Bool} {F : NextChars}, Node.ShapedEach (Verbatim.Readable σ strict φ) ns → σ.ProperItems A start ns →
    σ.Spelled A F → Segments σ mode strict φ F (Node.itemPatterns mode F ns) ns
  | [], _, _, _, _, _ => .nil
  | n :: rest, start, F, hs, hn, hF => by
    rw [Node.itemPatterns]
    have hw := written_node hσ hφ n hs.1 hn.1 (Sense.spelled_follow rest hn.2 hF)
    rw [← Sense.items_singleton] at hw
    exact .cons (List.cons_ne_nil n []) hw (segments_items hσ hφ rest hs.2 hn.2 hF)

theorem written_branches (hσ : mode = .possessive → σ.Lawful A) (hφ : φ.ignoreCase = σ.folded) : (ns : List Node) →
    ∀ {start : Bool} {F : NextChars}, Node.ShapedEach (Verbatim.Readable σ strict φ) ns → σ.ProperBranches A start ns →
    σ.Spelled A F → ns ≠ [] →
    BranchesWritten σ mode strict φ F (Text.join ['|'] (Node.branchPatterns mode F ns)) (σ.branches ns)
  | [], _, _, _, _, _, hne => absurd rfl hne
  | [n], start, F, hs, hn, hF, _ => by
    have hone : σ.branches [n] = σ.reach n := funext fun p => List.append_nil _
    rw [hone]
    exact (written_node hσ hφ n hs.1 hn.1 hF).branches
  | n :: n' :: rest, start, F, hs, hn, hF, _ => by
    have hrest := written_branches hσ hφ (n' :: rest) hs.2 hn.2 hF (by simp)
    rw [join_branchPatterns]
    exact (written_node hσ hφ n hs.1 hn.1 hF).branches.bar hrest

end

/-- The text of a whole tree, alternatives at the top without a group. -/
theorem written_root (hσ : mode = .possessive → σ.Lawful A) (hφ : φ.ignoreCase = σ.folded) {n : Node} (hopt : n.mark.optional = false)
    (hs : n.ShapedRoot (Verbatim.Readable σ strict φ)) (hn : σ.Proper A start n) :
    BranchesWritten σ mode strict φ .none (n.pattern mode) (σ.reach n) := by
  cases n with
  | alternate m children =>
    obtain ⟨hroot, hne, heach⟩ := hs
    have hopt' : m.optional = false := hopt
    have hempty : children.isEmpty = false := by simpa using hne
    have hplace : Node.isRoot (.alternate m children) = true := by simp [Node.isRoot, Node.mark, hroot]
    rw [Node.pattern, Node.patternBefore, Sense.reach, hopt']
    simp only [hempty, hplace, Bool.false_eq_true, if_false, if_true, Node.finish, hopt]
    exact written_branches hσ hφ children heach hn Sense.spelled_none hne
  | leaf | charClass | verbatim | sequence => exact (written_node hσ hφ _ hs hn Sense.spelled_none).branches

end Trees

end WordPattern
