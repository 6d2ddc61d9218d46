import Mathlib.Data.List.Basic
import Mathlib.Data.List.Chain
import Mathlib.Tactic.Ring
import WordPattern.Proofs.Lists
import WordPattern.Repeats

/-! What one round of abbreviation finds.

A round looks only at whole runs of blocks that begin at every `size`-th fragment, so it has to be seen that it misses
nothing: every run is part of a whole run, at the offset that is left over when its start is divided by the size of its
blocks, and a longer run pays if a shorter one does, since a count grows by a digit at most where the run grows by a
block. -/

namespace WordPattern

variable {mode : Mode} {closed : Bool} {fragments out : List Text} {size offset start count : Nat}

def blockAt (fragments : List Text) (size start : Nat) : List Text := (fragments.drop start).take size

/-- From a place on, so many blocks of `size` fragments stand next to each other, and they are all equal. -/
structure IsRun (fragments : List Text) (size start count : Nat) : Prop where
  size_pos : 0 < size
  two_le : 2 ≤ count
  fits : start + count * size ≤ fragments.length
  equal : ∀ i < count, ∀ j < count,
    blockAt fragments size (start + i * size) = blockAt fragments size (start + j * size)

/-- The run takes fewer characters if it is written once with a count. -/
structure IsPayingRun (mode : Mode) (closed : Bool) (fragments : List Text) (size start count : Nat) : Prop
    extends IsRun fragments size start count where
  shorter : (quantified mode closed (blockAt fragments size start) count).length <
    count * (blockAt fragments size start).flatten.length

/-- No further blocks on either side belong to the run. -/
def IsMaximal (fragments : List Text) (size start count : Nat) : Prop :=
  ∀ start' before after, start' + before * size = start → IsRun fragments size start' (before + count + after) →
    before = 0 ∧ after = 0

/-! ### Counts -/

theorem digitCount_succ_le (n : Nat) : digitCount (n + 1) ≤ digitCount n + 1 := by
  induction n using Nat.strong_induction_on with
  | _ n ih =>
    rw [digitCount]
    split_ifs with hsmall
    · omega
    · rw [digitCount.eq_def n]
      split_ifs with hsmall'
      · -- from nine to ten
        have hn : n = 9 := by omega
        subst hn
        simp [digitCount]
      · have htens : (n + 1) / 10 = n / 10 ∨ (n + 1) / 10 = n / 10 + 1 := by omega
        rcases htens with htens | htens
        · rw [htens]
          omega
        · rw [htens]
          exact Nat.succ_le_succ (ih (n / 10) (by omega))

/-- What pays for a run pays for a longer one. -/
theorem quantifiedLength_lt_of_le {block : List Text} {n m : Nat}
    (h : quantifiedLength block n < n * block.flatten.length) (hle : n ≤ m) :
    quantifiedLength block m < m * block.flatten.length := by
  induction m, hle using Nat.le_induction with
  | base => exact h
  | succ m hle ih =>
    have hlong : 1 ≤ block.flatten.length := by
      by_contra hnil
      simp [Nat.lt_one_iff.1 (Nat.lt_of_not_le hnil)] at h
    have hdigits := digitCount_succ_le m
    have hmore : (m + 1) * block.flatten.length = m * block.flatten.length + block.flatten.length := by ring
    simp only [quantifiedLength] at ih ⊢
    omega

/-! ### Runs of equal neighbours -/

theorem pos_of_mem_runs {bs : List (List Text)} : ∀ r ∈ runs bs, 0 < r.2 := by
  induction bs with
  | nil => exact fun r hr => absurd hr List.not_mem_nil
  | cons b bs ih =>
    rcases runs_cons b bs with ⟨n, more, hbs, hcons⟩ | ⟨hcons, -⟩
    · rw [hbs, List.forall_mem_cons] at ih
      rw [hcons, List.forall_mem_cons]
      exact ⟨Nat.succ_pos n, ih.2⟩
    · rw [hcons, List.forall_mem_cons]
      exact ⟨Nat.one_pos, ih⟩

theorem isChain_runs (bs : List (List Text)) : (runs bs).IsChain fun r s => r.1 ≠ s.1 := by
  induction bs with
  | nil => exact .nil
  | cons b bs ih =>
    rcases runs_cons b bs with ⟨n, more, hbs, hcons⟩ | ⟨hcons, hne⟩
    · rw [hbs, List.isChain_cons] at ih
      rw [hcons, List.isChain_cons]
      exact ih
    · rw [hcons, List.isChain_cons]
      exact ⟨hne, ih⟩

/-- Equal blocks at the start of a list are part of the first run. -/
theorem head_runs_replicate (b : List Text) (n : Nat) (back : List (List Text)) :
    ∃ m more, runs (List.replicate (n + 1) b ++ back) = (b, m) :: more ∧ n + 1 ≤ m := by
  induction n with
  | zero =>
    rcases runs_cons b back with ⟨m, more, -, hcons⟩ | ⟨hcons, -⟩
    · exact ⟨m + 1, more, hcons, by omega⟩
    · exact ⟨1, runs back, hcons, by omega⟩
  | succ n ih =>
    obtain ⟨m, more, hruns, hle⟩ := ih
    rcases runs_cons b (List.replicate (n + 1) b ++ back) with ⟨k, more', hbs, hcons⟩ | ⟨-, hne⟩
    · rw [hruns] at hbs
      obtain ⟨⟨-, rfl⟩, rfl⟩ := (List.cons.inj hbs).imp_left Prod.mk.inj
      exact ⟨m + 1, more, hcons, by omega⟩
    · rw [hruns] at hne
      exact absurd rfl (hne (b, m) rfl)

theorem exists_mem_runs_append {n : Nat} (hn : 0 < n) (b : List Text) (front back : List (List Text)) :
    ∃ m, (b, m) ∈ runs (front ++ (List.replicate n b ++ back)) ∧ n ≤ m := by
  induction front with
  | nil =>
    obtain ⟨n, rfl⟩ := Nat.exists_eq_add_of_le' hn
    obtain ⟨m, more, hruns, hle⟩ := head_runs_replicate b n back
    exact ⟨m, by rw [List.nil_append, hruns]; exact List.mem_cons_self, hle⟩
  | cons c front ih =>
    obtain ⟨m, hmem, hle⟩ := ih
    rw [List.cons_append]
    rcases runs_cons c (front ++ (List.replicate n b ++ back)) with ⟨k, more, hbs, hcons⟩ | ⟨hcons, -⟩
    · rw [hbs] at hmem
      rw [hcons]
      rcases List.mem_cons.1 hmem with heq | hmem
      · -- the block before is equal to the blocks of the run
        obtain ⟨rfl, rfl⟩ := Prod.mk.inj heq
        exact ⟨m + 1, List.mem_cons_self, by omega⟩
      · exact ⟨m, List.mem_cons_of_mem _ hmem, hle⟩
    · exact ⟨m, hcons ▸ List.mem_cons_of_mem _ hmem, hle⟩

/-- Equal blocks that stand next to each other are part of one run. -/
theorem exists_mem_runs {bs : List (List Text)} {b : List Text} {k n : Nat} (hn : 0 < n)
    (h : ∀ i < n, bs[k + i]? = some b) : ∃ m, (b, m) ∈ runs bs ∧ n ≤ m := by
  have hreplicate : (bs.drop k).take n = List.replicate n b := by
    refine List.ext_getElem? fun i => ?_
    rw [List.getElem?_take, List.getElem?_drop, List.getElem?_replicate]
    split_ifs with hi
    · exact h i hi
    · rfl
  have hsplit := exists_mem_runs_append hn b (bs.take k) ((bs.drop k).drop n)
  rwa [← hreplicate, List.take_append_drop, List.take_append_drop] at hsplit

/-- The blocks on either side of a run differ from it. -/
theorem neighbours_of_runs {bs : List (List Text)} {before after : List (List Text × Nat)} {b : List Text} {n : Nat}
    (h : runs bs = before ++ (b, n) :: after) :
    b ∉ (expanded before).getLast? ∧ b ∉ (expanded after).head? := by
  have hchain := isChain_runs bs
  rw [h, List.isChain_append] at hchain
  obtain ⟨-, hright, hleft⟩ := hchain
  have hpos : ∀ r ∈ before ++ (b, n) :: after, 0 < r.2 := h ▸ pos_of_mem_runs
  constructor
  · rcases List.eq_nil_or_concat before with rfl | ⟨init, r, rfl⟩
    · simp [expanded]
    · have hr : r.2 ≠ 0 := Nat.pos_iff_ne_zero.1 (hpos r (by simp))
      have hne : r.1 ≠ b := hleft r (by simp) (b, n) (by simp)
      simp [expanded, List.getLast?_append, List.getLast?_replicate, hr, hne]
  · cases after with
    | nil => simp [expanded]
    | cons r after =>
      have hr : r.2 ≠ 0 := Nat.pos_iff_ne_zero.1 (hpos r (by simp))
      have hne : b ≠ r.1 := (List.isChain_cons_cons.1 hright).1
      simp [expanded, List.head?_append, List.head?_replicate, hr, hne.symm]

/-- Where a run stands among the blocks. -/
theorem getElem?_of_runs {bs : List (List Text)} {before after : List (List Text × Nat)} {b : List Text} {n : Nat}
    (h : runs bs = before ++ (b, n) :: after) :
    (∀ i < n, bs[(expanded before).length + i]? = some b) ∧
      (∀ j, j + 1 = (expanded before).length → bs[j]? ≠ some b) ∧ bs[(expanded before).length + n]? ≠ some b := by
  obtain ⟨hleft, hright⟩ := neighbours_of_runs h
  have hbs : bs = expanded before ++ (List.replicate n b ++ expanded after) := by
    rw [← expanded_runs bs, h, expanded_append]
    rfl
  refine ⟨fun i hi => ?_, fun j hj heq => hleft ?_, fun heq => hright ?_⟩
  · rw [hbs, List.getElem?_append_right (Nat.le_add_right _ i), Nat.add_sub_cancel_left,
      List.getElem?_append_left (by rwa [List.length_replicate]), List.getElem?_replicate_of_lt hi]
  · rw [hbs, List.getElem?_append_left (by omega)] at heq
    rw [List.getLast?_eq_getElem?, ← hj]
    exact heq
  · rw [hbs, List.getElem?_append_right (Nat.le_add_right _ n), Nat.add_sub_cancel_left,
      List.getElem?_append_right (by rw [List.length_replicate]), List.length_replicate, Nat.sub_self] at heq
    rw [List.head?_eq_getElem?]
    exact heq

/-! ### Blocks at an offset -/

def blocksFrom (fragments : List Text) (size offset : Nat) : List (List Text) :=
  blocks size ((fragments.drop offset).length / size) (fragments.drop offset)

theorem getElem?_blocks {i : Nat} :
    (blocks size count fragments)[i]? = if i < count then some (blockAt fragments size (i * size)) else none := by
  induction count generalizing fragments i with
  | zero => simp [blocks]
  | succ count ih =>
    rw [blocks]
    cases i with
    | zero => simp [blockAt]
    | succ i =>
      rw [List.getElem?_cons_succ, ih]
      simp only [blockAt, List.drop_drop, Nat.add_lt_add_iff_right]
      rw [Nat.succ_mul, Nat.add_comm size]

theorem getElem?_blocksFrom (hsize : 0 < size) {i : Nat} {b : List Text} :
    (blocksFrom fragments size offset)[i]? = some b ↔
      offset + (i + 1) * size ≤ fragments.length ∧ blockAt fragments size (offset + i * size) = b := by
  have hfits : i < (fragments.drop offset).length / size ↔ offset + (i + 1) * size ≤ fragments.length := by
    rw [← Nat.succ_le_iff, Nat.le_div_iff_mul_le hsize, List.length_drop, Nat.succ_eq_add_one]
    have : 0 < (i + 1) * size := Nat.mul_pos (Nat.succ_pos i) hsize
    omega
  simp only [blocksFrom, getElem?_blocks, hfits]
  split_ifs with h
  · simp [h, blockAt]
  · simp [h]

theorem length_of_mem_blocksFrom (hsize : 0 < size) {b : List Text} (h : b ∈ blocksFrom fragments size offset) :
    b.length = size := by
  obtain ⟨i, hi⟩ := List.mem_iff_getElem?.1 h
  obtain ⟨hfits, rfl⟩ := (getElem?_blocksFrom hsize).1 hi
  rw [Nat.succ_mul] at hfits
  rw [blockAt, List.length_take, List.length_drop]
  omega

/-- The blocks of a run are equal blocks among those at its offset. -/
theorem isRun_iff {k : Nat} (hsize : 0 < size) (hcount : 2 ≤ count) :
    IsRun fragments size (offset + k * size) count ↔
      ∃ b, ∀ i < count, (blocksFrom fragments size offset)[k + i]? = some b := by
  have hplace : ∀ i, offset + (k + i) * size = offset + k * size + i * size := fun i => by ring
  constructor
  · intro h
    refine ⟨blockAt fragments size (offset + k * size + 0 * size), fun i hi => ?_⟩
    rw [getElem?_blocksFrom hsize, hplace]
    refine ⟨?_, h.equal i hi 0 (by omega)⟩
    have hle : offset + (k + i + 1) * size ≤ offset + k * size + count * size := by
      rw [Nat.add_assoc k, hplace]
      exact Nat.add_le_add_left (Nat.mul_le_mul_right size hi) _
    exact hle.trans h.fits
  · rintro ⟨b, hb⟩
    have heq : ∀ i < count, blockAt fragments size (offset + k * size + i * size) = b := fun i hi => by
      rw [← hplace]
      exact ((getElem?_blocksFrom hsize).1 (hb i hi)).2
    refine ⟨hsize, hcount, ?_, fun i hi j hj => (heq i hi).trans (heq j hj).symm⟩
    obtain ⟨hfits, -⟩ := (getElem?_blocksFrom hsize).1 (hb (count - 1) (by omega))
    have hlast : k + (count - 1) + 1 = k + count := by omega
    rwa [hlast, hplace] at hfits

/-- Fragments with a run in them. -/
theorem IsRun.eq_append (h : IsRun fragments size start count) :
    fragments = fragments.take start ++ ((List.replicate count (blockAt fragments size start)).flatten ++
      fragments.drop (start + count * size)) := by
  have hblocks : blocks size count (fragments.drop start) = List.replicate count (blockAt fragments size start) := by
    refine List.ext_getElem? fun i => ?_
    rw [getElem?_blocks, List.getElem?_replicate]
    split_ifs with hi
    · have hequal := h.equal i hi 0 (Nat.zero_lt_of_lt h.two_le)
      rw [Nat.zero_mul, Nat.add_zero] at hequal
      rw [← hequal, blockAt, List.drop_drop, blockAt]
    · rfl
  have hrest := flatten_blocks_append size count (fragments.drop start)
  rw [hblocks, List.drop_drop] at hrest
  rw [hrest, List.take_append_drop]

/-- What is saved when a run is written once with a count. -/
theorem IsPayingRun.length_flatten (h : IsPayingRun mode closed fragments size start count) :
    (fragments.take start ++ quantified mode closed (blockAt fragments size start) count ::
        fragments.drop (start + count * size)).flatten.length +
      (count * (blockAt fragments size start).flatten.length -
        (quantified mode closed (blockAt fragments size start) count).length) = fragments.flatten.length := by
  have hwhole := congrArg (fun fs => fs.flatten.length) h.toIsRun.eq_append
  have hrun : (List.replicate count (blockAt fragments size start)).flatten.flatten.length =
      count * (blockAt fragments size start).flatten.length := by simp
  simp only [List.flatten_append, List.flatten_cons, List.length_append, hrun] at hwhole ⊢
  have := h.shorter
  omega

/-- Equal blocks at an offset whose neighbours differ from them are a maximal run. -/
theorem isMaximal_of_neighbours {k : Nat} {b : List Text} (hsize : 0 < size) (hoffset : offset < size)
    (hcount : 2 ≤ count)
    (hrun : ∀ i < count, (blocksFrom fragments size offset)[k + i]? = some b)
    (hleft : ∀ j, j + 1 = k → (blocksFrom fragments size offset)[j]? ≠ some b)
    (hright : (blocksFrom fragments size offset)[k + count]? ≠ some b) :
    IsMaximal fragments size (offset + k * size) count := by
  intro start' before after hstart hrun'
  have hbefore : before ≤ k := by
    have hlt : before * size < (k + 1) * size := by
      rw [Nat.succ_mul]
      omega
    exact Nat.lt_succ_iff.1 (Nat.lt_of_mul_lt_mul_right hlt)
  obtain ⟨j, rfl⟩ := Nat.exists_eq_add_of_le' hbefore
  have hstart' : start' = offset + j * size := by
    rw [Nat.add_mul] at hstart
    omega
  rw [hstart', isRun_iff hsize (by omega)] at hrun'
  obtain ⟨b', hb'⟩ := hrun'
  -- the longer run has the shorter one in it, so its blocks are the same
  have hsame : b' = b := Option.some.inj ((hb' before (by omega)).symm.trans (hrun 0 (by omega)))
  subst hsame
  constructor
  · by_contra hne
    exact hleft (j + (before - 1)) (by omega) (hb' (before - 1) (by omega))
  · by_contra hne
    refine hright ?_
    rw [Nat.add_assoc]
    exact hb' (before + count) (by omega)

/-! ### What is found at an offset -/

theorem abbreviateRuns_ne_none {rs : List (List Text × Nat)} {b : List Text} {n : Nat} (hmem : (b, n) ∈ rs)
    (hpays : quantifiedLength b n < n * b.flatten.length) : abbreviateRuns mode closed rs ≠ none := by
  induction rs with
  | nil => contradiction
  | cons r rs ih =>
    rw [abbreviateRuns]
    cases hrs : abbreviateRuns mode closed rs with
    | some out => simp
    | none =>
      rcases List.mem_cons.1 hmem with rfl | hmem
      · rw [if_pos hpays]
        exact Option.some_ne_none _
      · exact absurd hrs (ih hmem)

/-- A run that pays is part of a run that is found where its blocks begin. -/
theorem abbreviateAt_ne_none (h : IsPayingRun mode closed fragments size start count) :
    abbreviateAt mode closed fragments size (start % size) ≠ none := by
  have hstart : start % size + start / size * size = start := Nat.mod_add_div' start size
  have hrun := h.toIsRun
  rw [← hstart, isRun_iff h.size_pos h.two_le] at hrun
  obtain ⟨b, hb⟩ := hrun
  have hblock : blockAt fragments size start = b := by
    have hfirst := ((getElem?_blocksFrom h.size_pos).1 (hb 0 (Nat.zero_lt_of_lt h.two_le))).2
    rwa [Nat.add_zero, hstart] at hfirst
  obtain ⟨m, hmem, hle⟩ := exists_mem_runs (Nat.zero_lt_of_lt h.two_le) hb
  have hshorter := h.shorter
  rw [length_quantified, hblock] at hshorter
  have hfound : abbreviateRuns mode closed (runs (blocksFrom fragments size (start % size))) ≠ none :=
    abbreviateRuns_ne_none hmem (quantifiedLength_lt_of_le hshorter hle)
  simpa [abbreviateAt, blocksFrom] using hfound

/-- What stands before a run and after it. -/
theorem around_run {before after : List (List Text × Nat)} {b : List Text} (hsize : 0 < size)
    (hsplit : runs (blocksFrom fragments size offset) = before ++ (b, count) :: after)
    (hrun : IsRun fragments size (offset + (expanded before).length * size) count)
    (hblock : blockAt fragments size (offset + (expanded before).length * size) = b) :
    fragments.take offset ++ unrolled before = fragments.take (offset + (expanded before).length * size) ∧
      unrolled after ++ (fragments.drop offset).drop ((fragments.drop offset).length / size * size) =
        fragments.drop (offset + (expanded before).length * size + count * size) := by
  have hflat : (blocksFrom fragments size offset).flatten =
      unrolled before ++ ((List.replicate count b).flatten ++ unrolled after) := by
    rw [← unrolled_runs, hsplit, unrolled_append, unrolled]
  have hwhole : fragments = (fragments.take offset ++ unrolled before) ++ ((List.replicate count b).flatten ++
      (unrolled after ++ (fragments.drop offset).drop ((fragments.drop offset).length / size * size))) := by
    have hrest := flatten_blocks_append size ((fragments.drop offset).length / size) (fragments.drop offset)
    rw [← blocksFrom, hflat] at hrest
    nth_rewrite 1 [← List.take_append_drop offset fragments, ← hrest]
    simp only [List.append_assoc]
  have hlength : (fragments.take offset ++ unrolled before).length =
      (fragments.take (offset + (expanded before).length * size)).length := by
    have hmem : ∀ b' ∈ expanded before, b'.length = size := by
      intro b' hb'
      have hmem' : b' ∈ blocksFrom fragments size offset := by
        rw [← expanded_runs (blocksFrom fragments size offset), hsplit, expanded_append]
        exact List.mem_append_left _ hb'
      exact length_of_mem_blocksFrom hsize hmem'
    have hbefore : (unrolled before).length = (expanded before).length * size := by
      rw [unrolled_eq, List.length_flatten, List.map_eq_replicate_iff.2 hmem, List.sum_replicate_nat]
    have hfits := hrun.fits
    rw [List.length_append, hbefore, List.length_take, List.length_take]
    omega
  have hrest := hwhole.symm.trans hrun.eq_append
  rw [hblock] at hrest
  obtain ⟨hfront, hback⟩ := List.append_inj hrest hlength
  exact ⟨hfront, List.append_cancel_left hback⟩

/-- What is found at an offset is a maximal run that pays. -/
theorem exists_of_abbreviateAt (hsize : 0 < size) (hoffset : offset < size)
    (h : abbreviateAt mode closed fragments size offset = some out) :
    ∃ start count, IsPayingRun mode closed fragments size start count ∧ IsMaximal fragments size start count ∧
      out = fragments.take start ++ quantified mode closed (blockAt fragments size start) count ::
        fragments.drop (start + count * size) := by
  obtain ⟨shorter, hruns, rfl⟩ := Option.map_eq_some_iff.1 h
  obtain ⟨before, b, n, after, hsplit, hpays, rfl⟩ := exists_of_abbreviateRuns hruns
  have hn : 2 ≤ n := two_le_of_quantifiedLength_lt hpays
  obtain ⟨hrun, hleft, hright⟩ := getElem?_of_runs hsplit
  change ∀ i < n, (blocksFrom fragments size offset)[_ + i]? = some b at hrun
  obtain ⟨hfits, hblock⟩ := (getElem?_blocksFrom hsize).1 (hrun 0 (by omega))
  rw [Nat.add_zero] at hblock
  have hisRun := (isRun_iff hsize hn).2 ⟨b, hrun⟩
  obtain ⟨hfront, hback⟩ := around_run hsize hsplit hisRun hblock
  refine ⟨offset + (expanded before).length * size, n, ⟨hisRun, ?_⟩,
    isMaximal_of_neighbours hsize hoffset hn hrun hleft hright, ?_⟩
  · rw [hblock, length_quantified]
    exact hpays
  · rw [hblock, ← hfront, ← hback]
    simp only [List.append_assoc, List.cons_append]

/-! ### What a round finds -/

/-- A run that pays is not missed among the blocks of its size. -/
theorem findSome?_ne_none (h : IsPayingRun mode closed fragments size start count) :
    ((List.range size).findSome? fun offset => abbreviateAt mode closed fragments size offset) ≠ none := fun hnone =>
  abbreviateAt_ne_none h (List.findSome?_eq_none_iff.1 hnone _ (List.mem_range.2 (Nat.mod_lt start h.size_pos)))

theorem abbreviateOnce_ne_none (h : IsPayingRun mode closed fragments size start count) :
    abbreviateOnce mode closed fragments ≠ none := by
  obtain ⟨n, rfl⟩ := Nat.exists_eq_succ_of_ne_zero (Nat.pos_iff_ne_zero.1 h.size_pos)
  have htwice : 2 * (n + 1) ≤ fragments.length :=
    calc 2 * (n + 1) ≤ count * (n + 1) := Nat.mul_le_mul_right (n + 1) h.two_le
      _ ≤ start + count * (n + 1) := Nat.le_add_left _ _
      _ ≤ fragments.length := h.fits
  exact fun hnone => findSome?_ne_none h (List.findSome?_eq_none_iff.1 hnone n (List.mem_range.2 (by omega)))

theorem exists_of_abbreviateOnce (h : abbreviateOnce mode closed fragments = some out) :
    ∃ size start count, IsPayingRun mode closed fragments size start count ∧ IsMaximal fragments size start count ∧
      (∀ size' < size, ¬ ∃ start' count', IsPayingRun mode closed fragments size' start' count') ∧
      out = fragments.take start ++ quantified mode closed (blockAt fragments size start) count ::
        fragments.drop (start + count * size) := by
  obtain ⟨n, -, hfound, hsmaller⟩ := findSome?_range h
  obtain ⟨offset, hoffset, hat, -⟩ := findSome?_range hfound
  obtain ⟨start, count, hpays, hmaximal, rfl⟩ := exists_of_abbreviateAt (Nat.succ_pos n) hoffset hat
  refine ⟨n + 1, start, count, hpays, hmaximal, ?_, rfl⟩
  rintro size' hlt ⟨start', count', hpays'⟩
  obtain ⟨m, rfl⟩ := Nat.exists_eq_succ_of_ne_zero (Nat.pos_iff_ne_zero.1 hpays'.size_pos)
  exact findSome?_ne_none hpays' (hsmaller m (Nat.lt_of_succ_lt_succ hlt))

/-- A round fails to find a run only if there is none that pays. Otherwise it writes one run with a count that pays, of
the smallest blocks of which there is such a run, and to which no further blocks belong; the fragments get shorter by
what this saves. -/
theorem abbreviateOnce_finds (mode : Mode) (closed : Bool) (fragments : List Text) :
    (abbreviateOnce mode closed fragments = none ↔
      ¬ ∃ size start count, IsPayingRun mode closed fragments size start count) ∧
    ∀ out, abbreviateOnce mode closed fragments = some out →
      ∃ size start count, IsPayingRun mode closed fragments size start count ∧ IsMaximal fragments size start count ∧
        (∀ size' < size, ¬ ∃ start' count', IsPayingRun mode closed fragments size' start' count') ∧
        out = fragments.take start ++ quantified mode closed (blockAt fragments size start) count ::
          fragments.drop (start + count * size) ∧
        out.flatten.length + (count * (blockAt fragments size start).flatten.length -
          (quantified mode closed (blockAt fragments size start) count).length) = fragments.flatten.length := by
  refine ⟨⟨fun hnone ⟨size, start, count, h⟩ => abbreviateOnce_ne_none h hnone, fun hnone => ?_⟩, fun out h => ?_⟩
  · cases h : abbreviateOnce mode closed fragments with
    | none => rfl
    | some out =>
      obtain ⟨size, start, count, hpays, -⟩ := exists_of_abbreviateOnce h
      exact absurd ⟨size, start, count, hpays⟩ hnone
  · obtain ⟨size, start, count, hpays, hmaximal, hleast, rfl⟩ := exists_of_abbreviateOnce h
    exact ⟨size, start, count, hpays, hmaximal, hleast, rfl, hpays.length_flatten⟩

/-- Two fragments in turn after another one. The blocks of two that begin with the first fragment of all come first. -/
def twoInTurn : List Text := [['x']] ++ (List.replicate 5 [['a', 'b'], ['c']]).flatten ++ [['a', 'b']]

/-- Of these fragments. -/
theorem abbreviateOnce_finds_twoInTurn :
    abbreviateOnce .possessive true twoInTurn =
        some [['x'], ['a', 'b'], ['(', '?', '>', 'c', 'a', 'b', ')', '\x7b', '5', '\x7d']] ∧
      ∃ size start count, IsPayingRun .possessive true twoInTurn size start count ∧
        IsMaximal twoInTurn size start count ∧
        (∀ size' < size, ¬ ∃ start' count', IsPayingRun .possessive true twoInTurn size' start' count') ∧
        [['x'], ['a', 'b'], ['(', '?', '>', 'c', 'a', 'b', ')', '\x7b', '5', '\x7d']] =
          twoInTurn.take start ++ quantified .possessive true (blockAt twoInTurn size start) count ::
            twoInTurn.drop (start + count * size) ∧
        13 + (count * (blockAt twoInTurn size start).flatten.length -
          (quantified .possessive true (blockAt twoInTurn size start) count).length) = 18 := by
  have hout : abbreviateOnce .possessive true twoInTurn =
      some [['x'], ['a', 'b'], ['(', '?', '>', 'c', 'a', 'b', ')', '\x7b', '5', '\x7d']] := by decide +kernel
  exact ⟨hout, (abbreviateOnce_finds .possessive true twoInTurn).2 _ hout⟩

end WordPattern
