import Mathlib.Algebra.Order.BigOperators.Group.List
import Mathlib.Algebra.Order.Ring.Nat
import Mathlib.Data.List.TakeWhile
import WordPattern.Text.Pieces

/-! The fields of a text: what trimming leaves of them, and how long they are one space apart. -/

namespace WordPattern.Text

open Unicode

variable {cut : Char → Bool} {t : Text}

/-- A character that satisfies the test ends a piece. -/
theorem pieces_append_cut (s : Text) {b : Char} (hb : cut b = true) (t : Text) :
    (s ++ b :: t).pieces cut = s.pieces cut ++ t.pieces cut := by
  induction s with
  | nil => simp [pieces, hb]
  | cons c s ih =>
    rw [List.cons_append, pieces, pieces, ih]
    split_ifs
    · rfl
    · obtain ⟨g, gs, hpieces⟩ := List.exists_cons_of_ne_nil (pieces_ne_nil cut s)
      simp [hpieces]

theorem not_cut_of_mem_pieces {f : Text} (hf : f ∈ t.pieces cut) : ∀ c ∈ f, cut c = false := by
  induction t generalizing f with
  | nil =>
    rw [List.mem_singleton.1 hf]
    simp
  | cons c t ih =>
    rw [pieces] at hf
    split_ifs at hf with hc
    · rcases List.mem_cons.1 hf with rfl | hf
      · simp
      · exact ih hf
    · obtain ⟨g, gs, hpieces⟩ := List.exists_cons_of_ne_nil (pieces_ne_nil cut t)
      rw [hpieces, List.modifyHead_cons] at hf
      rcases List.mem_cons.1 hf with rfl | hf
      · intro d hd
        rcases List.mem_cons.1 hd with rfl | hd
        · exact Bool.eq_false_iff.2 hc
        · exact ih (hpieces ▸ List.mem_cons_self) d hd
      · exact ih (hpieces ▸ List.mem_cons_of_mem g hf)

def size (f : Char → Nat) (t : Text) : Nat := (t.map f).sum

theorem size_cons (f : Char → Nat) (c : Char) (t : Text) : size f (c :: t) = f c + size f t := List.sum_cons

theorem size_append (f : Char → Nat) (s t : Text) : size f (s ++ t) = size f s + size f t := by
  rw [size, List.map_append, List.sum_append]
  rfl

theorem length_eq_size (t : Text) : t.length = size (fun _ => 1) t := by simp [size]

theorem byteCount_eq_size (t : Text) : t.byteCount = size Char.utf8Size t := by
  induction t with
  | nil => rfl
  | cons c t ih => rw [byteCount, size_cons, ih]

/-- A piece loses the character that ends it. -/
theorem sum_size_pieces {f : Char → Nat} (hf : ∀ c, 1 ≤ f c) (cut : Char → Bool) (t : Text) :
    ((t.pieces cut).map (size f · + 1)).sum ≤ size f t + 1 := by
  induction t with
  | nil => exact le_refl _
  | cons c t ih =>
    have hc := hf c
    rw [pieces, size_cons]
    split_ifs
    · rw [List.map_cons, List.sum_cons]
      change 0 + 1 + _ ≤ _
      omega
    · obtain ⟨g, gs, hpieces⟩ := List.exists_cons_of_ne_nil (pieces_ne_nil cut t)
      rw [hpieces, List.map_cons, List.sum_cons] at ih
      rw [hpieces, List.modifyHead_cons, List.map_cons, List.sum_cons, size_cons]
      omega

theorem join_cons_cons (separator t u : Text) (us : List Text) :
    join separator (t :: u :: us) = t ++ separator ++ join separator (u :: us) := rfl

theorem mem_join {separator : Text} {ts : List Text} {t : Text} (ht : t ∈ ts) {c : Char} (hc : c ∈ t) :
    c ∈ join separator ts := by
  induction ts with
  | nil => simp at ht
  | cons u us ih =>
    cases us with
    | nil => rwa [List.mem_singleton.1 ht] at hc
    | cons v vs =>
      rw [join_cons_cons]
      rcases List.mem_cons.1 ht with rfl | ht
      · exact List.mem_append_left _ (List.mem_append_left _ hc)
      · exact List.mem_append_right _ (ih ht)

/-- What is joined begins and ends with characters of the texts. -/
theorem ends_join (separator : Text) {ts : List Text} (hts : ts ≠ []) (hne : ∀ t ∈ ts, t ≠ []) :
    (∃ t ∈ ts, ∃ c ∈ t, (join separator ts).head? = some c) ∧
      ∃ t ∈ ts, ∃ c ∈ t, (join separator ts).getLast? = some c := by
  induction ts with
  | nil => contradiction
  | cons t ts ih =>
    have ht := hne t List.mem_cons_self
    have hhead : ∀ s, ∃ c ∈ t, (t ++ s).head? = some c := fun s =>
      ⟨t.head ht, List.head_mem ht, by rw [List.head?_append_of_ne_nil _ ht, List.head?_eq_some_head ht]⟩
    cases ts with
    | nil =>
      obtain ⟨c, hc, hhead⟩ := hhead []
      rw [List.append_nil] at hhead
      exact ⟨⟨t, List.mem_cons_self, c, hc, hhead⟩, t, List.mem_cons_self, t.getLast ht, List.getLast_mem ht,
        List.getLast?_eq_some_getLast ht⟩
    | cons u us =>
      obtain ⟨-, v, hv, d, hd, hlast⟩ := ih (List.cons_ne_nil u us) fun v hv => hne v (List.mem_cons_of_mem _ hv)
      obtain ⟨c, hc, hhead⟩ := hhead (separator ++ join separator (u :: us))
      have hrest : join separator (u :: us) ≠ [] := by
        intro hnil
        rw [hnil] at hlast
        contradiction
      rw [join_cons_cons]
      refine ⟨⟨t, List.mem_cons_self, c, hc, by rw [List.append_assoc, hhead]⟩, v, List.mem_cons_of_mem _ hv, d, hd, ?_⟩
      rw [List.getLast?_append_of_ne_nil _ hrest, hlast]

theorem size_join {f : Char → Nat} {separator : Char} (hf : f separator = 1) {ts : List Text} (hts : ts ≠ []) :
    size f (join [separator] ts) + 1 = (ts.map (size f · + 1)).sum := by
  induction ts with
  | nil => contradiction
  | cons t ts ih =>
    rcases ts with _ | ⟨u, us⟩
    · rfl
    · have ih := ih (List.cons_ne_nil u us)
      have hseparator : size f [separator] = 1 := hf
      rw [join_cons_cons, List.map_cons, List.sum_cons, ← ih, size_append, size_append, hseparator]
      omega

/-! ### Fields -/

theorem of_mem_fields {f : Text} (hf : f ∈ t.fields) : f ≠ [] ∧ ∀ c ∈ f, isBlank c = false := by
  obtain ⟨hpiece, hne⟩ := List.mem_filter.1 hf
  exact ⟨by simpa using hne, not_cut_of_mem_pieces hpiece⟩

theorem fields_append_blank (s : Text) {b : Char} (hb : isBlank b = true) (t : Text) :
    (s ++ b :: t).fields = s.fields ++ t.fields := by
  rw [fields, pieces_append_cut s hb, List.filter_append]
  rfl

theorem fields_cons_blank {b : Char} (hb : isBlank b = true) (t : Text) : fields (b :: t) = fields t :=
  fields_append_blank [] hb t

theorem fields_append_blanks (s : Text) {bs : Text} (hbs : ∀ b ∈ bs, isBlank b = true) :
    (s ++ bs).fields = s.fields := by
  induction bs generalizing s with
  | nil => rw [List.append_nil]
  | cons b bs ih =>
    obtain ⟨hb, hbs⟩ := List.forall_mem_cons.1 hbs
    have hnil : fields bs = [] := ih [] hbs
    rw [fields_append_blank s hb, hnil, List.append_nil]

/-- A text has a field if something in it is not blank. -/
theorem fields_ne_nil_iff : t.fields ≠ [] ↔ ∃ c ∈ t, isBlank c = false := by
  constructor
  · intro hfields
    by_contra hall
    have hblank : ∀ c ∈ t, isBlank c = true := fun c hc => by
      by_contra hc'
      exact hall ⟨c, hc, Bool.eq_false_iff.2 hc'⟩
    exact hfields (fields_append_blanks [] hblank)
  · rintro ⟨c, hc, hblank⟩ hnil
    induction t with
    | nil => simp at hc
    | cons d t ih =>
      by_cases hd : isBlank d = true
      · rw [fields_cons_blank hd] at hnil
        rcases List.mem_cons.1 hc with rfl | hc
        · rw [hblank] at hd
          contradiction
        · exact ih hc hnil
      · -- the first piece has this character
        obtain ⟨g, gs, hpieces⟩ := List.exists_cons_of_ne_nil (pieces_ne_nil isBlank t)
        rw [fields, pieces, if_neg hd, hpieces, List.modifyHead_cons, List.filter_cons_of_pos (by simp)] at hnil
        contradiction

theorem fields_trim (t : Text) : t.trim.fields = t.fields := by
  have hleft : ∀ s : Text, fields (s.dropWhile isBlank) = s.fields := by
    intro s
    induction s with
    | nil => rfl
    | cons c s ih =>
      rw [List.dropWhile_cons]
      split_ifs with hc
      · rw [ih, fields_cons_blank hc]
      · rfl
  have hright : ∀ s : Text, fields (s.reverse.dropWhile isBlank).reverse = s.fields := by
    intro s
    have hparts : s = (s.reverse.dropWhile isBlank).reverse ++ (s.reverse.takeWhile isBlank).reverse := by
      rw [← List.reverse_append, List.takeWhile_append_dropWhile, List.reverse_reverse]
    have hblanks : ∀ c ∈ (s.reverse.takeWhile isBlank).reverse, isBlank c = true := fun c hc =>
      List.mem_takeWhile_imp (List.mem_reverse.1 hc)
    conv_rhs => rw [hparts]
    rw [fields_append_blanks _ hblanks]
  rw [trim, hright, hleft]

/-- What a text is trimmed to is empty if it has no fields. -/
theorem trim_eq_nil_iff : t.trim = [] ↔ t.fields = [] := by
  refine ⟨fun h => by rw [← fields_trim, h]; rfl, fun h => ?_⟩
  have hblank : ∀ c ∈ t, isBlank c = true := fun c hc => by
    by_contra hc'
    exact fields_ne_nil_iff.2 ⟨c, hc, Bool.eq_false_iff.2 hc'⟩ h
  rw [trim, List.dropWhile_eq_nil_iff.2 hblank]
  rfl

/-- Between fields no more than one space is left. -/
theorem size_join_fields_le {f : Char → Nat} (hf : ∀ c, 1 ≤ f c) (hspace : f ' ' = 1) (t : Text) :
    size f (join [' '] t.fields) ≤ size f t := by
  by_cases hfields : t.fields = []
  · rw [hfields]
    exact Nat.zero_le _
  · have hsub : (t.fields.map (size f · + 1)).sum ≤ ((t.pieces isBlank).map (size f · + 1)).sum :=
      (List.filter_sublist.map _).sum_le_sum fun _ _ => Nat.zero_le _
    have hpieces := sum_size_pieces hf isBlank t
    rw [← size_join hspace hfields] at hsub
    omega

theorem length_join_fields_le (t : Text) : (join [' '] t.fields).length ≤ t.length := by
  rw [length_eq_size, length_eq_size]
  exact size_join_fields_le (fun _ => le_refl 1) rfl t

theorem byteCount_join_fields_le (t : Text) : (join [' '] t.fields).byteCount ≤ t.byteCount := by
  rw [byteCount_eq_size, byteCount_eq_size]
  exact size_join_fields_le Char.utf8Size_pos (by decide) t

end WordPattern.Text
