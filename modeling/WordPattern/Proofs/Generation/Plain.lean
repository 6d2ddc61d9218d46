import WordPattern.Proofs.Generation.Checked
import WordPattern.Proofs.Trees.Preference

/-! Lists without specials, where case counts: the options that ask for them, and where a word of theirs occurs.

What a bound asserts next to a word is told by the bound alone, whatever specials there are. -/

namespace WordPattern

open Regex

/-! ### Occurrences -/

def Bound.leftAssertion : Bound → Option Anchor
  | .word edges => if edges.hasLeft then some .wordEdge else .none
  | .text edges => if edges.hasLeft then some .textStart else .none
  | .line edges => if edges.hasLeft then some .lineStart else .none
  | .none | .custom _ _ _ => .none

def Bound.rightAssertion : Bound → Option Anchor
  | .word edges => if edges.hasRight then some .wordEdge else .none
  | .text edges => if edges.hasRight then some .textEnd else .none
  | .line edges => if edges.hasRight then some .lineEnd else .none
  | .none | .custom _ _ _ => .none

def Bound.admits (bound : Bound) (c : Char) : Bool :=
  match bound with
  | .word _ => c.isAlphanum || c = '_'
  | _ => c != '\n'

/-- A word stands between two places of a text, and what the bound asserts next to its ends holds. -/
structure Occurs (bound : Bound) (w : Text) (p q : Cursor) : Prop where
  after : p.after = w ++ q.after
  before : q.before = w.reverse ++ p.before
  left : ∀ a, bound.leftAssertion = some a → w.head?.any bound.admits → a.holds p
  right : ∀ a, bound.rightAssertion = some a → w.getLast?.any bound.admits → a.holds q

theorem Occurs.position {bound : Bound} {w : Text} {p q : Cursor} (h : Occurs bound w p q) :
    q.position = p.position + w.length := by
  rw [Cursor.position, h.before, List.length_append, List.length_reverse, Cursor.position, Nat.add_comm]

/-- Where a word ends is told by its length. -/
theorem Occurs.eq_of_position {bound : Bound} {v w : Text} {p q r : Cursor} (h : Occurs bound v p q)
    (h' : Occurs bound w p r) (heq : q.position = r.position) : q = r := by
  have hlength : v.length = w.length := by
    rw [h.position, h'.position] at heq
    omega
  obtain ⟨rfl, hafter⟩ := List.append_inj (h.after.symm.trans h'.after) hlength
  have hbefore : q.before = r.before := h.before.trans h'.before.symm
  cases q
  cases r
  simp_all

/-! ### Options -/

/-- Case counts, there are no specials, and what a bound asserts is fixed. -/
structure Options.IsPlain (o : Options) : Prop where
  name : ∀ name, o.name = some name → isGroupName name = true
  bound : o.bound.IsFixed
  ignoreCase : o.ignoreCase = false
  notExtended : o.notExtended = false
  normalizeBlanks : o.normalizeBlanks = false
  specials : o.specials = []

section Plain

variable {o : Options} {settings : Settings} {words : List Text}

/-- No special is implied where blanks and `#` are no concern. -/
theorem Options.allSpecials_eq_nil (hspecials : o.specials = []) (hextended : o.notExtended = false)
    (hblanks : o.normalizeBlanks = false) : o.allSpecials = [] := by
  simp [Options.allSpecials, hblanks, hextended, hspecials]

theorem Options.IsPlain.allSpecials (ho : o.IsPlain) : o.allSpecials = [] :=
  Options.allSpecials_eq_nil ho.specials ho.notExtended ho.normalizeBlanks

theorem Settings.rules_eq_nil (h : Settings.ofOptions o = .ok settings) (hnone : o.allSpecials = []) :
    settings.rules = [] := by
  obtain ⟨-, boundary, rules, -, hrules, rfl⟩ := Settings.ofOptions_eq_ok h
  rw [hnone] at hrules
  exact (Except.ok.inj hrules).symm

/-- Nothing about such options is refused. -/
theorem Options.IsPlain.exists_settings (ho : o.IsPlain) : ∃ settings, Settings.ofOptions o = .ok settings :=
  Settings.exists_ofOptions ho.name ho.bound (by rw [ho.allSpecials]; rfl) fun _ h => absurd h List.not_mem_nil

/-- Case counts, and what the boundary asserts is what the bound does. -/
structure Settings.Asserts (settings : Settings) (bound : Bound) : Prop where
  ignoreCase : settings.ignoreCase = false
  left : (settings.boundary.bind (·.left)).map (fun pattern =>
    Verbatim.anchor settings.multiline ⟨pattern, true, false, false, .leftBoundary⟩) = bound.leftAssertion
  right : (settings.boundary.bind (·.right)).map (fun pattern => Verbatim.anchor settings.multiline
    ⟨pattern, true, false, false, if pattern = ['\\', 'z'] then .finish else .rightBoundary⟩) = bound.rightAssertion
  test : settings.boundary ≠ none → ∀ c, settings.passesTest c = bound.admits c
  name : ∀ name, settings.name = some name → isGroupName name = true
  fixed : settings.Fixed

theorem Settings.asserts_of_ofOptions (h : Settings.ofOptions o = .ok settings) (hbound : o.bound.IsFixed)
    (hcase : o.ignoreCase = false) : settings.Asserts o.bound := by
  have hfixed := Settings.fixed_of_isFixed h hbound
  obtain ⟨hname, boundary, rules, hboundary, -, hsettings⟩ := Settings.ofOptions_eq_ok h
  have hassertions : ∀ multiline, (∀ edges, o.bound = .line edges → multiline = true) →
      (boundary.bind (·.left)).map (fun pattern =>
        Verbatim.anchor multiline ⟨pattern, true, false, false, .leftBoundary⟩) = o.bound.leftAssertion ∧
      (boundary.bind (·.right)).map (fun pattern => Verbatim.anchor multiline
        ⟨pattern, true, false, false, if pattern = ['\\', 'z'] then .finish else .rightBoundary⟩) =
          o.bound.rightAssertion ∧
      (boundary ≠ none → ∀ c, boundary.any (·.test.holds c) = o.bound.admits c) := by
    intro multiline hline
    cases hb : o.bound with
    | none =>
      rw [hb] at hboundary
      obtain rfl := Except.ok.inj hboundary
      exact ⟨rfl, rfl, fun h => absurd rfl h⟩
    | word edges | text edges =>
      rw [hb] at hboundary
      obtain rfl := Except.ok.inj hboundary
      cases edges <;> exact ⟨rfl, rfl, fun _ _ => rfl⟩
    | line edges =>
      rw [hb] at hboundary
      obtain rfl := Except.ok.inj hboundary
      obtain rfl := hline edges hb
      cases edges <;> exact ⟨rfl, rfl, fun _ _ => rfl⟩
    | custom => rw [hb] at hbound; exact hbound.elim
  have hmultiline : ∀ edges, o.bound = .line edges → settings.multiline = true := by
    intro edges hb
    rw [hsettings, hb]
    exact Bool.or_true _
  obtain ⟨hleft, hright, htest⟩ := hassertions settings.multiline hmultiline
  subst hsettings
  exact ⟨hcase, hleft, hright, htest, hname, hfixed⟩

/-- What the settings of such options are. -/
structure Settings.IsPlain (settings : Settings) (bound : Bound) : Prop extends settings.Asserts bound where
  rules : settings.rules = []
  normalizeBlanks : settings.normalizeBlanks = false

theorem Options.IsPlain.isPlain (ho : o.IsPlain) (h : Settings.ofOptions o = .ok settings) :
    settings.IsPlain o.bound := by
  refine ⟨Settings.asserts_of_ofOptions h ho.bound ho.ignoreCase, Settings.rules_eq_nil h ho.allSpecials, ?_⟩
  obtain ⟨-, boundary, rules, -, -, rfl⟩ := Settings.ofOptions_eq_ok h
  exact ho.normalizeBlanks

theorem Text.trim_sublist (t : Text) : t.trim.Sublist t := by
  unfold Text.trim
  rw [← List.reverse_reverse t]
  refine List.Sublist.reverse ?_
  rw [List.reverse_reverse]
  exact (List.dropWhile_sublist _).trans (List.dropWhile_sublist _).reverse

/-- An item is what is left of a given word. -/
theorem Settings.of_filter (hblanks : settings.normalizeBlanks = false) {w : Text} (hw : w ∈ settings.filter words) :
    w ≠ [] ∧ ∃ v ∈ words, w.Sublist v := by
  obtain ⟨v, hv, hw⟩ := List.mem_filterMap.1 hw
  simp only [hblanks, Bool.false_eq_true, if_false] at hw
  split_ifs at hw with htrimmed hempty hempty
  · obtain rfl := Option.some.inj hw
    exact ⟨by simpa using hempty, v, hv, v.trim_sublist⟩
  · obtain rfl := Option.some.inj hw
    exact ⟨by simpa using hempty, v, hv, .refl _⟩

theorem Settings.IsPlain.filter {bound : Bound} (hs : settings.IsPlain bound) (words : List Text) :
    ∀ w ∈ settings.filter words, w ≠ [] := fun _ hw =>
  (of_filter hs.normalizeBlanks hw).1

end Plain

/-! ### Vocabulary -/

/-- A word between the boundaries that it has earned. -/
def Settings.bounded (settings : Settings) (table : SymbolTable) (w : Text) : BoundedWord :=
  settings.boundedWord table [.literal w]

def SymbolTable.isRight (table : SymbolTable) (c : Char) : Bool := table.right.any (·.placeholder = c)

section Vocabulary

variable {settings : Settings} {table : SymbolTable} {words : List Text}

theorem cut_eq (hrules : settings.rules = []) (ht : table.Holds settings words) {w : Text} (hw : w ≠ []) :
    table.cut w = .ok [.literal w] := by
  have hsplitter : table.splitter = none := by
    have := ht.splitter
    rw [SymbolTable.rulesOf, hrules] at this
    exact (Except.ok.inj this).symm
  rw [SymbolTable.cut, hsplitter, SymbolTable.literalPiece, if_neg (by simpa using hw)]

end Vocabulary

end WordPattern
