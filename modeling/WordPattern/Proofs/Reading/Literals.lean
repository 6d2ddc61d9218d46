import Mathlib.Data.List.Basic
import WordPattern.Proofs.Reading.Tokens
import WordPattern.Regex.Parser

/-! Quoted texts are read as their characters.

What a character is quoted by is one token, whatever is quoted after it; so reading undoes quoting, of one text and of
texts one after the other. -/

namespace WordPattern.Regex

/-- The tokens of a quoted text are its characters. -/
theorem lexes_quote (t : Text) : Lexes (quote t) (t.map .char) ∧ Opens (quote t) := by
  rw [quote_eq_flatMap]
  induction t with
  | nil => exact ⟨lexes_nil, opens_nil⟩
  | cons c t ih => exact ⟨(lexes_quoteChar c).append ih.1 ih.2, (opens_quoteChar c).append ih.2⟩

theorem quote_append (s t : Text) : quote (s ++ t) = quote s ++ quote t := by
  simp only [quote_eq_flatMap, List.flatMap_append]

theorem quote_injective : Function.Injective quote := by
  intro s t h
  have htokens : s.map Token.char = t.map Token.char := by
    refine (lexes_quote s).1.unique ?_
    rw [h]
    exact (lexes_quote t).1
  exact List.map_injective_iff.2 (fun _ _ => Token.char.inj) htokens

/-- Characters become items of the branch that is read. -/
theorem ParseState.steps_chars (s : ParseState) (t : Text) : ∃ tail, s.steps (t.map .char) = .ok (s.modifyTop fun f =>
    { f with items := (t.map (Expr.char · s.flags.ignoreCase)).reverse ++ f.items, tail := tail }) := by
  induction t generalizing s with
  | nil => exact ⟨s.top.tail, rfl⟩
  | cons c t ih =>
    obtain ⟨tail, h⟩ := ih (s.push (.char c s.flags.ignoreCase))
    refine ⟨tail, ?_⟩
    rw [List.map_cons, ParseState.steps]
    change (s.push (.char c s.flags.ignoreCase)).steps _ = _
    rw [h]
    simp [ParseState.push, ParseState.modifyTop]

theorem parse_quote (t : Text) : parse (quote t) = .ok ⟨.sequence (t.map (.char · false)), []⟩ := by
  obtain ⟨tail, hsteps⟩ := ParseState.start.steps_chars t
  have htokens : tokens (quote t) = .ok (t.map .char) := (lexes_quote t).1.tokens_eq
  unfold parse
  rw [htokens]
  change (ParseState.start.steps (t.map .char)).bind _ = _
  rw [hsteps]
  simp [Except.bind, ParseState.modifyTop, ParseState.start, Frame.start, Frame.body, Frame.branch, Expr.choice, pure,
    Except.pure]

/-- A text is quoted character by character, and read back as just these characters, also if another quoted text
follows; so no two texts are quoted alike. -/
theorem quote_undone (s t : Text) :
    quote s = (s.map quoteChar).flatten ∧
    parse (quote s) = .ok ⟨.sequence (s.map (.char · false)), []⟩ ∧
    parse (quote s ++ quote t) = .ok ⟨.sequence ((s ++ t).map (.char · false)), []⟩ ∧
    Function.Injective quote := by
  refine ⟨?_, parse_quote s, ?_, quote_injective⟩
  · rw [quote_eq_flatMap, List.flatMap_def]
  · rw [← quote_append]
    exact parse_quote (s ++ t)

end WordPattern.Regex
