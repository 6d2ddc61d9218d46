import WordPattern.Node.Outline
import WordPattern.Node.Pattern
import WordPattern.Node.Words
import WordPattern.Vocabulary

/-! From a list of words to the pattern that matches them. -/

namespace WordPattern

/-- The tree of words over a symbol table. -/
def SymbolTable.tree (table : SymbolTable) (settings : Settings) (words : List Text) : Node :=
  Node.build (fun c => (table.lookup? c).map (·.verbatim)) settings.ignoreCase words

/-- The text of a whole pattern: flags inside, the name around them, and a group of its own only if there is neither. -/
def Settings.wholePattern (settings : Settings) (root : Node) : Text :=
  let text := root.pattern settings.mode
  let flagged (text : Text) := match settings.flags with
    | some flags => ['(', '?'] ++ flags ++ ':' :: text ++ [')']
    | none => text
  match settings.name with
  | some name => ['(', '?', '<'] ++ name ++ '>' :: flagged text ++ [')']
  | none =>
    if settings.flags.isNone && settings.atomic && !root.isAtomic then settings.mode.group true text
    else flagged text

/-- A pattern with the stages that led to it. -/
structure Generation where
  table : SymbolTable
  vocabulary : Vocabulary
  root : Node
  pattern : Text

/-- Runs all stages. There is no pattern if no word is left after filtering. -/
def Settings.generate (settings : Settings) (words : List Text) : Except Error (Option Generation) :=
  let filtered := settings.filter words
  if filtered.isEmpty then .ok none
  else do
    let table ← SymbolTable.ofWords settings filtered
    let vocabulary ← Vocabulary.ofWords settings table filtered
    let root := table.tree settings vocabulary.words
    return some ⟨table, vocabulary, root, settings.wholePattern root⟩

/-- Checked options, kept with the options that they come from. -/
structure Generator where
  options : Options
  settings : Settings
  deriving DecidableEq, Repr

namespace Generator

def ofOptions (options : Options) : Except Error Generator :=
  (Settings.ofOptions options).map fun settings => ⟨options, settings⟩

/-- Another generator, from a changed copy of the options. -/
def revise (g : Generator) (change : Options → Options) : Except Error Generator := ofOptions (change g.options)

/-- The pattern that matches the words, if any word is left after filtering. -/
def pattern (g : Generator) (words : List Text) : Except Error (Option Text) :=
  (g.settings.generate words).map fun generation => generation.map (·.pattern)

/-- The compiled pattern; without words it matches nothing. -/
def regex (g : Generator) (words : List Text) : Except Error Regex := do
  let pattern ← g.pattern words
  compileOr .compile (pattern.getD nothingText)

end Generator

end WordPattern
