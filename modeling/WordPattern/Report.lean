import WordPattern.Generator

/-! Reports on how a pattern came about. -/

namespace WordPattern

structure Report where
  /-- The words as they were given. -/
  input : List Text
  /-- The words of the vocabulary, with the labels of symbols in angle brackets. -/
  normalized : List Text
  leftBounded : Bool
  rightBounded : Bool
  /-- The outline of the tree. -/
  tree : Text
  /-- The pattern, if any word is left after filtering. -/
  output : Option Text
  deriving DecidableEq, Repr

/-- A word with the labels of its symbols. -/
def SymbolTable.labelled (table : SymbolTable) (word : Text) : Text :=
  word.flatMap fun c =>
    match table.lookup? c with
    | some s => '<' :: s.label ++ ['>']
    | none => [c]

def Generator.report (g : Generator) (words : List Text) : Except Error Report :=
  (g.settings.generate words).map fun
    | none => ⟨words, [], false, false, [], none⟩
    | some run =>
      ⟨words, run.vocabulary.words.map run.table.labelled, run.vocabulary.leftUsed, run.vocabulary.rightUsed,
        run.root.outline, some run.pattern⟩

namespace Report

/-- The ends at which some word has a boundary. -/
def boundedEnds (r : Report) : String :=
  match r.leftBounded, r.rightBounded with
  | true, true => "left and right"
  | true, false => "left"
  | false, true => "right"
  | false, false => "none"

/-- The printed report. -/
def print (r : Report) : Text :=
  "Pattern Report\n==============\nInput:      ".toList ++ Text.quotedList r.input ++
    "\nNormalized: ".toList ++ Text.quotedList r.normalized ++
    "\nBoundaries: ".toList ++ r.boundedEnds.toList ++
    "\nTree:\n".toList ++ r.tree.lines.flatMap (fun line => [' ', ' '] ++ line ++ ['\n']) ++
    "Output:     ".toList ++ r.output.getD nothingText ++ ['\n']

end Report

end WordPattern
