import WordPattern.Text.Ascending
import WordPattern.Text.Quoted
import WordPattern.Unicode.Case
import WordPattern.Unicode.Letter
import WordPattern.Regex.Quote
import WordPattern.Regex.Search
import WordPattern.CharClass
import WordPattern.Repeats
import WordPattern.Node.Outline
import WordPattern.Node.Pattern
import WordPattern.Settings
import WordPattern.Factoring
import WordPattern.Vocabulary
import WordPattern.Node.Words
import WordPattern.CommandLine.Run
import WordPattern.Main
import WordPattern.Proofs.Folding
import WordPattern.Proofs.Generation.Checked
import WordPattern.Proofs.Generation.Occurrence
import WordPattern.Proofs.Search.Exact
import WordPattern.Proofs.Generation.Unambiguous
import WordPattern.Proofs.Search.Folded
import WordPattern.Proofs.Languages.Words
import WordPattern.Proofs.Search.Spaced
import WordPattern.Proofs.Search.Embedded
import WordPattern.Proofs.Output.Compiles
import WordPattern.Proofs.Output.Escapes
import WordPattern.Proofs.Output.Items
import WordPattern.Proofs.Output.Units
import WordPattern.Proofs.Trees.LeastProduct
import WordPattern.Proofs.Generation.LongestKey
import WordPattern.Proofs.Lowercase
import WordPattern.Proofs.Generation.Idempotence
import WordPattern.Proofs.Languages.Abbreviation
import WordPattern.Proofs.Trees.Flattening
import WordPattern.Proofs.Trees.Recursion
import WordPattern.Proofs.Trees.Canonical
import WordPattern.Proofs.Languages.Classes
import WordPattern.Proofs.Writing.Runs
import WordPattern.Proofs.Languages.NextChars
