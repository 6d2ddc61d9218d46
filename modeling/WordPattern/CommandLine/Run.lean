import WordPattern.CommandLine.Arguments
import WordPattern.Report

/-! What the commands do. -/

namespace WordPattern.CommandLine

/-- Why a command failed. -/
inductive Failure where
  | usage
  | unreadable (path reason : Text)
  | badSpecial (special : Text)
  | refused (e : Error)
  deriving DecidableEq, Repr

def Failure.message : Failure → Text
  | .usage => "usage: pattern [OPTIONS] [WORDS]... | test [OPTIONS] INPUT [WORDS]...".toList
  | .unreadable path reason => "cannot read ".toList ++ path ++ [':', ' '] ++ reason
  | .badSpecial special => "special ".toList ++ special ++ " is not of the form KEY=PATTERN".toList
  | .refused e => e.message.toList

/-- What a command prints, and why it failed if it did. -/
structure Outcome where
  output : Text
  /-- The command found what it looked for. -/
  success : Bool
  failure : Option Failure
  deriving DecidableEq, Repr

/-- The exit status: 2 for a command line that is not well-formed, 1 for other failures. -/
def Outcome.exitCode (o : Outcome) : Nat :=
  match o.failure with
  | some .usage => 2
  | some _ => 1
  | none => if o.success then 0 else 1

/-- The text for standard error. -/
def Outcome.errorText (o : Outcome) : Text :=
  match o.failure with
  | some failure => "Error: ".toList ++ failure.message ++ ['\n']
  | none => []

/-- A key between slashes is a regular expression, unless nothing is between them. -/
def keyOf (text : Text) : Key :=
  match text with
  | '/' :: rest =>
    if rest.getLast? = some '/' && !rest.dropLast.isEmpty then .regex rest.dropLast else .literal text
  | _ => .literal text

/-- The options with the specials of a request. -/
def Request.allOptions (r : Request) : Except Failure Options :=
  r.specials.foldlM (fun options text =>
    match Arguments.splitEquals? text with
    | some (key, pattern) => .ok (options.special (keyOf key) { pattern := some pattern })
    | none => .error (.badSpecial text)) r.options

def refuse {α : Type} (e : Except Error α) : Except Failure α := e.mapError .refused

/-- The words of a request: those of the command line, then the lines of the file. -/
def Request.allWords (readFile : Text → Except Text Text) (r : Request) : Except Failure (List Text) :=
  match r.file with
  | none => .ok r.words
  | some path =>
    match readFile path with
    | .ok text => .ok (r.words ++ text.lines)
    | .error reason => .error (.unreadable path reason)

/-- The line of a match, numbered from 1. -/
def matchLine (number : Nat) (m : Regex.Match) : Text :=
  [' ', ' ', '['] ++ Nat.toDigits 10 number ++ [']', ' '] ++ Nat.toDigits 10 m.start.byteOffset ++ ['.', '.'] ++
    Nat.toDigits 10 m.stop.byteOffset ++ [' ', '=', ' '] ++ m.text ++ ['\n']

/-- The report on the matches in an input, and whether there are any. -/
def testOutput (pattern input : Text) (found : List Regex.Match) : Text × Bool :=
  let header := "Testing pattern...\n  Pattern: ".toList ++ pattern ++ "\n  Input:   ".toList ++ input ++ ['\n', '\n']
  let lines := found.zipIdx.flatMap fun (m, i) => matchLine (i + 1) m
  if found.isEmpty then (header ++ "✗ No match\n".toList, false) else (header ++ lines, true)

/-- What a request prints, and whether it found what it looked for. -/
def Request.run (readFile : Text → Except Text Text) (r : Request) : Except Failure (Text × Bool) := do
  let words ← r.allWords readFile
  let options ← r.allOptions
  let generator ← refuse (Generator.ofOptions options)
  match r.command with
  | .pattern true =>
    let report ← refuse (generator.report words)
    return (report.print, true)
  | .pattern false =>
    let pattern ← refuse (generator.pattern words)
    return (pattern.getD "(nothing to match)".toList ++ ['\n'], true)
  | .test input =>
    let pattern ← refuse (generator.pattern words)
    let regex ← refuse (generator.regex words)
    return testOutput (pattern.getD nothingText) input (regex.findAll input)

/-- Runs a command line. -/
def run (readFile : Text → Except Text Text) (args : List Text) : Outcome :=
  match Request.parse? args with
  | none => ⟨[], false, some .usage⟩
  | some request =>
    match request.run readFile with
    | .ok (output, success) => ⟨output, success, none⟩
    | .error failure => ⟨[], false, some failure⟩

end WordPattern.CommandLine
