import WordPattern.Options

/-! The arguments of the command line.

A long option is written with two hyphens and takes its value after an equals sign or as the next argument. Short
options are single letters after one hyphen and can stand together; the first one that takes a value takes the rest of
the argument, or else the next one. A value that is an argument of its own does not begin with a hyphen, unless it is a
hyphen alone. After two hyphens everything is a word. -/

namespace WordPattern.CommandLine

inductive Switch where
  | noAtomic | possessive | ignoreCase | multiline | trim | normalizeBlanks | notExtended | vet | debug
  deriving DecidableEq, Repr

/-- Settings that take a value. -/
inductive Field where
  | bound | edge | name | special | file
  deriving DecidableEq, Repr

/-- What an option on the command line sets. -/
inductive Setting where
  | switch (s : Switch)
  | field (f : Field)
  deriving DecidableEq, Repr

/-- The setting of a long option. -/
def longSetting? (name : Text) : Option Setting :=
  [("no-atomic", .switch .noAtomic), ("possessive", .switch .possessive), ("case-insensitive", .switch .ignoreCase),
    ("multiline", .switch .multiline), ("trim", .switch .trim), ("normalize-whitespace", .switch .normalizeBlanks),
    ("not-extended", .switch .notExtended), ("vet", .switch .vet), ("debug", .switch .debug), ("bound", .field .bound),
    ("edge", .field .edge), ("name", .field .name), ("special", .field .special),
    ("file", .field .file)].lookup (String.ofList name)

/-- The setting of a short option. -/
def shortSetting? (letter : Char) : Option Setting :=
  [('i', Setting.switch .ignoreCase), ('m', .switch .multiline), ('w', .switch .normalizeBlanks),
    ('d', .switch .debug), ('b', .field .bound), ('n', .field .name), ('s', .field .special),
    ('f', .field .file)].lookup letter

/-- The arguments sorted by what they are, each kind in order. -/
structure Arguments where
  switches : List Switch := []
  fields : List (Field × Text) := []
  words : List Text := []
  deriving DecidableEq, Repr

namespace Arguments

def addSwitch (s : Switch) (a : Arguments) : Arguments := { a with switches := s :: a.switches }

def addField (f : Field) (value : Text) (a : Arguments) : Arguments := { a with fields := (f, value) :: a.fields }

def addWord (word : Text) (a : Arguments) : Arguments := { a with words := word :: a.words }

/-- The text before and after the first equals sign. -/
def splitEquals? (text : Text) : Option (Text × Text) :=
  match text.dropWhile (· != '=') with
  | _ :: value => some (text.takeWhile (· != '='), value)
  | [] => none

/-- Whether an argument can be the value of the option before it. -/
def isValue (arg : Text) : Bool := arg = ['-'] || arg.head? != some '-'

/-- What the short options of one argument set, and the option that still waits for its value. -/
def shortSettings : Text → Option ((Arguments → Arguments) × Option Field)
  | [] => some (id, none)
  | letter :: rest =>
    match shortSetting? letter with
    | none => none
    | some (.switch s) => (shortSettings rest).map fun (add, waiting) => (addSwitch s ∘ add, waiting)
    | some (.field f) =>
      match rest with
      | [] => some (id, some f)
      | '=' :: value => some (addField f value, none)
      | value => some (addField f value, none)

/-- What a long option sets, and the option that still waits for its value. -/
def longSettings (text : Text) : Option ((Arguments → Arguments) × Option Field) :=
  match splitEquals? text with
  | some (name, value) =>
    match longSetting? name with
    | some (.field f) => some (addField f value, none)
    | _ => none
  | none =>
    match longSetting? text with
    | some (.switch s) => some (addSwitch s, none)
    | some (.field f) => some (id, some f)
    | none => none

/-- Reads arguments; `waiting` is the option that the next argument is the value of. -/
def read (waiting : Option Field) : List Text → Option Arguments
  | [] => if waiting.isNone then some {} else none
  | arg :: rest =>
    match waiting with
    | some f => if isValue arg then (read none rest).map (addField f arg) else none
    | none =>
      let proceed (settings : Option ((Arguments → Arguments) × Option Field)) : Option Arguments :=
        match settings with
        | some (add, waiting) => (read waiting rest).map add
        | none => none
      match arg with
      | ['-', '-'] => some { words := rest }
      | '-' :: '-' :: text => proceed (longSettings text)
      | ['-'] => (read none rest).map (addWord arg)
      | '-' :: text => proceed (shortSettings text)
      | _ => (read none rest).map (addWord arg)

/-- No setting is given twice, but for specials. -/
def isConsistent (a : Arguments) : Bool :=
  a.switches.Nodup && ((a.fields.map (·.1)).filter (· != .special)).Nodup

def field? (a : Arguments) (f : Field) : Option Text := a.fields.lookup f

def has (a : Arguments) (s : Switch) : Bool := a.switches.contains s

/-- The texts that specials are given as. -/
def specials (a : Arguments) : List Text := (a.fields.filter (·.1 = .special)).map (·.2)

end Arguments

inductive Command where
  /-- Prints the pattern, or with `debug` a report. -/
  | pattern (debug : Bool)
  /-- Prints the matches in the input. -/
  | test (input : Text)
  deriving DecidableEq, Repr

/-- A well-formed command line. -/
structure Request where
  command : Command
  words : List Text
  file : Option Text
  /-- The options but for the specials. -/
  options : Options
  /-- Specials, each as a key, an equals sign and a pattern. -/
  specials : List Text
  deriving DecidableEq, Repr

def edges? (value : Text) : Option Edges :=
  [("both", Edges.both), ("left", .left), ("right", .right)].lookup (String.ofList value)

def bound? (value : Text) (edges : Edges) : Option Bound :=
  [("word", Bound.word edges), ("string", .text edges), ("line", .line edges)].lookup (String.ofList value)

/-- The options but for the specials. Edges say nothing without a boundary. -/
def Arguments.options? (a : Arguments) : Option Options := do
  let edges ← match a.field? .edge with
    | some value => edges? value
    | none => some .both
  let bound ← match a.field? .bound with
    | some value => bound? value edges
    | none => some .none
  return {
    atomic := !a.has .noAtomic
    mode := if a.has .possessive then .possessive else .backtracking
    bound := bound
    trim := a.has .trim
    ignoreCase := a.has .ignoreCase
    multiline := a.has .multiline
    notExtended := a.has .notExtended
    normalizeBlanks := a.has .normalizeBlanks
    name := a.field? .name
    vet := a.has .vet }

/-- Reads a command line: a command and its arguments. Only `pattern` can be debugged, and `test` needs an input. -/
def Request.parse? (args : List Text) : Option Request := do
  let name :: rest := args | none
  let a ← Arguments.read none rest
  guard a.isConsistent
  let options ← a.options?
  let request (command : Command) (words : List Text) : Request :=
    ⟨command, words, a.field? .file, options, a.specials⟩
  if name = "pattern".toList then return request (.pattern (a.has .debug)) a.words
  else if name = "test".toList then
    guard (!a.has .debug)
    let input :: words := a.words | none
    return request (.test input) words
  else none

end WordPattern.CommandLine
