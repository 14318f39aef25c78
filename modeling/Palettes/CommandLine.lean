import Palettes.Config

/-!
The command line: options, one command, and the command's own options and
files. Options may stand anywhere on their side of the command, `--config` and
`-v` on either side. Words are read from left to right and the first fault is
the answer. An option's value is looked at when the next option or file comes,
or at the end of its side; an unknown option in between is told first.
-/
namespace Palettes

inductive CommandName where
  | resolve | events | tables
  deriving DecidableEq, Repr

def CommandName.named? : String → Option CommandName
  | "resolve" => some .resolve
  | "events" => some .events
  | "tables" => some .tables
  | _ => none

inductive Command where
  | resolve (files : List String) (table : String) (palette : Option String)
      (format : Option OutputFormat) (allowCycles : Bool)
  | events (files : List String) (table : String) (palette : Option String)
      (allowCycles : Bool)
  | tables (files : List String)
  deriving DecidableEq, Repr

structure CommandLine where
  config : Option String := none
  verbosity : Nat := 0
  command : Command
  deriving DecidableEq, Repr

/-- Why no command is run. -/
inductive UsageFault where
  | help
  | version
  /-- There is neither an option nor a command. -/
  | nothingGiven
  | missingOption
  | missingCommand
  | unknownCommand
  | unknownOption
  | badValue
  | repeated
  | unwantedValue
  deriving DecidableEq, Repr

/-- Asking for help or the version is no error. -/
def UsageFault.code : UsageFault → Nat
  | .help | .version => 0
  | _ => 2

namespace CommandLine

inductive Opt where
  | config | verbose | table | palette | format | allowCycles | help | version
  deriving DecidableEq, Repr

def Opt.takesValue : Opt → Bool
  | .config | .table | .palette | .format => true
  | .verbose | .allowCycles | .help | .version => false

/-- Whether an option may stand before the command or behind a given one. -/
def Opt.isKnown (side : Option CommandName) : Opt → Bool
  | .config | .verbose | .help => true
  | .version => side == none
  | .table | .palette | .allowCycles => side == some .resolve || side == some .events
  | .format => side == some .resolve

def Opt.ofLong? : String → Option Opt
  | "config" => some .config
  | "verbose" => some .verbose
  | "table" => some .table
  | "palette" => some .palette
  | "format" => some .format
  | "allow-cycles" => some .allowCycles
  | "help" => some .help
  | "version" => some .version
  | _ => none

def Opt.ofShort? : Char → Option Opt
  | 'v' => some .verbose
  | 't' => some .table
  | 'p' => some .palette
  | 'h' => some .help
  | 'V' => some .version
  | _ => none

/-- Words taken but not looked at yet. -/
inductive Pending where
  | none
  | value (opt : Opt) (word : Option String)
  | files (reversed : List String)

/-- One side of the command as read so far. -/
structure Side where
  config : Option String := none
  verbosity : Nat := 0
  table : Option String := none
  palette : Option String := none
  format : Option OutputFormat := none
  allowCycles : Bool := false
  files : List String := []
  pending : Pending := .none

namespace Side

/-- Give a value to an option that has none. -/
def setOnce {α : Type} (old : Option α) (new : Option α) : Except UsageFault (Option α) :=
  if old.isSome then .error .repeated
  else match new with
    | some a => .ok (some a)
    | none => .error .badValue

def nonempty? (s : String) : Option String := if s.isEmpty then none else some s

def setValue (s : Side) (word : String) : Opt → Except UsageFault Side
  | .config => do return { s with config := ← setOnce s.config (nonempty? word) }
  | .table => do return { s with table := ← setOnce s.table (some word) }
  | .palette => do return { s with palette := ← setOnce s.palette (some word) }
  | .format => do return { s with format := ← setOnce s.format (OutputFormat.named? word) }
  | .verbose | .allowCycles | .help | .version => .ok s

/-- Look at the words that are pending. -/
def settle (s : Side) : Except UsageFault Side :=
  let idle := { s with pending := .none }
  match s.pending with
  | .none => .ok s
  | .value _ none => .error .badValue
  | .value opt (some word) => idle.setValue word opt
  | .files reversed =>
    if reversed.all (!·.isEmpty) then .ok { idle with files := s.files ++ reversed.reverse }
    else .error .badValue

/-- An option that takes no value. -/
def setFlag (s : Side) : Opt → Except UsageFault Side
  | .verbose => .ok { s with verbosity := min (s.verbosity + 1) 255 }
  | .allowCycles => if s.allowCycles then .error .repeated else .ok { s with allowCycles := true }
  | .help => .error .help
  | .version => .error .version
  | .config | .table | .palette | .format => .ok s

/-- An option with the value attached to it, if there is one. -/
def option (s : Side) (opt : Opt) (attached : Option String) : Except UsageFault Side := do
  if opt.takesValue then
    let s ← s.settle
    match attached with
    | some word => s.setValue word opt
    | none => return { s with pending := .value opt none }
  else
    match attached with
    | some _ => throw .unwantedValue
    | none => (← s.settle).setFlag opt

/-- The options of one word behind its dash. The first that takes a value takes
the rest of the word, behind `=` if there is one. -/
def shorts (side : Option CommandName) (s : Side) : List Char → Except UsageFault Side
  | [] => .ok s
  | c :: cs =>
    match (Opt.ofShort? c).filter (·.isKnown side) with
    | none => .error .unknownOption
    | some opt =>
      if opt.takesValue then
        match cs with
        | [] => s.option opt none
        | '=' :: cs => s.option opt (some (String.ofList cs))
        | cs => s.option opt (some (String.ofList cs))
      else do shorts side (← s.option opt none) cs

/-- A word behind two dashes: a name, and a value behind `=`. -/
def long (side : Option CommandName) (s : Side) (cs : List Char) : Except UsageFault Side :=
  let name := String.ofList (cs.takeWhile (· != '='))
  let attached := match cs.dropWhile (· != '=') with
    | _ :: value => some (String.ofList value)
    | [] => none
  match (Opt.ofLong? name).filter (·.isKnown side) with
  | none => .error .unknownOption
  | some opt => s.option opt attached

def file (s : Side) (word : String) : Except UsageFault Side :=
  match s.pending with
  | .files reversed => .ok { s with pending := .files (word :: reversed) }
  | _ => do return { ← s.settle with pending := .files [word] }

end Side

/-- How a word reads that no `--` stands before. -/
inductive Word where
  | escape
  | long (cs : List Char)
  | shorts (cs : List Char)
  | plain (s : String)

def Word.ofText (s : String) : Word :=
  match s.toList with
  | ['-', '-'] => .escape
  | '-' :: '-' :: cs => .long cs
  | '-' :: c :: cs => .shorts (c :: cs)
  | _ => .plain s

/-- The words behind a command. -/
def readBehind (name : CommandName) : List String → Side → Except UsageFault Side
  | [], s => s.settle
  | word :: words, s =>
    match Word.ofText word with
    | .escape => do (← words.foldlM Side.file s).settle
    | .long cs => do readBehind name words (← s.long (some name) cs)
    | .shorts cs => do readBehind name words (← s.shorts (some name) cs)
    | .plain word =>
      match s.pending with
      | .value opt none => readBehind name words { s with pending := .value opt (some word) }
      | _ => do readBehind name words (← s.file word)

def commandOf (name : CommandName) (s : Side) : Except UsageFault Command :=
  match name with
  | .tables => .ok (.tables s.files)
  | .resolve =>
    match s.table with
    | some table => .ok (.resolve s.files table s.palette s.format s.allowCycles)
    | none => .error .missingOption
  | .events =>
    match s.table with
    | some table => .ok (.events s.files table s.palette s.allowCycles)
    | none => .error .missingOption

/-- The command and what stands behind it. Of what may stand on either side,
what stands behind counts. -/
def behind (name : CommandName) (words : List String) (before : Side) :
    Except UsageFault CommandLine := do
  let s ← readBehind name words {}
  let command ← commandOf name s
  let before ← before.settle
  return {
    config := s.config.or before.config
    verbosity := if s.verbosity = 0 then before.verbosity else s.verbosity
    command }

/-- Help on the commands named. -/
def helpOn : List String → UsageFault
  | [] => .help
  | [name] => if (CommandName.named? name).isSome || name == "help" then .help else .unknownCommand
  | _ => .unknownCommand

/-- The words up to the command, and those behind it. -/
def readBefore : List String → Side → Except UsageFault CommandLine
  | [], s => do
    let s ← s.settle
    if s.config.isNone && s.verbosity == 0 then throw .nothingGiven else throw .missingCommand
  | word :: words, s =>
    match Word.ofText word with
    | .escape =>
      match words with
      | [] => readBefore [] s
      | word :: _ =>
        if (CommandName.named? word).isSome || word == "help" then .error .unknownOption
        else .error .unknownCommand
    | .long cs => do readBefore words (← s.long none cs)
    | .shorts cs => do readBefore words (← s.shorts none cs)
    | .plain word =>
      match s.pending with
      | .value opt none => readBefore words { s with pending := .value opt (some word) }
      | _ =>
        match CommandName.named? word with
        | some name => behind name words s
        | none => .error (if word == "help" then helpOn words else .unknownCommand)

def parse (words : List String) : Except UsageFault CommandLine := readBefore words {}

end CommandLine

end Palettes
