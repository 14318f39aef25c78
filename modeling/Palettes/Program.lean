import Palettes.CommandLine
import Palettes.Recorder
import Palettes.Report

/-!
The program as a function of its command line and the disk. It loads the
configuration, then the definition files, then does what the command asks, and
stops at the first fault. Only a command that succeeds prints anything on
standard output.
-/
namespace Palettes.Program

structure Exit where
  code : Nat
  stdout : String := ""
  stderr : String := ""
  deriving DecidableEq, Repr

/-! ## Notes on standard error -/

/-- The least important level that is shown. -/
def shownRank (verbosity : Nat) : Nat := min verbosity 2

/-- Put four blanks behind every line end. -/
def indent (s : String) : String :=
  String.ofList (s.toList.flatMap fun c => if c = '\n' then "\n    ".toList else [c])

def noteLine (n : Note) : String :=
  let level := n.level.text
  "[" ++ level ++ String.ofList (List.replicate (5 - level.length) ' ') ++ " " ++ n.subject ++
    "] " ++ indent n.text ++ "\n"

def notesText (verbosity : Nat) (log : Array Note) : String :=
  String.join ((log.toList.filter (·.level.rank ≤ shownRank verbosity)).map noteLine)

/-! ## What a command comes to -/

/-- The code, the notes, and then either output or a remark on standard error. -/
structure Outcome where
  code : Nat := 0
  log : Array Note := #[]
  output : String := ""
  remark : String := ""

namespace Outcome

def exit (o : Outcome) (verbosity : Nat) : Exit where
  code := o.code
  stdout := o.output
  stderr := notesText verbosity o.log ++ o.remark

/-- A fault ends the program with a code and a message. -/
def fault (code : Nat) (log : Array Note) (message : String) : Outcome where
  code := code
  log := log
  remark := "Error: " ++ message ++ "\n"

/-- Put notes before those of an outcome. -/
def after (log : Array Note) (o : Outcome) : Outcome := { o with log := log ++ o.log }

end Outcome

/-- Resolve a table or one palette of it into a listener. The result is whether
there was anything to resolve. -/
def resolution? {σ : Type} (config : Config) (set : DefinitionSet) (table : String)
    (palette : Option String) (l : Listener Unit σ) (state : σ) :
    Option (Resolver.Outcome σ Bool) :=
  let resolver : Resolver := { options := config.options }
  match palette with
  | some p => (resolver.resolvePalette? set.lookup table p l () state).map fun o =>
    { o with result := o.result.map fun _ => true }
  | none => resolver.resolve? set.lookup table l () state

/-- Resolve into a listener, and print what the listener ends up with. -/
def resolveInto {σ : Type} (config : Config) (set : DefinitionSet) (table : String)
    (palette : Option String) (l : Listener Unit σ) (state : σ)
    (print : σ → String × List Note) : Outcome :=
  match resolution? config set table palette l state with
  | none => .fault 1 #[] "the parents of a palette nest too deep"
  | some o =>
    match o.result with
    | .error e => .fault 1 o.log e.message
    | .ok false =>
      { log := o.log, remark := "No meta palettes defined for table '" ++ table ++ "'\n" }
    | .ok true =>
      let (output, notes) := print o.state
      { log := o.log ++ notes, output }

/-- Do what the command asks with the definitions. -/
def perform (config : Config) (set : DefinitionSet) : Command → Outcome
  | .resolve _ table palette _ _ =>
    resolveInto config set table palette Builder.listener {} fun b =>
      let palettes := b.palettes.values
      (match config.format with
        | .text => Report.palettesText palettes
        | .json => Report.palettesJson palettes ++ "\n", b.closing)
  | .events _ table palette _ =>
    resolveInto config set table palette (Recorder.listener true) #[] fun events =>
      (Report.eventsJson events.toList ++ "\n", [])
  | .tables _ => { output := Report.tablesText set }

/-- What a command says on top of the configuration. -/
def overrides : Command → Config.Overrides
  | .resolve files _ _ format allowCycles =>
    { definitions := files, detectCycles := if allowCycles then some false else none, format }
  | .events files _ _ allowCycles =>
    { definitions := files, detectCycles := if allowCycles then some false else none }
  | .tables files => { definitions := files }

variable {m : Type → Type} [Monad m]

/-- Load the definitions that a configuration names, and perform the command. -/
def runWith (disk : Disk m) (config : Config) (log : Array Note) (command : Command) :
    m Outcome := do
  if config.paths.isEmpty then
    pure (.fault 2 log "No definition files given and none configured in mpal.toml")
  else
    match ← DefinitionSet.loadFiles disk config.paths with
    | (.error e, log') => pure (.fault 1 (log ++ log') e.message)
    | (.ok set, log') => pure ((perform config set command).after (log ++ log'))

def run (disk : Disk m) (line : CommandLine) : m Exit := do
  match ← Config.load disk line.config with
  | (.error e, log) => pure ((Outcome.fault 1 log e.message).exit line.verbosity)
  | (.ok config, log) =>
    let o ← runWith disk (config.override (overrides line.command)) log line.command
    pure (o.exit line.verbosity)

/-! ## Usage -/

def usage : String :=
  "Resolve inheriting palette definitions (.json, .toml)\n\n" ++
  "Usage: mpal [--config CONFIG] [-v]... COMMAND\n\n" ++
  "Commands:\n" ++
  "  resolve [-t|--table TABLE] [-p|--palette PALETTE] [--format text|json] " ++
  "[--allow-cycles] [FILES]...\n" ++
  "  events  [-t|--table TABLE] [-p|--palette PALETTE] [--allow-cycles] [FILES]...\n" ++
  "  tables  [FILES]...\n"

def version : String := "mpal 0.1.0\n"

def usageExit (f : UsageFault) : Exit :=
  match f with
  | .help => { code := f.code, stdout := usage }
  | .version => { code := f.code, stdout := version }
  | _ => { code := f.code, stderr := usage }

/-- The whole program: read the command line and run it. -/
def start (disk : Disk m) (words : List String) : m Exit :=
  match CommandLine.parse words with
  | .error f => pure (usageExit f)
  | .ok line => run disk line

end Palettes.Program
