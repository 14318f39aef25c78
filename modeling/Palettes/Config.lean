import Palettes.Load
import Palettes.Resolver

/-!
The configuration: which definition files to read, whether to detect cycles, and
how to print. It is written in TOML, in sections whose names and keys are fixed;
what is not known is passed over and what is missing has a default. A section
may also be the array of its values.
-/
namespace Palettes

inductive OutputFormat where
  | text | json
  deriving DecidableEq, Repr

def OutputFormat.named? : String → Option OutputFormat
  | "text" => some .text
  | "json" => some .json
  | _ => none

structure Config where
  paths : List String := []
  detectCycles : Bool := true
  format : OutputFormat := .text
  deriving DecidableEq, Repr

/-- What keeps a configuration from being used. -/
inductive ConfigFault where
  | emptyPath (index : Nat)
  | notDefinitions (index : Nat) (path : String)
  deriving DecidableEq, Repr

namespace ConfigFault

def field : ConfigFault → String
  | .emptyPath i | .notDefinitions i _ => "definitions.paths[" ++ toString i ++ "]"

def message : ConfigFault → String
  | .emptyPath _ => "must be a non-empty path"
  | .notDefinitions _ path => "'" ++ path ++ "' must be a .json or .toml file"

def text (f : ConfigFault) : String := "mpal.toml: '" ++ f.field ++ "' " ++ f.message

end ConfigFault

namespace Config

open Toml Item

/-! ## Reading -/

/-- A section with one key. A date stands for a section without known keys. -/
def section? {α : Type} (key : String) (default : α) (read : Item → Except Fault α) :
    Item → Except Fault α
  | .inline ms | .table _ ms =>
    match ms.lookup key with
    | some i => read i
    | none => .ok default
  | .array [] => .ok default
  | .array (i :: _) => read i
  | .tables latest earlier => read (.table .header (earlier.getLast?.getD latest))
  | .dateTime => .ok default
  | _ => .error .mistyped

def boolean? : Item → Except Fault Bool
  | .boolean b => .ok b
  | _ => .error .mistyped

/-- A format's name, as a string or as the only key of a table, whose value is
then empty. -/
def format? : Item → Except Fault OutputFormat
  | .string s => named s
  | .inline [(s, v)] | .table _ [(s, v)] =>
    match v with
    | .inline [] | .table _ [] | .array [] => named s
    | _ => .error .mistyped
  | _ => .error .mistyped
where
  named (s : String) : Except Fault OutputFormat :=
    match OutputFormat.named? s with
    | some f => .ok f
    | none => .error .mistyped

def ofTomlText (s : String) : Except Fault Config := do
  let root ← Toml.parse s
  let get {α : Type} (name key : String) (default : α) (read : Item → Except Fault α) :
      Except Fault α :=
    match root.lookup name with
    | some i => section? key default read i
    | none => .ok default
  return {
    paths := ← get "definitions" "paths" [] strings?
    detectCycles := ← get "resolver" "detect_cycles" true boolean?
    format := ← get "output" "format" .text format? }

/-! ## Checking -/

/-- What is wrong with the path at an index. -/
def fault? (index : Nat) (path : String) : Option ConfigFault :=
  if path.isEmpty then some (.emptyPath index)
  else if (DefinitionFormat.ofPath? path).isNone then some (.notDefinitions index path)
  else none

/-- What is wrong with paths that start at an index. -/
def faultsFrom (index : Nat) : List String → List ConfigFault
  | [] => []
  | path :: paths => (fault? index path).toList ++ faultsFrom (index + 1) paths

def faults (c : Config) : List ConfigFault := faultsFrom 0 c.paths

/-! ## Loading -/

def fileName : String := "mpal.toml"

variable {m : Type → Type} [Monad m]

/-- The first directory of a list that holds a configuration file. -/
def findIn (disk : Disk m) : List String → m (Option String)
  | [] => pure none
  | dir :: dirs => do
    let path := FilePath.join dir fileName
    if ← disk.holds path then pure (some path) else findIn disk dirs

/-- The configuration file of the nearest directory on the way up. -/
def findFrom (disk : Disk m) (start : String) : m (Option String) :=
  findIn disk (FilePath.upward start)

def find (disk : Disk m) : m (Option String) := do
  match ← disk.currentDirectory with
  | some dir => findFrom disk dir
  | none => pure none

/-- Paths in a file are as seen from its directory. -/
def relativeTo (file : String) (c : Config) : Config :=
  match FilePath.parent? file with
  | some dir => { c with paths := c.paths.map (FilePath.join dir) }
  | none => c

inductive LoadError where
  | unreadable (fault : ReadFault)
  | malformed (fault : Toml.Fault)
  | invalid (faults : List ConfigFault)
  deriving DecidableEq, Repr

def LoadError.message : LoadError → String
  | .unreadable fault => "Failed to read config: " ++ fault.message
  | .malformed fault => "Failed to parse mpal.toml: " ++ fault.message
  | .invalid faults =>
    "Config validation failed:\n" ++ String.intercalate "\n" (faults.map ("  - " ++ ·.text))

/-- The configuration that the text of a file holds. -/
def ofFileText (file s : String) : Except LoadError Config :=
  match ofTomlText s with
  | .error fault => .error (.malformed fault)
  | .ok c => if c.faults.isEmpty then .ok (c.relativeTo file) else .error (.invalid c.faults)

def loadFile (disk : Disk m) (file : String) : m (Except LoadError Config × Array Note) := do
  match ← disk.read file with
  | .error fault => pure (.error (.unreadable fault), #[])
  | .ok s =>
    match ofFileText file s with
    | .error e => pure (.error e, #[])
    | .ok c => pure (.ok c, #[.loadedConfig file])

/-- Load the file given, else the one found, else take the defaults. -/
def load (disk : Disk m) (file? : Option String) : m (Except LoadError Config × Array Note) := do
  let found ← match file? with
    | some file => pure (some file)
    | none => find disk
  match found with
  | some file => loadFile disk file
  | none => pure (.ok {}, #[])

/-! ## Overriding -/

/-- What is said on top of a configuration; what is not said leaves it alone. -/
structure Overrides where
  definitions : List String := []
  detectCycles : Option Bool := none
  format : Option OutputFormat := none
  deriving DecidableEq, Repr

def override (c : Config) (o : Overrides) : Config where
  paths := if o.definitions.isEmpty then c.paths else o.definitions
  detectCycles := o.detectCycles.getD c.detectCycles
  format := o.format.getD c.format

def options (c : Config) : Options := { detectCycles := c.detectCycles }

end Config

end Palettes
