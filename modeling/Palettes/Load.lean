import Palettes.Disk
import Palettes.FilePath
import Palettes.Json.Definitions
import Palettes.Note
import Palettes.Toml.Definitions

/-!
Definition files. The extension decides the format, before the file is read;
several files are merged in order, up to the first that fails.
-/
namespace Palettes

inductive DefinitionFormat where
  | json | toml
  deriving DecidableEq, Repr

namespace DefinitionFormat

def ofPath? (path : String) : Option DefinitionFormat :=
  match FilePath.extension? path with
  | some "json" => some .json
  | some "toml" => some .toml
  | _ => none

end DefinitionFormat

inductive LoadError where
  | unreadable (path : String) (fault : ReadFault)
  | json (fault : Json.Fault)
  | toml (fault : Toml.Fault)
  | unsupported (path : String)
  deriving DecidableEq, Repr

def Json.Fault.message : Json.Fault → String
  | .truncated => "the text ends too early"
  | .malformed => "the text is not JSON"
  | .mistyped => "a value is not of the kind expected"

def Toml.Fault.message : Toml.Fault → String
  | .malformed => "the text is not TOML"
  | .redefined key => "'" ++ key ++ "' is defined twice"
  | .tooDeep => "the text nests too deep"
  | .mistyped => "a value is not of the kind expected"

def LoadError.message : LoadError → String
  | .unreadable path fault => "failed to read " ++ path ++ ": " ++ fault.message
  | .json fault => "invalid JSON definitions: " ++ fault.message
  | .toml fault => "invalid TOML definitions: " ++ fault.message
  | .unsupported path => "unsupported definition file " ++ path ++ " (expected .json or .toml)"

namespace DefinitionSet

def ofText (format : DefinitionFormat) (s : String) : Except LoadError DefinitionSet :=
  match format with
  | .json => (ofJsonText s).mapError .json
  | .toml => (ofTomlText s).mapError .toml

variable {m : Type → Type} [Monad m]

/-- Read one definition file. -/
def loadFile (disk : Disk m) (path : String) : m (Except LoadError DefinitionSet) :=
  match DefinitionFormat.ofPath? path with
  | none => pure (.error (.unsupported path))
  | some format => do
    match ← disk.read path with
    | .error fault => pure (.error (.unreadable path fault))
    | .ok s => pure (ofText format s)

/-- Read files and merge them into `set`, noting each that is read. -/
def loadInto (disk : Disk m) (set : DefinitionSet) (log : Array Note) :
    List String → m (Except LoadError DefinitionSet × Array Note)
  | [] => pure (.ok set, log)
  | path :: paths => do
    match ← loadFile disk path with
    | .error e => pure (.error e, log)
    | .ok s =>
      loadInto disk (set.merge s) (log.push (.loadedDefinitions s.tables.size path)) paths

def loadFiles (disk : Disk m) (paths : List String) :
    m (Except LoadError DefinitionSet × Array Note) :=
  loadInto disk empty #[] paths

end DefinitionSet

end Palettes
