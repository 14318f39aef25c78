/-!
Notes are what the program says about its own work. Each is kept as the facts
it states; level, subject and wording are read off it.
-/
namespace Palettes

/-- The importance of a note; `warn` is the most important. -/
inductive Level where
  | warn | debug | trace
  deriving DecidableEq, Repr

namespace Level

def rank : Level → Nat
  | .warn => 0
  | .debug => 1
  | .trace => 2

def text : Level → String
  | .warn => "WARN"
  | .debug => "DEBUG"
  | .trace => "TRACE"

end Level

/-- What a palette builder cannot use while no palette is open. -/
inductive Stray where
  | legend | field | removal
  deriving DecidableEq, Repr

inductive Note where
  | noTable (table : String)
  | prepared (palettes : Nat) (table : String)
  | resolving (palette table : String)
  | ancestor (palette : String) (lineage : List String)
  | dropped (token legend : String)
  | built (palette : String) (legends : Nat)
  | ignored (stray : Stray)
  | loadedDefinitions (tables : Nat) (path : String)
  | loadedConfig (path : String)
  deriving DecidableEq, Repr

namespace Note

def level : Note → Level
  | .ignored _ => .warn
  | .ancestor _ _ | .dropped _ _ => .trace
  | _ => .debug

/-- The part of the program that speaks, as it is named on output. -/
def subject : Note → String
  | .noTable _ | .prepared _ _ | .resolving _ _ | .ancestor _ _ => "metapalettes::resolver"
  | .dropped _ _ => "metapalettes::tokens"
  | .built _ _ | .ignored _ => "metapalettes::builder"
  | .loadedDefinitions _ _ => "metapalettes::definitions"
  | .loadedConfig _ => "metapalettes::config::loader"

def text : Note → String
  | .noTable table => "No meta palettes defined for table '" ++ table ++ "'"
  | .prepared n table => "Prepared " ++ toString n ++ " meta palette(s) for table '" ++ table ++ "'"
  | .resolving palette table =>
    "Resolving meta palette '" ++ palette ++ "' of table '" ++ table ++ "'"
  | .ancestor palette lineage =>
    "Resolving ancestor '" ++ palette ++ "' of '" ++ String.intercalate " <- " lineage ++ "'"
  | .dropped token legend =>
    "Dropping reserved token '" ++ token ++ "' in legend '" ++ legend ++ "'"
  | .built palette n => "Built palette '" ++ palette ++ "' with " ++ toString n ++ " legend(s)"
  | .ignored .legend => "Ignoring legend outside of a palette"
  | .ignored .field => "Ignoring field outside of a palette"
  | .ignored .removal => "Ignoring field removal outside of a palette"
  | .loadedDefinitions n path => "Loaded " ++ toString n ++ " table(s) from " ++ path
  | .loadedConfig path => "Loaded config from " ++ path

end Note

end Palettes
