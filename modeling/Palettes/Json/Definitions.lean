import Palettes.Definition
import Palettes.Json.Read
import Palettes.Json.Writer

/-!
Definition sets in JSON are objects of objects of objects of arrays of strings.
A name given twice keeps its place and takes the later value.
-/
namespace Palettes

open Json Reader

/-- An object whose members are all read alike. -/
def Listing.jsonReader {α : Type} (p : JsonReader α) : JsonReader (Listing α) :=
  object (fun l k => do
    punct ':'
    return l.insert k (← p)) .empty

def Listing.toJson {α : Type} (f : α → Value) (l : Listing α) : Value :=
  .object (l.entries.map fun e => (e.1, f e.2))

namespace DefinitionSet

def jsonReader : JsonReader DefinitionSet := do
  return ⟨← Listing.jsonReader (Listing.jsonReader (Listing.jsonReader texts))⟩

def ofJsonText (s : String) : Except Fault DefinitionSet := readText jsonReader s

def toJson (s : DefinitionSet) : Value :=
  s.tables.toJson (Listing.toJson (Listing.toJson Value.strings))

end DefinitionSet

end Palettes
