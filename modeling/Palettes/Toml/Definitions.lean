import Palettes.Definition
import Palettes.Toml.Document

/-!
Definition sets in TOML: tables of tables of arrays of strings, however the
tables are written.
-/
namespace Palettes.Toml.Item

/-- The members of a table of any kind. -/
def members? : Item → Except Fault Members
  | .inline ms | .table _ ms => .ok ms
  | _ => .error .mistyped

def string? : Item → Except Fault String
  | .string s => .ok s
  | _ => .error .mistyped

def strings? : Item → Except Fault (List String)
  | .array items => items.mapM string?
  | _ => .error .mistyped

/-- Members that are all read alike. -/
def listing? {α : Type} (read : Item → Except Fault α) (ms : Members) :
    Except Fault (Listing α) := do
  return Listing.ofList (← ms.mapM fun m => do return (m.1, ← read m.2))

end Palettes.Toml.Item

namespace Palettes

open Toml Item

def DefinitionSet.ofTomlText (s : String) : Except Toml.Fault DefinitionSet := do
  let root ← Toml.parse s
  let legends (i : Item) := do listing? strings? (← i.members?)
  let palettes (i : Item) := do listing? legends (← i.members?)
  return ⟨← listing? palettes root⟩

end Palettes
