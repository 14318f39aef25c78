import Palettes.Builder
import Palettes.Json.Read
import Palettes.Json.Writer

/-!
Built palettes in JSON are records. In an object, a legend without `hidden` is
visible.
-/
namespace Palettes

open Json Reader

namespace BuiltLegend

def members (l : BuiltLegend) : List (String × Value) :=
  [("name", .string l.name), ("hidden", .bool l.hidden), ("fields", .strings l.fields)]

def toJson (l : BuiltLegend) : Value := .object l.members

structure Draft where
  name : Option String := none
  hidden : Option Bool := none
  fields : Option (List String) := none

def Draft.member (d : Draft) : String → JsonReader Draft
  | "name" => do return { d with name := ← once d.name text }
  | "hidden" => do return { d with hidden := ← once d.hidden bool }
  | "fields" => do return { d with fields := ← once d.fields texts }
  | _ => do skipMember; pure d

def Draft.complete? (d : Draft) : Option BuiltLegend := do
  return ⟨← d.name, d.hidden.getD false, ← d.fields⟩

def jsonReader : JsonReader BuiltLegend :=
  record Draft.member {} Draft.complete? do
    let name ← item true text
    let hidden ← item false bool
    let fields ← item false texts
    pure ⟨name, hidden, fields⟩

end BuiltLegend

namespace BuiltPalette

def members (p : BuiltPalette) : List (String × Value) :=
  [("name", .string p.name), ("legends", .array (p.legends.map BuiltLegend.toJson))]

def toJson (p : BuiltPalette) : Value := .object p.members

structure Draft where
  name : Option String := none
  legends : Option (List BuiltLegend) := none

def legendsReader : JsonReader (List BuiltLegend) := do
  let ls ← array (fun ls => do return (← BuiltLegend.jsonReader) :: ls) []
  pure ls.reverse

def Draft.member (d : Draft) : String → JsonReader Draft
  | "name" => do return { d with name := ← once d.name text }
  | "legends" => do return { d with legends := ← once d.legends legendsReader }
  | _ => do skipMember; pure d

def Draft.complete? (d : Draft) : Option BuiltPalette := do
  return ⟨← d.name, ← d.legends⟩

def jsonReader : JsonReader BuiltPalette :=
  record Draft.member {} Draft.complete? do
    let name ← item true text
    let legends ← item false legendsReader
    pure ⟨name, legends⟩

end BuiltPalette

end Palettes
