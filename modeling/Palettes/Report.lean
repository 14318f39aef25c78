import Palettes.Builder
import Palettes.Json.Built
import Palettes.Json.Events
import Palettes.Prepared

/-!
What the commands print. As text, a palette is its name on a line, followed by
an indented line for each legend; a table is its name, followed by an indented
line for each palette with its parents.
-/
namespace Palettes.Report

def legendLine (l : BuiltLegend) : String :=
  "  " ++ l.name ++ (if l.hidden then " (hidden)" else "") ++ ": " ++
    String.intercalate ", " l.fields ++ "\n"

def paletteText (p : BuiltPalette) : String :=
  p.name ++ "\n" ++ String.join (p.legends.map legendLine)

def palettesText (ps : List BuiltPalette) : String := String.join (ps.map paletteText)

def palettesJson (ps : List BuiltPalette) : String :=
  (Json.Value.array (ps.map BuiltPalette.toJson)).prettyText

def eventsJson (es : List Event) : String := (Json.Value.array (es.map Event.toJson)).prettyText

def parentsLine (p : PreparedPalette) : String :=
  if p.parents.isEmpty then "  " ++ p.name ++ "\n"
  else "  " ++ p.name ++ " <- " ++ String.intercalate ", " p.parents ++ "\n"

def tableText (name : String) (t : PreparedTable) : String :=
  name ++ "\n" ++ String.join (t.palettes.values.map parentsLine)

def tablesText (s : DefinitionSet) : String :=
  String.join (s.tables.entries.map fun e => tableText e.1 (PreparedTable.ofDefs e.2))

end Palettes.Report
