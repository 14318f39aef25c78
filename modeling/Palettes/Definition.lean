import Palettes.Listing

/-!
Palette definitions as they are written: tables, palettes under their written
names, legend tokens, field tokens. Every level keeps the order of declaration.
Merging goes palette by palette: the later definition wins, the earlier place
stays.
-/
namespace Palettes

/-- Legend tokens with their field tokens. -/
abbrev LegendDefs := Listing (List String)

/-- Written palette names with their legends. -/
abbrev PaletteDefs := Listing LegendDefs

structure DefinitionSet where
  tables : Listing PaletteDefs
  deriving DecidableEq

namespace DefinitionSet

def empty : DefinitionSet := ⟨.empty⟩

def isEmpty (s : DefinitionSet) : Bool := s.tables.isEmpty

def lookup (s : DefinitionSet) (table : String) : Option PaletteDefs := s.tables.get? table

def contains (s : DefinitionSet) (table : String) : Bool := s.tables.contains table

/-- Replace all palettes of a table. -/
def insertTable (s : DefinitionSet) (table : String) (palettes : PaletteDefs) : DefinitionSet :=
  ⟨s.tables.insert table palettes⟩

/-- Define one palette of a table, making the table if it is new. -/
def define (s : DefinitionSet) (table palette : String) (legends : LegendDefs) : DefinitionSet :=
  ⟨s.tables.alter table .empty (·.insert palette legends)⟩

def merge (s t : DefinitionSet) : DefinitionSet :=
  ⟨t.tables.entries.foldl
    (fun acc e => acc.alter e.1 .empty (·.insertAll e.2.entries)) s.tables⟩

/-- Merge in order, so that the last set wins. -/
def mergeAll (sets : List DefinitionSet) : DefinitionSet := sets.foldl merge empty

end DefinitionSet

end Palettes
