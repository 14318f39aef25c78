import Palettes.Definition
import Palettes.WrittenName

/-!
A prepared table holds the palettes of a table under their canonical names,
with the parents split off. Written names that agree in the canonical name
share one place, and the later one fills it.
-/
namespace Palettes

structure PreparedPalette where
  name : String
  parents : List String
  legends : LegendDefs
  deriving DecidableEq

namespace PreparedPalette

def ofWritten (written : String) (legends : LegendDefs) : PreparedPalette :=
  let (name, parents) := WrittenName.split written
  ⟨name, parents, legends⟩

/-- The written name of a palette. -/
def written (p : PreparedPalette) : String := WrittenName.join (p.name :: p.parents.reverse)

@[simp] theorem written_ofWritten (written : String) (legends : LegendDefs) :
    (ofWritten written legends).written = written :=
  WrittenName.join_split written

end PreparedPalette

structure PreparedTable where
  palettes : Listing PreparedPalette
  deriving DecidableEq

namespace PreparedTable

def empty : PreparedTable := ⟨.empty⟩

def ofDefs (defs : PaletteDefs) : PreparedTable :=
  ⟨Listing.ofList (defs.entries.map fun e =>
    let p := PreparedPalette.ofWritten e.1 e.2
    (p.name, p))⟩

def get? (t : PreparedTable) (name : String) : Option PreparedPalette := t.palettes.get? name

def names (t : PreparedTable) : List String := t.palettes.names

def size (t : PreparedTable) : Nat := t.palettes.size

def isEmpty (t : PreparedTable) : Bool := t.palettes.isEmpty

/-- The entry that gives a palette is the last one under its name. -/
theorem get?_ofDefs_eq_find? (defs : PaletteDefs) (name : String) :
    (ofDefs defs).get? name =
      (defs.entries.reverse.find? fun e => WrittenName.canonical e.1 = name).map
        fun e => PreparedPalette.ofWritten e.1 e.2 := by
  rw [get?, ofDefs, Listing.get?_ofList, ← List.map_reverse]
  exact Listing.lookup_map _ _ _ name

/-- Of the written names of a palette the last one counts. -/
theorem get?_ofDefs (defs : PaletteDefs) (name : String) :
    (ofDefs defs).get? name =
      (WrittenName.last? name defs.names).bind fun w =>
        (defs.get? w).map (PreparedPalette.ofWritten w) := by
  have hlast : WrittenName.last? name defs.names =
      (defs.entries.reverse.find? fun e => WrittenName.canonical e.1 = name).map Prod.fst := by
    rw [WrittenName.last?, Listing.names, List.filter_map, List.getLast?_map, List.getLast?_filter]
    rfl
  rw [hlast, get?_ofDefs_eq_find?]
  cases hfind : defs.entries.reverse.find? fun e => WrittenName.canonical e.1 = name with
  | none => rfl
  | some e =>
    have hmem : e ∈ defs.entries := List.mem_reverse.mp (List.mem_of_find?_eq_some hfind)
    simp [Listing.get?_of_mem hmem]

theorem names_ofDefs (defs : PaletteDefs) :
    (ofDefs defs).names = (defs.names.map WrittenName.canonical).eraseDups := by
  rw [names, ofDefs, Listing.names_ofList, List.map_map, Listing.names, List.map_map]
  rfl

theorem map_written_get?_ofDefs (defs : PaletteDefs) (name : String) :
    ((ofDefs defs).get? name).map (·.written) = WrittenName.last? name defs.names := by
  rw [get?_ofDefs]
  cases hlast : WrittenName.last? name defs.names with
  | none => rfl
  | some w =>
    obtain ⟨legends, hlegends⟩ := (defs.mem_names_iff w).mp (WrittenName.last?_mem hlast)
    simp [hlegends]

theorem mem_names_iff (t : PreparedTable) (name : String) :
    name ∈ t.names ↔ ∃ p, t.get? name = some p := t.palettes.mem_names_iff name

@[simp] theorem length_names (t : PreparedTable) : t.names.length = t.size :=
  t.palettes.length_names

theorem size_pos {t : PreparedTable} {name : String} (h : name ∈ t.names) : 0 < t.size := by
  rw [← t.length_names]
  exact List.length_pos_of_mem h

end PreparedTable

end Palettes
