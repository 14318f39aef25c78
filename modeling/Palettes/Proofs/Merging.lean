import Palettes.Load
import Palettes.Prepared

/-!
What becomes of a palette when definition sets are merged. Merging goes by
written names and keeps the place where a written name first came up; preparing
goes by canonical names and lets the later place win. Hence the palette is the
one under the written name that came up last for the first time, with the
legends that were given for it last. It is what the last set says if this set
calls the palette by that name too, and something else otherwise.
-/
namespace Palettes

namespace DefinitionSet

variable {s t : DefinitionSet} {sets : List DefinitionSet} {table name : String}

/-! ## What sets say of a table -/

/-- The palettes of a table; none if the set does not define it. -/
def palettes (s : DefinitionSet) (table : String) : PaletteDefs := (s.lookup table).getD .empty

/-- All that sets say of a table, one set after the other. -/
def gathered (sets : List DefinitionSet) (table : String) : List (String × LegendDefs) :=
  sets.flatMap fun s => (s.palettes table).entries

/-- The written name of a palette that came up last for the first time. -/
def newestName? (sets : List DefinitionSet) (table name : String) : Option String :=
  WrittenName.last? name ((gathered sets table).map Prod.fst).eraseDups

/-- The palette of a table as it is prepared from the set. -/
def palette? (s : DefinitionSet) (table name : String) : Option PreparedPalette :=
  (s.lookup table).bind fun defs => (PreparedTable.ofDefs defs).get? name

/-- The palette as the last set has it that defines it. -/
def lastDefined? (sets : List DefinitionSet) (table name : String) : Option PreparedPalette :=
  (sets.filterMap (·.palette? table name)).getLast?

theorem lastDefined?_eq_some {p : PreparedPalette} (h : lastDefined? sets table name = some p) :
    ∃ before s after, sets = before ++ s :: after ∧ s.palette? table name = some p ∧
      ∀ t ∈ after, t.palette? table name = none := by
  rw [lastDefined?, List.getLast?_filterMap] at h
  obtain ⟨after, s, before, hsets, hs, hafter⟩ := List.findSome?_eq_some_iff.mp h
  refine ⟨before.reverse, s, after.reverse, ?_, hs, fun t ht => hafter t (List.mem_reverse.mp ht)⟩
  rw [← List.reverse_reverse sets, hsets]
  simp

theorem palette?_eq : s.palette? table name =
    (WrittenName.last? name (s.palettes table).names).bind fun w =>
      ((s.palettes table).get? w).map (PreparedPalette.ofWritten w) := by
  rw [palette?, palettes]
  cases s.lookup table with
  | none => rfl
  | some defs => exact PreparedTable.get?_ofDefs defs name

theorem map_written_palette? : (s.palette? table name).map (·.written) =
    WrittenName.last? name (s.palettes table).names := by
  rw [palette?, palettes]
  cases s.lookup table with
  | none => rfl
  | some defs => exact PreparedTable.map_written_get?_ofDefs defs name

theorem palette?_isSome_iff : (s.palette? table name).isSome ↔
    ∃ w ∈ (s.palettes table).names, WrittenName.canonical w = name := by
  rw [← WrittenName.last?_isSome_iff, ← map_written_palette?, Option.isSome_map]

theorem palette?_eq_some {p : PreparedPalette} (h : s.palette? table name = some p) :
    ∃ legends, (s.palettes table).get? p.written = some legends ∧
      p = .ofWritten p.written legends ∧ WrittenName.canonical p.written = name := by
  rw [palette?_eq, Option.bind_eq_some_iff] at h
  obtain ⟨w, hlast, hw⟩ := h
  obtain ⟨legends, hlegends, rfl⟩ := Option.map_eq_some_iff.mp hw
  rw [PreparedPalette.written_ofWritten]
  exact ⟨legends, hlegends, rfl, WrittenName.canonical_of_last? hlast⟩

/-! ## Merging -/

theorem get?_foldl_alter (table : String) (es : List (String × PaletteDefs))
    (hes : (es.map Prod.fst).Nodup) (l : Listing PaletteDefs) :
    (es.foldl (fun acc e => acc.alter e.1 .empty (·.insertAll e.2.entries)) l).get? table =
      match es.lookup table with
      | none => l.get? table
      | some defs => some (((l.get? table).getD .empty).insertAll defs.entries) := by
  induction es generalizing l with
  | nil => rfl
  | cons e es ih =>
    obtain ⟨k, defs⟩ := e
    obtain ⟨hk, hes⟩ := List.nodup_cons.mp hes
    rw [List.foldl_cons, ih hes, Listing.alter, Listing.get?_insert]
    by_cases h : table = k
    · subst h
      have hnone : es.lookup table = none := (Listing.lookup_eq_none_iff table es).mpr hk
      simp [hnone]
    · simp [List.lookup_cons, beq_eq_false_iff_ne.mpr h, h]

theorem lookup_merge : (s.merge t).lookup table =
    match t.lookup table with
    | none => s.lookup table
    | some defs => some ((s.palettes table).insertAll defs.entries) :=
  get?_foldl_alter table t.tables.entries t.tables.nodup s.tables

/-- A set that is merged in adds its palettes to those of the table, pair by pair. -/
theorem palettes_merge : (s.merge t).palettes table =
    (s.palettes table).insertAll (t.palettes table).entries := by
  rw [palettes, lookup_merge, palettes.eq_def t]
  cases t.lookup table with
  | none => rfl
  | some defs => rfl

theorem palettes_foldl_merge (s : DefinitionSet) : (sets.foldl merge s).palettes table =
    (s.palettes table).insertAll (gathered sets table) := by
  induction sets generalizing s with
  | nil => rfl
  | cons t sets ih =>
    rw [List.foldl_cons, ih, palettes_merge, ← Listing.insertAll_append]
    rfl

theorem palettes_mergeAll :
    (mergeAll sets).palettes table = Listing.ofList (gathered sets table) :=
  palettes_foldl_merge empty

/-! ## The palette that comes out -/

theorem mergeAll_palette?_isSome_iff : ((mergeAll sets).palette? table name).isSome ↔
    ∃ s ∈ sets, (s.palette? table name).isSome := by
  simp only [palette?_isSome_iff, palettes_mergeAll, Listing.names_ofList, List.mem_eraseDups,
    gathered, List.map_flatMap, List.mem_flatMap]
  constructor
  · rintro ⟨w, ⟨s, hs, hw⟩, hname⟩
    exact ⟨s, hs, w, hw, hname⟩
  · rintro ⟨s, hs, w, hw, hname⟩
    exact ⟨w, ⟨s, hs, hw⟩, hname⟩

theorem map_written_mergeAll : ((mergeAll sets).palette? table name).map (·.written) =
    newestName? sets table name := by
  rw [map_written_palette?, palettes_mergeAll, Listing.names_ofList, newestName?]

theorem palette?_mergeAll : (mergeAll sets).palette? table name =
    (newestName? sets table name).bind fun w =>
      ((gathered sets table).reverse.lookup w).map (PreparedPalette.ofWritten w) := by
  rw [palette?_eq, palettes_mergeAll, Listing.names_ofList, newestName?]
  simp only [Listing.get?_ofList]

/-- Of what is gathered under a written name, the last set that defines the
palette has the last word if it has the written name at all. -/
theorem lookup_gathered (before : List DefinitionSet) {after : List DefinitionSet} {w : String}
    {legends : LegendDefs} (hw : WrittenName.canonical w = name)
    (hs : (s.palettes table).get? w = some legends)
    (hafter : ∀ t ∈ after, t.palette? table name = none) :
    (gathered (before ++ s :: after) table).reverse.lookup w = some legends := by
  have hlater : (gathered after table).reverse.lookup w = none := by
    rw [Listing.lookup_eq_none_iff, List.map_reverse, List.mem_reverse]
    intro hmem
    obtain ⟨e, he, hkey⟩ := List.mem_map.mp hmem
    obtain ⟨t, ht, he⟩ := List.mem_flatMap.mp he
    have hsome : (t.palette? table name).isSome :=
      palette?_isSome_iff.mpr ⟨w, List.mem_map.mpr ⟨e, he, hkey⟩, hw⟩
    rw [hafter t ht] at hsome
    exact Bool.false_ne_true hsome
  have hown : (s.palettes table).entries.reverse.lookup w = some legends := by
    rw [← Listing.get?_ofList, Listing.ofList_entries, hs]
  have hsplit : gathered (before ++ s :: after) table =
      gathered before table ++ (s.palettes table).entries ++ gathered after table := by
    simp [gathered]
  rw [hsplit, List.reverse_append, List.reverse_append, List.lookup_append, List.lookup_append,
    hlater, hown]
  rfl

/-- The later definition wins exactly if the last set that defines a palette
calls it by the written name that came up last for the first time. -/
theorem merged_palette_is_last_defined_iff (sets : List DefinitionSet) (table name : String) :
    (((mergeAll sets).palette? table name).isSome ↔ ∃ s ∈ sets, (s.palette? table name).isSome) ∧
    (mergeAll sets).palette? table name =
      ((newestName? sets table name).bind fun w =>
        ((gathered sets table).reverse.lookup w).map (PreparedPalette.ofWritten w)) ∧
    ((mergeAll sets).palette? table name = lastDefined? sets table name ↔
      newestName? sets table name = (lastDefined? sets table name).map (·.written)) := by
  refine ⟨mergeAll_palette?_isSome_iff, palette?_mergeAll, fun h => ?_, fun h => ?_⟩
  · rw [← map_written_mergeAll, h]
  · rw [← map_written_mergeAll] at h
    cases hlast : lastDefined? sets table name with
    | none =>
      rw [hlast] at h
      exact Option.map_eq_none_iff.mp h
    | some p =>
      rw [hlast] at h
      obtain ⟨q, hq, hsame⟩ := Option.map_eq_some_iff.mp h
      obtain ⟨before, s, after, rfl, hs, hafter⟩ := lastDefined?_eq_some hlast
      obtain ⟨legends, hlegends, hp, hname⟩ := palette?_eq_some hs
      obtain ⟨legends', hlegends', hq', -⟩ := palette?_eq_some hq
      -- The two palettes have one written name, and what was gathered under it is the last set's.
      have hlookup := lookup_gathered before hname hlegends hafter
      rw [palettes_mergeAll, Listing.get?_ofList, hsame, hlookup] at hlegends'
      cases hlegends'
      rw [hq, hq', hsame, ← hp]

/-- Three sets that define one palette, the second under another written name. -/
def rewritten : List DefinitionSet :=
  [empty.define "shades" "dusk extends night" (.ofList [("sky", ["red"])]),
   empty.define "shades" "dusk" (.ofList [("sky", ["grey"])]),
   empty.define "shades" "dusk extends night" (.ofList [("sky", ["violet"])])]

/-- The second set wins over the third. -/
theorem last_defined_loses :
    (mergeAll rewritten).palette? "shades" "dusk" =
      some ⟨"dusk", [], .ofList [("sky", ["grey"])]⟩ ∧
    lastDefined? rewritten "shades" "dusk" =
      some ⟨"dusk", ["night"], .ofList [("sky", ["violet"])]⟩ ∧
    (mergeAll rewritten).palette? "shades" "dusk" ≠ lastDefined? rewritten "shades" "dusk" := by
  decide +kernel

/-! ## Definition files -/

variable {disk : Disk Id} {paths : List String} {set merged : DefinitionSet} {log : Array Note}

theorem loadInto_eq_ok_iff : (loadInto disk set log paths).run.1 = .ok merged ↔
    ∃ sets : List DefinitionSet, (paths.map fun path => (loadFile disk path).run) = sets.map .ok ∧
      merged = sets.foldl merge set := by
  induction paths generalizing set log with
  | nil => simp [loadInto, eq_comm]
  | cons path paths ih =>
    rw [loadInto, Id.run_bind]
    cases hfile : (loadFile disk path).run with
    | error e =>
      refine ⟨fun h => absurd h (by simp), ?_⟩
      rintro ⟨_ | ⟨s, sets⟩, hsets, -⟩ <;> simp [hfile] at hsets
    | ok s =>
      simp only [ih, List.map_cons, hfile]
      constructor
      · rintro ⟨sets, hsets, hmerged⟩
        exact ⟨s :: sets, by rw [hsets, List.map_cons], hmerged⟩
      · rintro ⟨_ | ⟨s', sets⟩, hsets, hmerged⟩
        · simp at hsets
        · rw [List.map_cons, List.cons_eq_cons, Except.ok.injEq] at hsets
          obtain ⟨rfl, hsets⟩ := hsets
          exact ⟨sets, hsets, hmerged⟩

/-- Files load together if each of them does, and then they are merged in their order. -/
theorem loadFiles_eq_ok_iff : (loadFiles disk paths).run.1 = .ok merged ↔
    ∃ sets : List DefinitionSet, (paths.map fun path => (loadFile disk path).run) = sets.map .ok ∧
      merged = mergeAll sets :=
  loadInto_eq_ok_iff

end DefinitionSet

end Palettes
