import Palettes.Proofs.Merging

/-!
The laws of merging. Sets are merged table by table and palette by palette, and
at both levels a name that is known keeps its place while a new one goes to the
end. Hence merging is associative, order included, with the empty set neutral
on both sides; a set merged with itself stays as it is; and to define a palette
is to merge a set that holds nothing else. So definition files may be loaded in
groups, and the groups merged in their order.
-/
namespace Palettes.DefinitionSet

/-! ## Sets -/

/-- A set is its tables in their order, and what it says of each. -/
theorem ext_lookup {s t : DefinitionSet} (hnames : s.tables.names = t.tables.names)
    (hlookup : ∀ table, s.lookup table = t.lookup table) : s = t := by
  cases s
  cases t
  exact congrArg mk (Listing.ext_get? hnames hlookup)

theorem names_foldl_alter (d : PaletteDefs) (f : PaletteDefs → PaletteDefs → PaletteDefs)
    (es : List (String × PaletteDefs)) (l : Listing PaletteDefs) :
    (es.foldl (fun acc e => acc.alter e.1 d (f e.2)) l).names = (l.insertAll es).names := by
  induction es generalizing l with
  | nil => rfl
  | cons e es ih =>
    have hfirst : (l.alter e.1 d (f e.2)).names = (l.insert e.1 e.2).names := by
      rw [Listing.alter, Listing.names_insert, Listing.names_insert]
    rw [List.foldl_cons, ih, Listing.names_insertAll_congr hfirst rfl]
    rfl

/-- Tables come in as the pairs of a listing do. -/
theorem names_merge (s t : DefinitionSet) :
    (s.merge t).tables.names = (s.tables.insertAll t.tables.entries).names :=
  names_foldl_alter .empty (fun defs acc => acc.insertAll defs.entries) t.tables.entries s.tables

theorem merge_assoc (a b c : DefinitionSet) : (a.merge b).merge c = a.merge (b.merge c) := by
  apply ext_lookup
  · calc ((a.merge b).merge c).tables.names
        = ((a.merge b).tables.insertAll c.tables.entries).names := names_merge _ c
      _ = ((a.tables.insertAll b.tables.entries).insertAll c.tables.entries).names :=
        Listing.names_insertAll_congr (names_merge a b) rfl
      _ = (a.tables.insertAll (b.tables.insertAll c.tables.entries).entries).names := by
        rw [Listing.insertAll_insertAll]
      _ = (a.tables.insertAll (b.merge c).tables.entries).names :=
        Listing.names_insertAll_congr rfl (names_merge b c).symm
      _ = (a.merge (b.merge c)).tables.names := (names_merge a _).symm
  · intro table
    cases hc : c.lookup table with
    | none => simp only [lookup_merge, hc]
    | some defs =>
      simp only [lookup_merge, palettes_merge, hc]
      cases hb : b.lookup table with
      | none =>
        have hempty : b.palettes table = .empty := by rw [palettes, hb, Option.getD_none]
        have hdefs : Listing.empty.insertAll defs.entries = defs := Listing.ofList_entries defs
        rw [hempty, hdefs]
        rfl
      | some old => rw [Listing.insertAll_insertAll]

theorem empty_merge (s : DefinitionSet) : empty.merge s = s := by
  apply ext_lookup
  · rw [names_merge]
    exact congrArg Listing.names (Listing.ofList_entries s.tables)
  · intro table
    rw [lookup_merge]
    cases s.lookup table with
    | none => rfl
    | some defs => exact congrArg some (Listing.ofList_entries defs)

theorem merge_empty (s : DefinitionSet) : s.merge empty = s := rfl

theorem merge_self (s : DefinitionSet) : s.merge s = s := by
  apply ext_lookup
  · rw [names_merge, Listing.insertAll_self]
  · intro table
    rw [lookup_merge]
    cases h : s.lookup table with
    | none => rfl
    | some defs =>
      rw [palettes, h, Option.getD_some]
      exact congrArg some (Listing.insertAll_self defs)

/-- A set of one palette. -/
def single (table palette : String) (legends : LegendDefs) : DefinitionSet :=
  ⟨.ofList [(table, .ofList [(palette, legends)])]⟩

theorem define_eq_merge (s : DefinitionSet) (table palette : String) (legends : LegendDefs) :
    s.define table palette legends = s.merge (single table palette legends) := rfl

/-! ## Definition files -/

variable {disk : Disk Id} {set : DefinitionSet} {log : Array Note} {path : String}
  {paths : List String}

theorem loadInto_cons_error {e : LoadError} (h : (loadFile disk path).run = .error e) :
    (loadInto disk set log (path :: paths)).run = (.error e, log) := by
  rw [loadInto, Id.run_bind, h]
  rfl

theorem loadInto_cons_ok {s : DefinitionSet} (h : (loadFile disk path).run = .ok s) :
    (loadInto disk set log (path :: paths)).run =
      (loadInto disk (set.merge s)
        (log.push (.loadedDefinitions s.tables.size path)) paths).run := by
  rw [loadInto, Id.run_bind, h]

/-- What is loaded into a set is loaded by itself and then merged in. -/
theorem loadInto_eq_map (disk : Disk Id) (set : DefinitionSet) (log : Array Note)
    (paths : List String) :
    (loadInto disk set log paths).run.1 = (loadFiles disk paths).run.1.map set.merge := by
  rw [loadFiles]
  generalize (#[] : Array Note) = log'
  -- Both runs take the same files; the sets they have differ by what was there before.
  have hrun (t : DefinitionSet) : (loadInto disk (set.merge t) log paths).run.1 =
      (loadInto disk t log' paths).run.1.map set.merge := by
    induction paths generalizing t log log' with
    | nil => rfl
    | cons path paths ih =>
      cases hfile : (loadFile disk path).run with
      | error e => rw [loadInto_cons_error hfile, loadInto_cons_error hfile]; rfl
      | ok s => rw [loadInto_cons_ok hfile, loadInto_cons_ok hfile, merge_assoc, ih]
  have h := hrun empty
  rwa [merge_empty] at h

theorem loadInto_append (disk : Disk Id) (set : DefinitionSet) (log : Array Note)
    (ps qs : List String) :
    (loadInto disk set log (ps ++ qs)).run.1 =
      (loadInto disk set log ps).run.1.bind fun s => (loadFiles disk qs).run.1.map s.merge := by
  induction ps generalizing set log with
  | nil => exact loadInto_eq_map disk set log qs
  | cons path ps ih =>
    rw [List.cons_append]
    cases hfile : (loadFile disk path).run with
    | error e => rw [loadInto_cons_error hfile, loadInto_cons_error hfile]; rfl
    | ok s => rw [loadInto_cons_ok hfile, loadInto_cons_ok hfile, ih]

/-- Merging is an ordered monoid in which every set is idempotent, and a list of
files that is cut in two loads as its two parts, merged; the first error of all
is the answer. -/
theorem merging_is_an_ordered_monoid :
    (∀ a b c : DefinitionSet, (a.merge b).merge c = a.merge (b.merge c)) ∧
    (∀ a : DefinitionSet, empty.merge a = a ∧ a.merge empty = a ∧ a.merge a = a) ∧
    (∀ (a : DefinitionSet) (table palette : String) (legends : LegendDefs),
      a.define table palette legends = a.merge (single table palette legends)) ∧
    ∀ (disk : Disk Id) (ps qs : List String),
      (loadFiles disk (ps ++ qs)).run.1 =
        match (loadFiles disk ps).run.1, (loadFiles disk qs).run.1 with
        | .error e, _ => .error e
        | .ok _, .error e => .error e
        | .ok s, .ok t => .ok (s.merge t) := by
  refine ⟨merge_assoc, fun a => ⟨empty_merge a, merge_empty a, merge_self a⟩, define_eq_merge, ?_⟩
  intro disk ps qs
  rw [loadFiles, loadInto_append]
  cases hps : (loadInto disk empty #[] ps).run.1 with
  | error e => simp [loadFiles, hps, Except.bind]
  | ok s =>
    cases hqs : (loadFiles disk qs).run.1 with
    | error e => simp [loadFiles, hps, Except.bind, Except.map]
    | ok t => simp [loadFiles, hps, Except.bind, Except.map]

end Palettes.DefinitionSet
