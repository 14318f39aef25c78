import Palettes.Proofs.ExitCode
import Palettes.Proofs.MergeLaws

/-!
What the validation of a configuration says about loading. It looks at paths as
they are written, before they are seen from the directory of the configuration
file, and rejects those that would be refused for their names alone. Seen from
another directory a path keeps its last piece, and with it the name of the file
and the extension, so that no path that was accepted is refused later on.
-/
namespace Palettes

/-! ## Joined paths -/

namespace FilePath

/-- Behind a slash the pieces of a relative path stay what they are. -/
theorem pieces_slash {s t : String} {xs : List Char} (h : isAbsolute s = false)
    (ht : t.toList = xs ++ '/' :: s.toList) :
    ∃ above, (ofText t).pieces = (ofText s).pieces ++ above := by
  rw [ofText_relative h]
  cases xs with
  | nil =>
    rw [ofText, ht]
    exact ⟨[], by simp⟩
  | cons x xs =>
    unfold ofText
    split
    · next cs hcs =>
      rw [ht, List.cons_append, List.cons_eq_cons] at hcs
      rw [← hcs.2]
      exact ⟨_, split_slash [] [] xs s.toList⟩
    · rw [ht]
      exact ⟨_, split_slash [] [] (x :: xs) s.toList⟩

/-- A piece that names a file ends the path under whatever else it stands. -/
theorem settle_append {name : String} {rest ps : List String} (h : settle false ps = name :: rest)
    (hname : name ≠ ".") (rooted : Bool) (above : List String) :
    settle rooted (ps ++ above) = name :: (rest ++ above) := by
  induction ps with
  | nil => cases h
  | cons s ps ih =>
    rw [settle] at h
    rw [List.cons_append, settle]
    split at h
    · next hs =>
      rw [if_pos ?_, ih h]
      refine hs.imp_right fun hdot => ⟨hdot.1, .inr ?_⟩
      simp_all
    · next hs =>
      obtain ⟨rfl, rfl⟩ := List.cons.inj h
      rw [if_neg fun hs' => ?_]
      obtain hempty | ⟨hdot, -⟩ := hs'
      · exact hs (.inl hempty)
      · exact hname hdot

theorem join_absolute {s : String} (h : isAbsolute s = true) (base : String) : join base s = s := by
  rw [join, if_pos h]

theorem join_relative {s : String} (h : isAbsolute s = false) (base : String) :
    join base s = s ∨ ∃ xs, (join base s).toList = xs ++ '/' :: s.toList := by
  rw [join, h, if_neg Bool.false_ne_true]
  split
  · next hbase =>
    rw [Bool.or_eq_true, beq_iff_eq] at hbase
    obtain hempty | hlast := hbase
    · rw [String.isEmpty_iff] at hempty
      exact .inl (by rw [hempty, String.empty_append])
    · obtain ⟨xs, hxs⟩ := List.getLast?_eq_some_iff.mp hlast
      exact .inr ⟨xs, by simp [hxs]⟩
  · exact .inr ⟨base.toList, by simp⟩

/-- A file keeps its name, seen from whatever directory. -/
theorem fileName?_join {s name : String} (h : fileName? s = some name) (base : String) :
    fileName? (join base s) = some name := by
  cases habsolute : isAbsolute s with
  | true => rwa [join_absolute habsolute]
  | false =>
    obtain hjoin | ⟨xs, hxs⟩ := join_relative habsolute base
    · rwa [hjoin]
    · obtain ⟨above, habove⟩ := pieces_slash habsolute hxs
      simp only [fileName?] at h ⊢
      rw [ofText_relative habsolute] at h habove
      rw [habove]
      split at h
      · next first rest hsettle =>
        split at h
        · cases h
        · next hfirst =>
          rw [settle_append hsettle fun hdot => hfirst (.inl hdot)]
          simp only [if_neg hfirst]
          exact h
      · cases h

theorem extension?_join {s e : String} (h : extension? s = some e) (base : String) :
    extension? (join base s) = some e := by
  obtain ⟨name, hname, hext⟩ := Option.bind_eq_some_iff.mp h
  exact Option.bind_eq_some_iff.mpr ⟨name, fileName?_join hname base, hext⟩

end FilePath

theorem DefinitionFormat.ofPath?_join {path : String} {format : DefinitionFormat}
    (h : ofPath? path = some format) (base : String) :
    ofPath? (FilePath.join base path) = some format := by
  cases hext : FilePath.extension? path with
  | none => simp [ofPath?, hext] at h
  | some e =>
    rw [ofPath?, hext] at h
    rwa [ofPath?, FilePath.extension?_join hext]

/-! ## Faults -/

/-- The index of the path that is at fault. -/
def ConfigFault.index : ConfigFault → Nat
  | .emptyPath i | .notDefinitions i _ => i

theorem ConfigFault.field_eq (f : ConfigFault) :
    f.field = "definitions.paths[" ++ toString f.index ++ "]" := by
  cases f <;> rfl

namespace Config

/-- A path is at fault if it has no format; an empty one has none either. -/
theorem fault?_isSome_iff {i : Nat} {path : String} :
    (fault? i path).isSome ↔ DefinitionFormat.ofPath? path = none := by
  unfold fault?
  split
  · next hempty =>
    rw [String.isEmpty_iff] at hempty
    subst hempty
    simp
    rfl
  · split
    · next hnone => simpa using hnone
    · next hsome => simpa using hsome

theorem index_of_fault? {i : Nat} {path : String} {f : ConfigFault} (h : fault? i path = some f) :
    f.index = i := by
  unfold fault? at h
  split at h
  · cases h
    rfl
  · split at h
    · cases h
      rfl
    · cases h

/-- Faults come in the order of the paths, at most one for each. -/
theorem indices_sublist (k : Nat) (paths : List String) :
    ((faultsFrom k paths).map ConfigFault.index).Sublist (List.range' k paths.length) := by
  induction paths generalizing k with
  | nil => exact .slnil
  | cons path paths ih =>
    rw [faultsFrom, List.length_cons, List.range'_succ, List.map_append]
    cases hfault : fault? k path with
    | none => exact (ih (k + 1)).cons k
    | some f =>
      rw [Option.toList_some, List.map_singleton, index_of_fault? hfault]
      exact (ih (k + 1)).cons_cons k

theorem mem_index_iff {i k : Nat} {path : String} :
    i ∈ (fault? k path).toList.map ConfigFault.index ↔
      i = k ∧ DefinitionFormat.ofPath? path = none := by
  rw [← fault?_isSome_iff (i := k)]
  cases hfault : fault? k path with
  | none => simp
  | some f => simp [index_of_fault? hfault]

theorem mem_indices_iff {i k : Nat} {paths : List String} :
    i ∈ (faultsFrom k paths).map ConfigFault.index ↔
      ∃ j path, i = k + j ∧ paths[j]? = some path ∧ DefinitionFormat.ofPath? path = none := by
  induction paths generalizing k with
  | nil => simp [faultsFrom]
  | cons path paths ih =>
    rw [faultsFrom, List.map_append, List.mem_append, mem_index_iff, ih]
    constructor
    · rintro (⟨rfl, hnone⟩ | ⟨j, other, rfl, hj, hnone⟩)
      · exact ⟨0, path, rfl, rfl, hnone⟩
      · exact ⟨j + 1, other, by omega, hj, hnone⟩
    · rintro ⟨_ | j, other, rfl, hj, hnone⟩
      · cases hj
        exact .inl ⟨rfl, hnone⟩
      · exact .inr ⟨j, other, by omega, hj, hnone⟩

theorem faults_eq_nil_iff {c : Config} :
    c.faults = [] ↔ ∀ path ∈ c.paths, ∃ format, DefinitionFormat.ofPath? path = some format := by
  rw [← List.map_eq_nil_iff (f := ConfigFault.index), List.eq_nil_iff_forall_not_mem, faults]
  simp only [mem_indices_iff]
  constructor
  · intro h path hpath
    obtain ⟨j, hj⟩ := List.mem_iff_getElem?.mp hpath
    exact Option.ne_none_iff_exists'.mp fun hnone => h (0 + j) ⟨j, path, rfl, hj, hnone⟩
  · rintro h i ⟨j, path, -, hj, hnone⟩
    obtain ⟨format, hformat⟩ := h path (List.mem_of_getElem? hj)
    rw [hnone] at hformat
    cases hformat

end Config

/-! ## Loading -/

namespace DefinitionSet

variable {disk : Disk Id} {paths : List String}

theorem ofText_ne_unsupported (format : DefinitionFormat) (s path : String) :
    ofText format s ≠ .error (.unsupported path) := by
  cases format with
  | json => cases h : ofJsonText s <;> simp [ofText, h, Except.mapError]
  | toml => cases h : ofTomlText s <;> simp [ofText, h, Except.mapError]

/-- A file is refused as unsupported for its path alone. -/
theorem loadFile_unsupported_iff {path other : String} :
    (loadFile disk path).run = .error (.unsupported other) ↔
      other = path ∧ DefinitionFormat.ofPath? path = none := by
  cases hformat : DefinitionFormat.ofPath? path with
  | none => simp [loadFile, hformat, eq_comm]
  | some format =>
    refine iff_of_false (fun h => ?_) (by simp)
    simp only [loadFile, hformat, Id.run_bind] at h
    split at h
    · simp at h
    · exact ofText_ne_unsupported format _ other h

/-- The error of several files is the error of one of them. -/
theorem loadInto_eq_error {set : DefinitionSet} {log : Array Note} {e : LoadError}
    (h : (loadInto disk set log paths).run.1 = .error e) :
    ∃ path ∈ paths, (loadFile disk path).run = .error e := by
  induction paths generalizing set log with
  | nil => cases h
  | cons path paths ih =>
    cases hfile : (loadFile disk path).run with
    | error e' =>
      rw [loadInto_cons_error hfile] at h
      cases h
      exact ⟨path, List.mem_cons_self, hfile⟩
    | ok s =>
      rw [loadInto_cons_ok hfile] at h
      obtain ⟨other, hmem, he⟩ := ih h
      exact ⟨other, List.mem_cons_of_mem path hmem, he⟩

theorem loadFiles_supported
    (h : ∀ path ∈ paths, ∃ format, DefinitionFormat.ofPath? path = some format) (path : String) :
    (loadFiles disk paths).run.1 ≠ .error (.unsupported path) := by
  intro herror
  obtain ⟨other, hmem, hother⟩ := loadInto_eq_error herror
  obtain ⟨format, hformat⟩ := h other hmem
  rw [(loadFile_unsupported_iff.mp hother).2] at hformat
  cases hformat

end DefinitionSet

namespace Config

/-- A path of a configuration file, as it is seen from where the program runs. -/
def seen (file path : String) : String :=
  if FilePath.isAbsolute path then path
  else ((FilePath.parent? file).map (FilePath.join · path)).getD path

theorem paths_relativeTo (file : String) (c : Config) :
    (c.relativeTo file).paths = c.paths.map (seen file) := by
  unfold relativeTo seen
  cases FilePath.parent? file with
  | none => simp
  | some dir =>
    refine List.map_congr_left fun path _ => ?_
    cases h : FilePath.isAbsolute path with
    | true => simp [FilePath.join_absolute h]
    | false => simp

theorem ofPath?_seen {path : String} {format : DefinitionFormat}
    (h : DefinitionFormat.ofPath? path = some format) (file : String) :
    DefinitionFormat.ofPath? (seen file path) = some format := by
  unfold seen
  split
  · exact h
  · cases FilePath.parent? file with
    | none => exact h
    | some dir => exact DefinitionFormat.ofPath?_join h dir

theorem loadFile_eq_ok_iff {disk : Disk Id} {file : String} {loaded : Config} :
    (loadFile disk file).run.1 = .ok loaded ↔
      ∃ s written, (disk.read file).run = .ok s ∧ ofTomlText s = .ok written ∧
        written.faults = [] ∧ loaded = written.relativeTo file := by
  rw [loadFile_eq]
  constructor
  · intro h
    cases hread : (disk.read file).run with
    | error fault => simp [hread] at h
    | ok s =>
      cases hparse : ofTomlText s with
      | error fault => simp [hread, ofFileText, hparse] at h
      | ok written =>
        by_cases hfaults : written.faults = []
        · simp only [hread, ofFileText, hparse, hfaults, List.isEmpty_nil, if_true,
            Except.ok.injEq] at h
          exact ⟨s, written, rfl, hparse, hfaults, h.symm⟩
        · simp [hread, ofFileText, hparse, hfaults] at h
  · rintro ⟨s, written, hread, hparse, hfaults, rfl⟩
    simp [hread, ofFileText, hparse, hfaults]

/-- Validation reports the indices, in ascending order and each once, of the paths
that are empty or that loading would refuse as unsupported. What is left of a
configuration file that was accepted is its paths, in their order, absolute ones
as they are and the others as seen from the file's directory, and unless other
files are given none of them is refused as unsupported. -/
theorem validation_foresees_loading (disk : Disk Id) :
    (∀ c : Config,
      (c.faults.map ConfigFault.index).Pairwise (· < ·) ∧
      (∀ f ∈ c.faults, f.field = "definitions.paths[" ++ toString f.index ++ "]") ∧
      ∀ i, i ∈ c.faults.map ConfigFault.index ↔ ∃ path, c.paths[i]? = some path ∧
        (path = "" ∨ (DefinitionSet.loadFile disk path).run = .error (.unsupported path))) ∧
    ∀ file loaded, (loadFile disk file).run.1 = .ok loaded →
      ∃ s written, (disk.read file).run = .ok s ∧ ofTomlText s = .ok written ∧
        loaded.paths = written.paths.map (seen file) ∧
        ∀ (disk' : Disk Id) (o : Overrides) (path : String), o.definitions = [] →
          (DefinitionSet.loadFiles disk' (loaded.override o).paths).run.1 ≠
            .error (.unsupported path) := by
  refine ⟨fun c => ⟨?_, fun f _ => f.field_eq, fun i => ?_⟩, fun file loaded h => ?_⟩
  · exact List.Pairwise.sublist (indices_sublist 0 c.paths) List.pairwise_lt_range'
  · rw [faults, mem_indices_iff]
    simp only [Nat.zero_add, DefinitionSet.loadFile_unsupported_iff, true_and]
    constructor
    · rintro ⟨_, path, rfl, hpath, hnone⟩
      exact ⟨path, hpath, .inr hnone⟩
    · rintro ⟨path, hpath, rfl | hnone⟩
      · exact ⟨i, "", rfl, hpath, rfl⟩
      · exact ⟨i, path, rfl, hpath, hnone⟩
  · obtain ⟨s, written, hread, hparse, hfaults, rfl⟩ := loadFile_eq_ok_iff.mp h
    refine ⟨s, written, hread, hparse, paths_relativeTo file written, ?_⟩
    intro disk' o path ho
    have hpaths : ((written.relativeTo file).override o).paths = written.paths.map (seen file) := by
      rw [override, ho, paths_relativeTo]
      rfl
    rw [hpaths]
    refine DefinitionSet.loadFiles_supported (fun p hp => ?_) path
    obtain ⟨path', hpath', rfl⟩ := List.mem_map.mp hp
    obtain ⟨format, hformat⟩ := faults_eq_nil_iff.mp hfaults path' hpath'
    exact ⟨format, ofPath?_seen hformat file⟩

/-- A disk with a configuration file, and nothing that it names. -/
def shelf : Disk Id where
  read path :=
    if path = "etc//mpal.toml/." then
      .ok "definitions.paths = ['a.json/.', '/b/c.toml', './.d.json']"
    else .error .notFound
  holds _ := false
  currentDirectory := none

/-- Of five paths four are at fault, the last for its last piece. A path that ends
in a dot or begins with one is accepted, and not refused later. -/
theorem shelf_is_valid :
    (faults { paths := ["a.yaml", "b.json", "", ".toml", "c.json/.."] }).map ConfigFault.index =
        [0, 2, 3, 4] ∧
      (DefinitionSet.loadFile shelf "c.json/..").run = .error (.unsupported "c.json/..") ∧
      (loadFile shelf "etc//mpal.toml/.").run.1 =
        .ok { paths := ["etc/a.json/.", "/b/c.toml", "etc/./.d.json"] } ∧
      ∀ path, (DefinitionSet.loadFiles shelf
        ["etc/a.json/.", "/b/c.toml", "etc/./.d.json"]).run.1 ≠ .error (.unsupported path) := by
  obtain ⟨hfaults, hloading⟩ := validation_foresees_loading shelf
  have hindices : (faults { paths := ["a.yaml", "b.json", "", ".toml", "c.json/.."] }).map
      ConfigFault.index = [0, 2, 3, 4] := by decide +kernel
  have hload : (loadFile shelf "etc//mpal.toml/.").run.1 =
      .ok { paths := ["etc/a.json/.", "/b/c.toml", "etc/./.d.json"] } := by decide +kernel
  refine ⟨hindices, ?_, hload, fun path => ?_⟩
  · obtain ⟨path, hpath, hrefused⟩ := ((hfaults _).2.2 4).mp (by rw [hindices]; decide)
    cases hpath
    exact hrefused.resolve_left (by decide)
  · obtain ⟨_, _, _, _, _, hsupported⟩ := hloading _ _ hload
    exact hsupported shelf {} path rfl

end Config

end Palettes
