import Palettes.Program
import Palettes.Proofs.Merging
import Palettes.Proofs.RoundTrip
import Palettes.Proofs.Success

/-!
What the program exits with. The first thing that goes wrong decides the code:
the command line, the configuration, the list of definition files, one of these
files, and last the resolution, which fails exactly if a palette asked for is
not grounded. Each stage says what exit fits it and leaves the rest to the next
one. Whatever goes wrong, nothing is printed.
-/
namespace Palettes

/-! ## Configurations -/

namespace Config

variable {disk : Disk Id} {file : String} {file? : Option String}

/-- The configuration file that counts: the one given, else the nearest one. -/
def chosen (disk : Disk Id) (file? : Option String) : Option String :=
  match file? with
  | some file => some file
  | none => (find disk).run

/-- A configuration file that cannot be read or parsed, or that is not valid. -/
inductive Unfit (disk : Disk Id) (file : String) : Prop
  | unreadable {fault : ReadFault} : (disk.read file).run = .error fault → Unfit disk file
  | malformed {s : String} {fault : Toml.Fault} :
    (disk.read file).run = .ok s → ofTomlText s = .error fault → Unfit disk file
  | invalid {s : String} {c : Config} :
    (disk.read file).run = .ok s → ofTomlText s = .ok c → c.faults ≠ [] → Unfit disk file

/-- No configuration comes of the file that counts. -/
def Unusable (disk : Disk Id) (file? : Option String) : Prop :=
  ∃ file, chosen disk file? = some file ∧ Unfit disk file

theorem loadFile_eq (disk : Disk Id) (file : String) :
    (loadFile disk file).run.1 = match (disk.read file).run with
      | .error fault => .error (.unreadable fault)
      | .ok s => ofFileText file s := by
  rw [loadFile, Id.run_bind]
  cases (disk.read file).run with
  | error fault => rfl
  | ok s =>
    dsimp only
    cases ofFileText file s <;> rfl

theorem loadFile_eq_error_iff : (∃ e, (loadFile disk file).run.1 = .error e) ↔ Unfit disk file := by
  rw [loadFile_eq]
  constructor
  · rintro ⟨e, he⟩
    cases hread : (disk.read file).run with
    | error fault => exact .unreadable hread
    | ok s =>
      cases hparse : ofTomlText s with
      | error fault => exact .malformed hread hparse
      | ok c =>
        refine .invalid hread hparse fun hfaults => ?_
        simp [hread, ofFileText, hparse, hfaults] at he
  · rintro (hread | ⟨hread, hparse⟩ | ⟨hread, hparse, hfaults⟩)
    · simp [hread]
    · simp [hread, ofFileText, hparse]
    · simp [hread, ofFileText, hparse, hfaults]

theorem load_eq (disk : Disk Id) (file? : Option String) :
    (load disk file?).run.1 = match chosen disk file? with
      | some file => (loadFile disk file).run.1
      | none => .ok {} := by
  cases file? with
  | some file => rfl
  | none =>
    rw [load, Id.run_bind, chosen]
    cases (find disk).run <;> rfl

theorem load_eq_error_iff : (∃ e, (load disk file?).run.1 = .error e) ↔ Unusable disk file? := by
  rw [load_eq, Unusable]
  cases hchosen : chosen disk file? with
  | none => simp
  | some file => simpa using loadFile_eq_error_iff

theorem load_of_usable (h : ¬ Unusable disk file?) : ∃ c, (load disk file?).run.1 = .ok c := by
  cases hload : (load disk file?).run.1 with
  | error e => exact absurd (load_eq_error_iff.mp ⟨e, hload⟩) h
  | ok c => exact ⟨c, rfl⟩

end Config

/-! ## Definition files -/

namespace DefinitionSet

variable {disk : Disk Id} {paths : List String}

theorem loadFiles_of_bad {path : String} {e : LoadError} (hpath : path ∈ paths)
    (he : (loadFile disk path).run = .error e) : ∃ e, (loadFiles disk paths).run.1 = .error e := by
  cases hload : (loadFiles disk paths).run.1 with
  | error e => exact ⟨e, rfl⟩
  | ok merged =>
    obtain ⟨sets, hsets, -⟩ := loadFiles_eq_ok_iff.mp hload
    have hmem : (loadFile disk path).run ∈ sets.map Except.ok := by
      rw [← hsets]
      exact List.mem_map_of_mem hpath
    rw [he] at hmem
    simp at hmem

theorem exists_sets (h : ∀ path ∈ paths, ∃ s, (loadFile disk path).run = .ok s) :
    ∃ sets : List DefinitionSet,
      (paths.map fun path => (loadFile disk path).run) = sets.map Except.ok := by
  induction paths with
  | nil => exact ⟨[], rfl⟩
  | cons path paths ih =>
    obtain ⟨s, hs⟩ := h path List.mem_cons_self
    obtain ⟨sets, hsets⟩ := ih fun p hp => h p (List.mem_cons_of_mem path hp)
    exact ⟨s :: sets, by rw [List.map_cons, hs, hsets, List.map_cons]⟩

end DefinitionSet

/-! ## Resolutions -/

/-- Of the palettes of a table those asked for: the one that is named, or all. -/
def PreparedTable.wanted (t : PreparedTable) : Option String → List String
  | some palette => [palette]
  | none => t.names

namespace Program

section Resolution

variable {σ : Type} {l : Listener Unit σ} {hear : σ → Event → σ} (hl : l.Follows () hear)
  {config : Config} {set : DefinitionSet} {table : String} {palette : Option String} {s : σ}

include hl

theorem resolution?_ends (hguard : config.detectCycles = true ∨
      ∀ p ∈ (PreparedTable.ofSource set.lookup table).wanted palette,
        ¬ (PreparedTable.ofSource set.lookup table).LeadsToCycle p) :
    ∃ o, resolution? config set table palette l s = some o := by
  cases palette with
  | none => exact Resolver.resolve?_ends hl { options := config.options } hguard s
  | some p =>
    have hpalette := hguard.imp id fun h => h p List.mem_cons_self
    obtain ⟨o, ho⟩ := Resolver.resolvePalette?_ends hl { options := config.options } hpalette s
    exact ⟨_, by rw [resolution?, ho, Option.map_some]⟩

theorem resolution?_ok_iff {o : Resolver.Outcome σ Bool}
    (h : resolution? config set table palette l s = some o) :
    (∃ b, o.result = .ok b) ↔
      ∀ p ∈ (PreparedTable.ofSource set.lookup table).wanted palette,
        (PreparedTable.ofSource set.lookup table).Grounded p := by
  cases palette with
  | some p =>
    obtain ⟨o', ho', rfl⟩ := Option.map_eq_some_iff.mp h
    have hiff := Resolver.resolvePalette?_ok_iff hl { options := config.options } ho'
    have hgrounded : o'.result = .ok () ↔ (PreparedTable.ofSource set.lookup table).Grounded p :=
      hiff
    rw [PreparedTable.wanted, List.forall_mem_singleton, ← hgrounded]
    cases o'.result <;> simp [Except.map]
  | none =>
    cases hdefs : set.lookup table with
    | none =>
      have hempty : PreparedTable.ofSource set.lookup table = .empty := by
        rw [PreparedTable.ofSource, hdefs]
      have ho := Resolver.resolve?_none { options := config.options } l () s hdefs
      obtain rfl := Option.some.inj (h.symm.trans ho)
      simp [PreparedTable.wanted, hempty, PreparedTable.names, PreparedTable.empty]
    | some defs =>
      have htable : PreparedTable.ofSource set.lookup table = .ofDefs defs := by
        rw [PreparedTable.ofSource, hdefs]
      obtain ⟨v, -, hresult, -⟩ := Resolver.resolve?_told hdefs h
      have hiff := Resolver.resolve?_ok_iff hl { options := config.options } hdefs h
      rw [PreparedTable.wanted, htable, ← hiff, hresult]
      cases v <;> simp [Except.map]

end Resolution

/-- What a resolution exits with. -/
def codeOf : Except ResolveError Bool → Nat
  | .error _ => 1
  | .ok _ => 0

section Printing

variable {σ : Type} {config : Config} {set : DefinitionSet} {table : String}
  {palette : Option String} {l : Listener Unit σ} {s : σ} {print : σ → String × List Note}
  {o : Resolver.Outcome σ Bool}

theorem resolveInto_code (h : resolution? config set table palette l s = some o) :
    (resolveInto config set table palette l s print).code = codeOf o.result := by
  rw [resolveInto, h]
  dsimp only
  cases o.result with
  | error e => rfl
  | ok b => cases b <;> rfl

/-- A table without definitions is no error, but there is nothing to print. -/
theorem resolveInto_undefined (h : set.lookup table = none) :
    (resolveInto config set table none l s print).code = 0 ∧
      (resolveInto config set table none l s print).output = "" := by
  have hnothing := Resolver.resolve?_none { options := config.options } l () s h
  have hresolution : resolution? config set table none l s = _ := hnothing
  rw [resolveInto, hresolution]
  exact ⟨rfl, rfl⟩

end Printing

/-- Only a command that succeeds prints. -/
def Outcome.Quiet (o : Outcome) : Prop := o.output ≠ "" → o.code = 0

theorem Outcome.quiet_fault (code : Nat) (log : Array Note) (message : String) :
    (Outcome.fault code log message).Quiet :=
  fun h => absurd rfl h

theorem resolveInto_quiet {σ : Type} (config : Config) (set : DefinitionSet) (table : String)
    (palette : Option String) (l : Listener Unit σ) (s : σ) (print : σ → String × List Note) :
    (resolveInto config set table palette l s print).Quiet := by
  rw [resolveInto]
  split
  · exact Outcome.quiet_fault _ _ _
  · split
    · exact Outcome.quiet_fault _ _ _
    · exact fun _ => rfl
    · exact fun _ => rfl

/-! ## Commands -/

/-- The table that a command resolves, and the palette that it names. -/
def target? : Command → Option (String × Option String)
  | .resolve _ table palette _ _ | .events _ table palette _ => some (table, palette)
  | .tables _ => none

/-- How the resolution that a command asks for ends. -/
def result? (config : Config) (set : DefinitionSet) : Command → Option (Except ResolveError Bool)
  | .resolve _ table palette _ _ =>
    (resolution? config set table palette Builder.listener {}).map (·.result)
  | .events _ table palette _ =>
    (resolution? config set table palette (Recorder.listener true) #[]).map (·.result)
  | .tables _ => some (.ok true)

/-- All that a command asks for is grounded. -/
def AllGrounded (set : DefinitionSet) (command : Command) : Prop :=
  match target? command with
  | some (table, palette) =>
    ∀ p ∈ (PreparedTable.ofSource set.lookup table).wanted palette,
      (PreparedTable.ofSource set.lookup table).Grounded p
  | none => True

/-- Cycles are detected, or nothing that a command asks for leads to one. -/
def Guarded (config : Config) (set : DefinitionSet) (command : Command) : Prop :=
  config.detectCycles = true ∨ match target? command with
    | some (table, palette) =>
      ∀ p ∈ (PreparedTable.ofSource set.lookup table).wanted palette,
        ¬ (PreparedTable.ofSource set.lookup table).LeadsToCycle p
    | none => True

section Commands

variable {config : Config} {set : DefinitionSet} {command : Command}

theorem perform_quiet (config : Config) (set : DefinitionSet) (command : Command) :
    (perform config set command).Quiet := by
  cases command with
  | resolve files table palette format allowCycles => exact resolveInto_quiet _ _ _ _ _ _ _
  | events files table palette allowCycles => exact resolveInto_quiet _ _ _ _ _ _ _
  | tables files => exact fun _ => rfl

theorem perform_code {r : Except ResolveError Bool} (h : result? config set command = some r) :
    (perform config set command).code = codeOf r := by
  cases command with
  | resolve files table palette format allowCycles =>
    obtain ⟨o, ho, rfl⟩ := Option.map_eq_some_iff.mp h
    exact resolveInto_code ho
  | events files table palette allowCycles =>
    obtain ⟨o, ho, rfl⟩ := Option.map_eq_some_iff.mp h
    exact resolveInto_code ho
  | tables files =>
    cases h
    rfl

theorem perform_undefined {table : String} (htarget : target? command = some (table, none))
    (hnone : set.lookup table = none) :
    (perform config set command).code = 0 ∧ (perform config set command).output = "" := by
  cases command with
  | resolve files table palette format allowCycles =>
    cases htarget
    exact resolveInto_undefined hnone
  | events files table palette allowCycles =>
    cases htarget
    exact resolveInto_undefined hnone
  | tables files => cases htarget

/-- A guarded command comes to an end, and without an error exactly if all that it
asks for is grounded. -/
theorem result?_ends (hguard : Guarded config set command) :
    ∃ r, result? config set command = some r ∧ ((∃ b, r = .ok b) ↔ AllGrounded set command) := by
  cases command with
  | resolve files table palette format allowCycles =>
    obtain ⟨o, ho⟩ := resolution?_ends Builder.follows hguard
    exact ⟨o.result, by rw [result?, ho, Option.map_some], resolution?_ok_iff Builder.follows ho⟩
  | events files table palette allowCycles =>
    obtain ⟨o, ho⟩ := resolution?_ends Recorder.follows hguard
    exact ⟨o.result, by rw [result?, ho, Option.map_some], resolution?_ok_iff Recorder.follows ho⟩
  | tables files => exact ⟨.ok true, rfl, by simp [AllGrounded, target?]⟩

end Commands

/-! ## Exits -/

namespace Exit

/-- The exit where the definitions are merged: with an error from the resolution
or without, the latter exactly if all that is asked for is grounded. A table
without definitions is no error, and to list tables never is one. -/
structure FitsResolution (exit : Exit) (config : Config) (set : DefinitionSet) (command : Command) :
    Prop where
  resolution : Guarded config set command →
    (∃ e, result? config set command = some (.error e) ∧ exit.code = 1 ∧
      ¬ AllGrounded set command) ∨
    (∃ b, result? config set command = some (.ok b) ∧ exit.code = 0 ∧ AllGrounded set command)
  undefined : ∀ table, target? command = some (table, none) → set.lookup table = none →
    exit.code = 0 ∧ exit.stdout = ""
  tables : ∀ files, command = .tables files → exit.code = 0

/-- The exit where the configuration is settled. -/
structure FitsFiles (exit : Exit) (disk : Disk Id) (config : Config) (command : Command) :
    Prop where
  noFiles : config.paths = [] → exit.code = 2
  badFile : ∀ path ∈ config.paths, ∀ e, (DefinitionSet.loadFile disk path).run = .error e →
    exit.code = 1
  loaded : config.paths ≠ [] →
    (∀ path ∈ config.paths, ∃ s, (DefinitionSet.loadFile disk path).run = .ok s) →
    ∃ sets : List DefinitionSet,
      (config.paths.map fun path => (DefinitionSet.loadFile disk path).run) = sets.map Except.ok ∧
      exit.FitsResolution config (DefinitionSet.mergeAll sets) command

/-- The exit of the whole program. Help and the version are the only output that
no command makes. -/
structure FitsWords (exit : Exit) (disk : Disk Id) (words : List String) : Prop where
  quiet : exit.stdout ≠ "" → exit.code = 0
  usage : ∀ fault, CommandLine.parse words = .error fault →
    exit.code = if fault = .help ∨ fault = .version then 0 else 2
  unusable : ∀ line, CommandLine.parse words = .ok line → Config.Unusable disk line.config →
    exit.code = 1
  usable : ∀ line, CommandLine.parse words = .ok line → ¬ Config.Unusable disk line.config →
    ∃ config, (Config.load disk line.config).run.1 = .ok config ∧
      exit.FitsFiles disk (config.override (overrides line.command)) line.command

end Exit

variable {disk : Disk Id}

theorem perform_fits (config : Config) (set : DefinitionSet) (command : Command)
    (log : Array Note) (verbosity : Nat) :
    (((perform config set command).after log).exit verbosity).FitsResolution config set
      command where
  resolution hguard := by
    obtain ⟨r, hr, hiff⟩ := result?_ends hguard
    cases r with
    | error e => exact .inl ⟨e, hr, perform_code hr, by simpa using hiff⟩
    | ok b => exact .inr ⟨b, hr, perform_code hr, hiff.mp ⟨b, rfl⟩⟩
  undefined _ htarget hnone := perform_undefined htarget hnone
  tables files h := by rw [h]; rfl

section Files

variable {config : Config} {log : Array Note} {command : Command}

theorem runWith_noFiles (disk : Disk Id) (log : Array Note) (command : Command)
    (h : config.paths = []) :
    ∃ message, (runWith disk config log command).run = .fault 2 log message := by
  rw [runWith, h]
  exact ⟨_, rfl⟩

theorem runWith_eq (hpaths : config.paths ≠ []) :
    (runWith disk config log command).run =
      match (DefinitionSet.loadFiles disk config.paths).run with
      | (.error e, log') => .fault 1 (log ++ log') e.message
      | (.ok set, log') => (perform config set command).after (log ++ log') := by
  have hempty : config.paths.isEmpty = false := by simpa using hpaths
  rw [runWith, hempty]
  change (DefinitionSet.loadFiles disk config.paths >>= _).run = _
  rw [Id.run_bind]
  generalize (DefinitionSet.loadFiles disk config.paths).run = loading
  obtain ⟨loaded, log'⟩ := loading
  cases loaded <;> rfl

theorem runWith_badFile {path : String} {e : LoadError} (hpath : path ∈ config.paths)
    (he : (DefinitionSet.loadFile disk path).run = .error e) :
    (runWith disk config log command).run.code = 1 := by
  obtain ⟨e, hload⟩ := DefinitionSet.loadFiles_of_bad hpath he
  rw [runWith_eq (List.ne_nil_of_mem hpath)]
  generalize (DefinitionSet.loadFiles disk config.paths).run = loading at hload ⊢
  obtain ⟨loaded, log'⟩ := loading
  cases hload
  rfl

theorem runWith_loaded {set : DefinitionSet} (hpaths : config.paths ≠ [])
    (hload : (DefinitionSet.loadFiles disk config.paths).run.1 = .ok set) :
    ∃ log', (runWith disk config log command).run = (perform config set command).after log' := by
  rw [runWith_eq hpaths]
  generalize (DefinitionSet.loadFiles disk config.paths).run = loading at hload ⊢
  obtain ⟨loaded, log'⟩ := loading
  cases hload
  exact ⟨log ++ log', rfl⟩

theorem runWith_quiet (disk : Disk Id) (config : Config) (log : Array Note) (command : Command) :
    (runWith disk config log command).run.Quiet := by
  by_cases hpaths : config.paths = []
  · obtain ⟨message, hrun⟩ := runWith_noFiles disk log command hpaths
    rw [hrun]
    exact Outcome.quiet_fault 2 log message
  · rw [runWith_eq hpaths]
    split
    · exact Outcome.quiet_fault _ _ _
    · exact perform_quiet _ _ _

theorem runWith_fits (disk : Disk Id) (config : Config) (log : Array Note) (command : Command)
    (verbosity : Nat) :
    ((runWith disk config log command).run.exit verbosity).FitsFiles disk config command where
  noFiles h := by
    obtain ⟨message, hrun⟩ := runWith_noFiles disk log command h
    rw [hrun]
    rfl
  badFile path hpath e he := runWith_badFile hpath he
  loaded hpaths hfiles := by
    obtain ⟨sets, hsets⟩ := DefinitionSet.exists_sets hfiles
    have hload := DefinitionSet.loadFiles_eq_ok_iff.mpr ⟨sets, hsets, rfl⟩
    obtain ⟨log', hrun⟩ := runWith_loaded hpaths hload
    rw [hrun]
    exact ⟨sets, hsets, perform_fits _ _ _ _ _⟩

end Files

theorem run_of_usable {line : CommandLine} {config : Config}
    (hload : (Config.load disk line.config).run.1 = .ok config) :
    ∃ log, (run disk line).run =
      (runWith disk (config.override (overrides line.command)) log line.command).run.exit
        line.verbosity := by
  rw [run, Id.run_bind]
  generalize (Config.load disk line.config).run = loading at hload ⊢
  obtain ⟨loaded, log⟩ := loading
  cases hload
  exact ⟨log, rfl⟩

theorem run_of_unusable {line : CommandLine} (h : Config.Unusable disk line.config) :
    ∃ log e, (run disk line).run =
      (Outcome.fault 1 log (Config.LoadError.message e)).exit line.verbosity := by
  obtain ⟨e, hload⟩ := Config.load_eq_error_iff.mpr h
  rw [run, Id.run_bind]
  generalize (Config.load disk line.config).run = loading at hload ⊢
  obtain ⟨loaded, log⟩ := loading
  cases hload
  exact ⟨log, e, rfl⟩

theorem usageExit_quiet (fault : UsageFault) :
    (usageExit fault).stdout ≠ "" → (usageExit fault).code = 0 := by
  cases fault <;> simp [usageExit, UsageFault.code]

theorem code_usageExit (fault : UsageFault) :
    (usageExit fault).code = if fault = .help ∨ fault = .version then 0 else 2 := by
  cases fault <;> simp [usageExit, UsageFault.code]

theorem run_quiet (disk : Disk Id) (line : CommandLine) :
    (run disk line).run.stdout ≠ "" → (run disk line).run.code = 0 := by
  by_cases h : Config.Unusable disk line.config
  · obtain ⟨log, e, hrun⟩ := run_of_unusable h
    rw [hrun]
    exact Outcome.quiet_fault 1 log e.message
  · obtain ⟨config, hload⟩ := Config.load_of_usable h
    obtain ⟨log, hrun⟩ := run_of_usable hload
    rw [hrun]
    exact runWith_quiet _ _ _ _

/-- The first thing that goes wrong decides what the program exits with. -/
theorem first_fault_decides (disk : Disk Id) (words : List String) :
    (start disk words).run.FitsWords disk words where
  quiet := by
    rw [start]
    cases CommandLine.parse words with
    | error fault => exact usageExit_quiet fault
    | ok line => exact run_quiet disk line
  usage fault h := by
    rw [start, h]
    exact code_usageExit fault
  unusable line h hunusable := by
    obtain ⟨log, e, hrun⟩ := run_of_unusable hunusable
    rw [start, h]
    dsimp only
    rw [hrun]
    rfl
  usable line h husable := by
    obtain ⟨config, hload⟩ := Config.load_of_usable husable
    obtain ⟨log, hrun⟩ := run_of_usable hload
    rw [start, h]
    dsimp only
    rw [hrun]
    exact ⟨config, hload, runWith_fits _ _ _ _ _⟩

def knotSet : DefinitionSet := ⟨.ofList [("shop", PreparedTable.knot)]⟩

/-- A disk with one file, which holds the palettes that extend each other. -/
def knotDisk : Disk Id where
  read path :=
    if path = "knot.json" then .ok knotSet.toJson.compactText else .error .notFound
  holds _ := false
  currentDirectory := none

theorem knot_loads : (DefinitionSet.loadFile knotDisk "knot.json").run = .ok knotSet := by
  have hformat : DefinitionFormat.ofPath? "knot.json" = some .json := by decide +kernel
  have hread : (knotDisk.read "knot.json").run = .ok knotSet.toJson.compactText := by
    simp only [knotDisk, if_true]
    rfl
  have htext : DefinitionSet.ofJsonText knotSet.toJson.compactText = .ok knotSet :=
    knotSet.reads_back.readsBack.1
  simp only [DefinitionSet.loadFile, hformat, Id.run_bind, hread, DefinitionSet.ofText, htext]
  rfl

theorem knot_not_grounded {command : Command} (h : target? command = some ("shop", none)) :
    ¬ AllGrounded (DefinitionSet.mergeAll [knotSet]) command := by
  have htable : PreparedTable.ofSource (DefinitionSet.mergeAll [knotSet]).lookup "shop" =
      .ofDefs PreparedTable.knot := by decide +kernel
  have hone : (PreparedTable.ofDefs PreparedTable.knot).Extends "one" "two" :=
    ⟨⟨"one", ["two"], .ofList [("main", ["id"])]⟩, by decide +kernel, by decide⟩
  have htwo : (PreparedTable.ofDefs PreparedTable.knot).Extends "two" "one" :=
    ⟨⟨"two", ["one", "gone"], .ofList [("-main", ["id"])]⟩, by decide +kernel, by decide⟩
  intro hall
  simp only [AllGrounded, h, htable] at hall
  have hgrounded := hall "one" (by decide +kernel)
  exact hgrounded.acyclic "one" .refl (.tail (.single hone) htwo)

/-- Palettes that extend each other are an error to resolve, and none to list. -/
theorem knot_exits :
    (start knotDisk ["resolve", "-t", "shop", "knot.json"]).run.code = 1 ∧
    (start knotDisk ["resolve", "-t", "shop", "knot.json"]).run.stdout = "" ∧
    (start knotDisk ["tables", "knot.json"]).run.code = 0 := by
  have hparse : CommandLine.parse ["resolve", "-t", "shop", "knot.json"] =
      .ok { command := .resolve ["knot.json"] "shop" none none false } := by
    rw [CommandLine.parse, CommandLine.readBefore]
    rfl
  have hparse' : CommandLine.parse ["tables", "knot.json"] =
      .ok { command := .tables ["knot.json"] } := by
    rw [CommandLine.parse, CommandLine.readBefore]
    rfl
  have husable : ¬ Config.Unusable knotDisk none := by
    rintro ⟨file, hfile, -⟩
    cases hfile
  have hloads : ∀ path ∈ ["knot.json"],
      ∃ s, (DefinitionSet.loadFile knotDisk path).run = .ok s := by simp [knot_loads]
  have hfits := first_fault_decides knotDisk ["resolve", "-t", "shop", "knot.json"]
  have hfits' := first_fault_decides knotDisk ["tables", "knot.json"]
  obtain ⟨config, hload, hfiles⟩ := hfits.usable _ hparse husable
  obtain ⟨config', hload', hfiles'⟩ := hfits'.usable _ hparse' husable
  cases hload
  cases hload'
  obtain ⟨sets, hsets, hresolution⟩ :=
    hfiles.loaded (by simp [overrides, Config.override]) hloads
  obtain ⟨sets', hsets', hresolution'⟩ :=
    hfiles'.loaded (by simp [overrides, Config.override]) hloads
  have hset {sets : List DefinitionSet} (h : (["knot.json"].map fun path =>
      (DefinitionSet.loadFile knotDisk path).run) = sets.map Except.ok) : sets = [knotSet] := by
    rw [List.map_singleton, knot_loads] at h
    obtain ⟨s, rfl, hs⟩ := List.map_eq_singleton_iff.mp h.symm
    cases hs
    rfl
  obtain rfl := hset hsets
  obtain ⟨e, -, hcode, -⟩ | ⟨b, -, -, hall⟩ := hresolution.resolution (.inl rfl)
  · refine ⟨hcode, ?_, hresolution'.tables _ rfl⟩
    by_contra hprinted
    have hzero := hfits.quiet hprinted
    omega
  · exact absurd hall (knot_not_grounded rfl)

end Program

end Palettes
