import Mathlib.Data.List.Find
import Palettes.FileTree
import Palettes.Proofs.Ascent
import Palettes.Proofs.RoundTrip

/-!
A tree of files as a disk. As long as everything stands in a directory, the text
of a place leads to what is there and to nothing else, whatever the tree holds.
A file that is added is read again under the text of its place, and every path
that led somewhere else still leads there. From a place the search for the
configuration file goes up through the places that begin it.
-/
namespace Palettes

namespace FileTree

variable {t : FileTree} {place q : List String}

/-! ## What is where -/

theorem mem_way : q ∈ way place ↔ q ≠ [] ∧ q <+: place := by
  induction place generalizing q with
  | nil => simp [way]
  | cons name names ih =>
    cases q with
    | nil => simp [way]
    | cons a q =>
      rw [way, List.mem_cons, List.mem_map, List.cons_prefix_cons]
      constructor
      · rintro (heq | ⟨r, hr, heq⟩)
        · cases heq
          exact ⟨by simp, rfl, List.nil_prefix⟩
        · cases heq
          exact ⟨by simp, rfl, (ih.mp hr).2⟩
      · rintro ⟨-, rfl, hprefix⟩
        by_cases hq : q = []
        · exact .inl (by rw [hq])
        · exact .inr ⟨q, ih.mpr ⟨hq, hprefix⟩, rfl⟩

theorem node?_root (t : FileTree) : t.node? [] = some .directory := rfl

theorem node?_cons (t : FileTree) (place q : List String) (node : FileNode) :
    ({ t with nodes := (place, node) :: t.nodes } : FileTree).node? q =
      if q ≠ [] ∧ q = place then some node else t.node? q := by
  by_cases hroot : q = []
  · simp [node?, hroot]
  · by_cases hq : q = place
    · subst hq
      simp [node?, hroot]
    · simp [node?, hroot, hq, List.lookup_cons, beq_eq_false_iff_ne.mpr hq]

theorem node?_ensure (t : FileTree) (place q : List String) :
    (t.ensure place).node? q =
      if q = place then some ((t.node? q).getD .directory) else t.node? q := by
  rw [ensure]
  cases hplace : t.node? place with
  | none =>
    have hroot : place ≠ [] := by
      rintro rfl
      cases hplace
    by_cases hq : q = place
    · simp [node?_cons, hq, hplace, hroot]
    · simp [node?_cons, hq]
  | some node =>
    by_cases hq : q = place
    · simp [hq, hplace]
    · simp [hq]

/-- Directories that are missing are added, and nothing else changes. -/
theorem node?_addDirectory (t : FileTree) (place q : List String) :
    (t.addDirectory place).node? q =
      if q <+: place then some ((t.node? q).getD .directory) else t.node? q := by
  have hfold (places : List (List String)) (t : FileTree) : (places.foldl ensure t).node? q =
      if q ∈ places then some ((t.node? q).getD .directory) else t.node? q := by
    induction places generalizing t with
    | nil => rfl
    | cons d places ih =>
      rw [List.foldl_cons, ih, node?_ensure]
      by_cases hq : q = d
      · simp [hq]
      · simp [hq]
  rw [addDirectory, hfold]
  by_cases hq : q = []
  · simp [hq, mem_way, node?_root]
  · simp [hq, mem_way]

theorem current_addDirectory (t : FileTree) (place : List String) :
    (t.addDirectory place).current = t.current := by
  unfold addDirectory
  induction way place generalizing t with
  | nil => rfl
  | cons d places ih =>
    rw [List.foldl_cons, ih, ensure]
    split <;> rfl

/-- Where no file stands in the way, there are directories all the way. -/
theorem node?_addDirectory_of_prefix
    (hfile : ∀ q, q <+: place → ∀ content, t.node? q ≠ some (.file content))
    (hq : q <+: place) : (t.addDirectory place).node? q = some .directory := by
  rw [node?_addDirectory, if_pos hq]
  cases hnode : t.node? q with
  | none => rfl
  | some node =>
    cases node with
    | directory => rfl
    | file content => exact absurd hnode (hfile q hq content)

theorem node?_addFile (t : FileTree) (place q : List String) (content : ByteArray) :
    (t.addFile place content).node? q =
      if q ≠ [] ∧ q = place then some (.file content)
      else (t.addDirectory place.dropLast).node? q :=
  node?_cons (t.addDirectory place.dropLast) place q (.file content)

/-- What stood elsewhere stays there. -/
theorem node?_addFile_of_ne {node : FileNode} (content : ByteArray) (hq : t.node? q = some node)
    (hne : q ≠ place) : (t.addFile place content).node? q = some node := by
  rw [node?_addFile, if_neg fun h => hne h.2, node?_addDirectory, hq]
  split <;> rfl

theorem current_addFile (t : FileTree) (place : List String) (content : ByteArray) :
    (t.addFile place content).current = t.current :=
  current_addDirectory t place.dropLast

/-! ## Everything stands in a directory -/

/-- What stands at a place stands in a directory, up to the root. -/
def Rooted (t : FileTree) : Prop :=
  ∀ place name, (t.node? (place ++ [name])).isSome → t.node? place = some .directory

/-- A file may be put at a place: nothing but a file is there yet, and no file
stands in the way. -/
structure Vacant (t : FileTree) (place : List String) : Prop where
  ne_root : place ≠ []
  no_directory : t.node? place ≠ some .directory
  no_file : ∀ q, q <+: place.dropLast → ∀ content, t.node? q ≠ some (.file content)

namespace Rooted

theorem empty (current : List String) : Rooted { current } := by
  intro place name h
  simp [node?] at h

theorem directory (h : t.Rooted) {rest : List String} (hne : rest ≠ [])
    (hsome : (t.node? (place ++ rest)).isSome) : t.node? place = some .directory := by
  induction rest using List.reverseRecOn with
  | nil => exact absurd rfl hne
  | append_singleton rest name ih =>
    rw [← List.append_assoc] at hsome
    have habove := h _ _ hsome
    by_cases hrest : rest = []
    · rwa [hrest, List.append_nil] at habove
    · exact ih hrest (by rw [habove]; rfl)

theorem addDirectory (h : t.Rooted)
    (hfile : ∀ q, q <+: place → ∀ content, t.node? q ≠ some (.file content)) :
    (t.addDirectory place).Rooted := by
  intro q name hsome
  by_cases hq : q ++ [name] <+: place
  · exact node?_addDirectory_of_prefix hfile ((List.prefix_append q [name]).trans hq)
  · rw [node?_addDirectory, if_neg hq] at hsome
    rw [node?_addDirectory, h q name hsome]
    split <;> rfl

theorem addFile (h : t.Rooted) (hvacant : t.Vacant place) (content : ByteArray) :
    (t.addFile place content).Rooted := by
  obtain hroot | ⟨above, last, rfl⟩ := List.eq_nil_or_concat' place
  · exact absurd hroot hvacant.ne_root
  have hfile := hvacant.no_file
  rw [List.dropLast_concat] at hfile
  have hdirs := h.addDirectory hfile
  have hown : (t.addDirectory above).node? (above ++ [last]) = t.node? (above ++ [last]) := by
    rw [node?_addDirectory, if_neg fun hle => absurd hle.length_le (by simp)]
  intro q name hsome
  rw [node?_addFile, List.dropLast_concat] at hsome ⊢
  have hne : q ≠ above ++ [last] := by
    rintro rfl
    rw [if_neg (by simp)] at hsome
    exact hvacant.no_directory (hown ▸ hdirs _ name hsome)
  rw [if_neg fun hplace => hne hplace.2]
  by_cases hq : q = above
  · subst hq
    exact node?_addDirectory_of_prefix hfile List.prefix_rfl
  · rw [if_neg fun hplace => hq (List.append_inj_left' hplace.2 (by rfl))] at hsome
    exact hdirs q name hsome

end Rooted

/-! ## Places and paths -/

/-- A name that may stand in a place and in a path. -/
structure IsName (s : String) : Prop where
  ne_empty : s ≠ ""
  ne_dot : s ≠ "."
  ne_dots : s ≠ ".."
  no_slash : '/' ∉ s.toList
  no_nul : '\x00' ∉ s.toList
  size_le : s.utf8ByteSize ≤ nameLimit

/-- A place whose text is short enough for a path. -/
structure IsPlace (place : List String) : Prop where
  names : ∀ s ∈ place, IsName s
  size_lt : (placeText place).utf8ByteSize < pathLimit

theorem placeText_eq (place : List String) :
    placeText place = FilePath.text ⟨true, place.reverse⟩ := by
  simp [placeText, FilePath.text]

theorem placeText_append (hne : place ≠ []) (name : String) :
    placeText (place ++ [name]) = placeText place ++ "/" ++ name := by
  rw [placeText_eq, placeText_eq, List.reverse_concat,
    FilePath.text_cons true name (by simpa using hne)]

theorem ofText_root : FilePath.ofText (placeText []) = ⟨true, [""]⟩ := by decide

theorem ofText_placeText (hne : place ≠ []) (hnames : ∀ s ∈ place, IsName s) :
    FilePath.ofText (placeText place) = ⟨true, place.reverse⟩ := by
  have hsplit : FilePath.split [] [] (FilePath.text ⟨false, place.reverse⟩).toList =
      place.reverse :=
    FilePath.split_text (by simpa using hne) fun s hs => (hnames s (by simpa using hs)).no_slash
  rw [placeText_eq, FilePath.text_rooted, FilePath.ofText]
  simp [hsplit]

theorem nul_placeText (hnames : ∀ s ∈ place, IsName s) : '\x00' ∉ (placeText place).toList := by
  induction place using List.reverseRecOn with
  | nil => decide
  | append_singleton place name ih =>
    have hname := (hnames name (by simp)).no_nul
    by_cases hroot : place = []
    · subst hroot
      simpa [placeText] using hname
    · have hplace := ih fun s hs => hnames s (List.mem_append_left _ hs)
      rw [placeText_append hroot]
      simp [hplace, hname]

theorem stride?_of_isName {name : String} (h : IsName name) (place : List String) :
    stride? place name = some (place ++ [name]) := by
  rw [stride?, if_neg (not_or.mpr ⟨h.ne_empty, h.ne_dot⟩), if_neg h.ne_dots,
    if_neg (Nat.not_lt.mpr h.size_le)]

theorem walk_nil_eq_ok_iff {found : List String × FileNode} :
    t.walk place [] = .ok found ↔ found.1 = place ∧ t.node? place = some found.2 := by
  obtain ⟨q, node⟩ := found
  rw [walk]
  cases t.node? place with
  | none => simp
  | some node' => simp [eq_comm]

/-- A walk goes on through directories only. -/
theorem walk_cons_eq_ok_iff {piece : String} {pieces : List String}
    {found : List String × FileNode} :
    t.walk place (piece :: pieces) = .ok found ↔
      t.node? place = some .directory ∧
        ∃ next, stride? place piece = some next ∧ t.walk next pieces = .ok found := by
  rw [walk]
  cases t.node? place with
  | none => simp
  | some node =>
    cases node with
    | file content => simp
    | directory => cases stride? place piece <;> simp

/-- In a rooted tree names lead to where they say, and only there. -/
theorem walk_names (h : t.Rooted) {names : List String} (hnames : ∀ s ∈ names, IsName s)
    (place : List String) {found : List String × FileNode} :
    t.walk place names = .ok found ↔
      found.1 = place ++ names ∧ t.node? (place ++ names) = some found.2 := by
  induction names generalizing place with
  | nil => rw [walk_nil_eq_ok_iff, List.append_nil]
  | cons name names ih =>
    obtain ⟨hname, hnames⟩ := List.forall_mem_cons.mp hnames
    have hlead := ih hnames (place ++ [name])
    rw [List.append_assoc, List.singleton_append] at hlead
    rw [walk_cons_eq_ok_iff, stride?_of_isName hname]
    constructor
    · rintro ⟨-, next, hnext, hwalk⟩
      cases hnext
      exact hlead.mp hwalk
    · rintro ⟨hplace, hnode⟩
      exact ⟨h.directory (List.cons_ne_nil name names) (by rw [hnode]; rfl), _, rfl,
        hlead.mpr ⟨hplace, hnode⟩⟩

theorem resolve_eq_ok_iff {path : String} {found : List String × FileNode} :
    t.resolve path = .ok found ↔
      ('\x00' ∉ path.toList ∧ path ≠ "" ∧ path.utf8ByteSize < pathLimit) ∧
        t.walk (if (FilePath.ofText path).rooted then [] else t.current)
          (FilePath.ofText path).pieces.reverse = .ok found := by
  unfold resolve
  split
  · next hnul => simp [List.contains_iff_mem.mp hnul]
  · next hnul =>
    split
    · next hempty => simp [String.isEmpty_iff.mp hempty]
    · next hempty =>
      rw [List.contains_iff_mem] at hnul
      rw [String.isEmpty_iff] at hempty
      split
      · next hsize => simp [Nat.not_lt.mpr hsize]
      · next hsize => simp [hnul, hempty, Nat.not_le.mp hsize]

/-- The text of a place leads to what is there. -/
theorem resolve_placeText (h : t.Rooted) (hplace : IsPlace place)
    {found : List String × FileNode} :
    t.resolve (placeText place) = .ok found ↔
      found.1 = place ∧ t.node? place = some found.2 := by
  have hpath : '\x00' ∉ (placeText place).toList ∧ placeText place ≠ "" ∧
      (placeText place).utf8ByteSize < pathLimit :=
    ⟨nul_placeText hplace.names, by simp [placeText], hplace.size_lt⟩
  rw [resolve_eq_ok_iff, and_iff_right hpath]
  by_cases hroot : place = []
  · subst hroot
    rw [ofText_root]
    simp [walk_cons_eq_ok_iff, stride?, node?_root, walk_nil_eq_ok_iff]
  · rw [ofText_placeText hroot hplace.names, if_pos rfl, List.reverse_reverse]
    exact walk_names h hplace.names []

/-! ## The disk -/

theorem fromUTF8?_eq_some_iff {content : ByteArray} {s : String} :
    String.fromUTF8? content = some s ↔ content = s.toUTF8 := by
  unfold String.fromUTF8?
  constructor
  · intro h
    split at h
    · cases h
      rfl
    · cases h
  · rintro rfl
    rw [String.toUTF8_eq_toByteArray, dif_pos s.isValidUTF8]
    rfl

theorem holds_iff {path : String} : t.holds path = true ↔ ∃ found, t.resolve path = .ok found := by
  unfold holds
  cases t.resolve path <;> simp

theorem read_eq_ok_iff {path s : String} :
    t.read path = .ok s ↔ ∃ q, t.resolve path = .ok (q, .file s.toUTF8) := by
  unfold read
  cases t.resolve path with
  | error fault => simp
  | ok found =>
    obtain ⟨q, node⟩ := found
    cases node with
    | directory => simp
    | file content =>
      simp only [Except.ok.injEq, Prod.mk.injEq, FileNode.file.injEq, ← fromUTF8?_eq_some_iff]
      cases String.fromUTF8? content <;> simp

/-- Under the text of a place the disk has what is there. -/
theorem disk_at_place (h : t.Rooted) (hplace : IsPlace place) :
    (t.disk.holds (placeText place)).run = (t.node? place).isSome ∧
      ∀ s, (t.disk.read (placeText place)).run = .ok s ↔
        t.node? place = some (.file s.toUTF8) := by
  constructor
  · change t.holds (placeText place) = _
    rw [Bool.eq_iff_iff, holds_iff, Option.isSome_iff_exists]
    simp [resolve_placeText h hplace]
  · intro s
    change t.read (placeText place) = _ ↔ _
    rw [read_eq_ok_iff]
    simp [resolve_placeText h hplace]

/-! ## Adding a file -/

theorem node?_of_walk {pieces : List String} {found : List String × FileNode}
    (h : t.walk place pieces = .ok found) : t.node? found.1 = some found.2 := by
  induction pieces generalizing place with
  | nil =>
    obtain ⟨hplace, hnode⟩ := walk_nil_eq_ok_iff.mp h
    rwa [hplace]
  | cons piece pieces ih =>
    obtain ⟨-, next, -, hwalk⟩ := walk_cons_eq_ok_iff.mp h
    exact ih hwalk

/-- A walk depends on the directories that it passes and on where it ends. -/
theorem walk_of_kept {t' : FileTree}
    (hdir : ∀ q, t.node? q = some .directory → t'.node? q = some .directory) {pieces : List String}
    {found : List String × FileNode} (h : t.walk place pieces = .ok found)
    (hend : t'.node? found.1 = some found.2) : t'.walk place pieces = .ok found := by
  induction pieces generalizing place with
  | nil =>
    obtain ⟨hplace, -⟩ := walk_nil_eq_ok_iff.mp h
    exact walk_nil_eq_ok_iff.mpr ⟨hplace, hplace ▸ hend⟩
  | cons piece pieces ih =>
    obtain ⟨hnode, next, hnext, hwalk⟩ := walk_cons_eq_ok_iff.mp h
    exact walk_cons_eq_ok_iff.mpr ⟨hdir place hnode, next, hnext, ih hwalk⟩

/-- A file that is added is read again, and what was found elsewhere is found still. -/
theorem added_file_is_read (h : t.Rooted) (hvacant : t.Vacant place) (hplace : IsPlace place)
    (s : String) :
    (t.addFile place s.toUTF8).Rooted ∧
      ((t.addFile place s.toUTF8).disk.read (placeText place)).run = .ok s ∧
      ∀ path q node, t.resolve path = .ok (q, node) → q ≠ place →
        (t.addFile place s.toUTF8).resolve path = .ok (q, node) := by
  have hrooted := h.addFile hvacant s.toUTF8
  refine ⟨hrooted, ?_, ?_⟩
  · rw [(disk_at_place hrooted hplace).2, node?_addFile, if_pos ⟨hvacant.ne_root, rfl⟩]
  · intro path q node hpath hne
    obtain ⟨hsound, hwalk⟩ := resolve_eq_ok_iff.mp hpath
    have hkept := node?_addFile_of_ne s.toUTF8 (node?_of_walk hwalk) hne
    have hdir (d : List String) (hd : t.node? d = some .directory) :
        (t.addFile place s.toUTF8).node? d = some .directory :=
      node?_addFile_of_ne _ hd fun heq => hvacant.no_directory (heq ▸ hd)
    refine resolve_eq_ok_iff.mpr ⟨hsound, ?_⟩
    rw [current_addFile]
    exact walk_of_kept hdir hwalk hkept

/-! ## Looking for the configuration -/

open FilePath Config

theorem settle_names {names : List String} (hnames : ∀ s ∈ names, IsName s) :
    settle true names = names := by
  cases names with
  | nil => rfl
  | cons name names =>
    have hname := hnames name List.mem_cons_self
    rw [settle, if_neg]
    simp [hname.ne_empty, hname.ne_dot]

theorem parent?_placeText {name : String} (hnames : ∀ s ∈ place ++ [name], IsName s) :
    parent? (placeText (place ++ [name])) = some (placeText place) := by
  have hpath := ofText_placeText (by simp) hnames
  rw [List.reverse_concat] at hpath
  have hsettled (ps : List String) (hps : ∀ s ∈ ps, s ∈ place ++ [name]) : settle true ps = ps :=
    settle_names fun s hs => hnames s (hps s hs)
  have hall := hsettled (name :: place.reverse) (by simp [or_comm])
  have hrest := hsettled place.reverse (by simp +contextual)
  have hparent := parent?_of_cons (s := placeText (place ++ [name])) (by rw [hpath]; exact hall)
  rw [hparent, hpath, hrest, placeText_eq]

/-- The way up from a place goes through the places that begin it. -/
theorem upward_placeText (hnames : ∀ s ∈ place, IsName s) :
    upward (placeText place) = place.inits.reverse.map placeText := by
  induction place using List.reverseRecOn with
  | nil => decide +kernel
  | append_singleton place name ih =>
    rw [upward_of_parent? (parent?_placeText hnames),
      ih fun s hs => hnames s (List.mem_append_left _ hs)]
    simp [List.inits_append]

/-- The text of a place ends with its last name. -/
theorem placeText_concat (place : List String) (name : String) :
    ∃ front, placeText (place ++ [name]) = front ++ "/" ++ name := by
  by_cases hroot : place = []
  · exact ⟨"", by simp [hroot, placeText]⟩
  · exact ⟨placeText place, placeText_append hroot name⟩

theorem fileIn_placeText (hnames : ∀ s ∈ place, IsName s) :
    fileIn (placeText place) = placeText (place ++ [fileName]) := by
  obtain rfl | ⟨above, name, rfl⟩ := List.eq_nil_or_concat' place
  · decide +kernel
  · have hname := hnames name (by simp)
    obtain ⟨front, htext⟩ := placeText_concat above name
    have hrelative : isAbsolute fileName = false := by decide +kernel
    have hempty : (placeText (above ++ [name])).isEmpty = false := by simp [placeText]
    have hlast : (placeText (above ++ [name])).toList.getLast? ≠ some '/' := by
      intro hlast
      rw [htext, String.toList_append, List.getLast?_append] at hlast
      cases hend : name.toList.getLast? with
      | none => exact hname.ne_empty (by simpa using hend)
      | some c =>
        rw [hend, Option.some_or] at hlast
        exact hname.no_slash (Option.some.inj hlast ▸ List.mem_of_getLast? hend)
    rw [fileIn, join, if_neg (by simp [hrelative]), if_neg (by simp [hempty, hlast]),
      placeText_append (show above ++ [name] ≠ [] by simp)]

/-- Bytes in the names of a place, each with its slash. -/
def sizeOfNames : List String → Nat
  | [] => 0
  | name :: names => name.utf8ByteSize + 1 + sizeOfNames names

theorem sizeOfNames_concat (names : List String) (name : String) :
    sizeOfNames (names ++ [name]) = sizeOfNames names + (name.utf8ByteSize + 1) := by
  induction names with
  | nil => simp [sizeOfNames]
  | cons first names ih =>
    rw [List.cons_append, sizeOfNames, ih, sizeOfNames]
    omega

theorem sizeOfNames_le {names names' : List String} (h : names.Sublist names') :
    sizeOfNames names ≤ sizeOfNames names' := by
  induction h with
  | slnil => exact Nat.le_refl _
  | cons name _ ih =>
    rw [sizeOfNames]
    omega
  | cons_cons name _ ih =>
    rw [sizeOfNames, sizeOfNames]
    omega

theorem size_placeText (hne : place ≠ []) :
    (placeText place).utf8ByteSize = sizeOfNames place := by
  have hslash : "/".utf8ByteSize = 1 := by decide
  induction place using List.reverseRecOn with
  | nil => exact absurd rfl hne
  | append_singleton place name ih =>
    rw [sizeOfNames_concat]
    by_cases hroot : place = []
    · subst hroot
      simp [placeText, sizeOfNames, hslash, Nat.add_comm]
    · rw [placeText_append hroot, String.utf8ByteSize_append, String.utf8ByteSize_append, ih hroot,
        hslash]
      omega

theorem IsPlace.sublist (h : IsPlace q) (hsub : place.Sublist q) (hne : place ≠ []) :
    IsPlace place where
  names s hs := h.names s (hsub.subset hs)
  size_lt := by
    have hq : q ≠ [] := fun hq => hne (List.eq_nil_of_sublist_nil (hq ▸ hsub))
    have hsize := h.size_lt
    rw [size_placeText hq] at hsize
    rw [size_placeText hne]
    exact Nat.lt_of_le_of_lt (sizeOfNames_le hsub) hsize

/-- The configuration file of the nearest place above, the place itself included. -/
def nearest? (t : FileTree) (place : List String) : Option String :=
  (place.inits.reverse.find? fun d => (t.node? (d ++ [fileName])).isSome).map
    fun d => placeText (d ++ [fileName])

/-- The search on the disk finds what is nearest in the tree. -/
theorem findFrom_disk (h : t.Rooted) (hplace : IsPlace (place ++ [fileName])) :
    (findFrom t.disk (placeText place)).run = t.nearest? place := by
  have hnames (d : List String) (hd : d <+: place) : ∀ s ∈ d, IsName s :=
    fun s hs => hplace.names s (List.mem_append_left _ (hd.subset hs))
  have hfile (d : List String) (hd : d ∈ place.inits.reverse) :
      fileIn (placeText d) = placeText (d ++ [fileName]) ∧
        (t.disk.holds (fileIn (placeText d))).run = (t.node? (d ++ [fileName])).isSome := by
    have hbegins : d <+: place := (List.mem_inits _ _).mp (List.mem_reverse.mp hd)
    have hbelow : IsPlace (d ++ [fileName]) :=
      hplace.sublist (hbegins.sublist.append_right _) (by simp)
    have htext := fileIn_placeText (hnames d hbegins)
    exact ⟨htext, by rw [htext, (disk_at_place h hbelow).1]⟩
  have hheld := List.find?_congr fun d hd => (hfile d hd).2
  rw [findFrom, run_findIn, upward_placeText (hnames place List.prefix_rfl), List.map_map,
    List.find?_map, nearest?, ← hheld]
  exact Option.map_congr fun d hd => (hfile d (List.mem_of_find?_eq_some hd)).1

/-- Started in a directory of the tree, the program takes the configuration file
that is nearest there, and none if there is none up to the root. -/
theorem find_disk (h : t.Rooted) (hcurrent : IsPlace (t.current ++ [fileName])) :
    (find t.disk).run = t.nearest? t.current :=
  findFrom_disk h hcurrent

/-- A configuration above the current directory is found from there. -/
example : (find ((({ current := ["a", "b"] } : FileTree).addDirectory ["a", "b"]).addFile
    ["a", "mpal.toml"] "".toUTF8).disk).run = some "/a/mpal.toml" := by decide +kernel

/-! ## Loading definitions -/

/-- A set that is stored as JSON is loaded as it is. -/
theorem stored_set_is_loaded (h : t.Rooted) (hvacant : t.Vacant place) (hplace : IsPlace place)
    (hformat : DefinitionFormat.ofPath? (placeText place) = some .json) (set : DefinitionSet) :
    (DefinitionSet.loadFile (t.addFile place set.toJson.compactText.toUTF8).disk
      (placeText place)).run = .ok set := by
  obtain ⟨-, hread, -⟩ := added_file_is_read h hvacant hplace set.toJson.compactText
  have hback : DefinitionSet.ofText .json set.toJson.compactText = .ok set := by
    rw [DefinitionSet.ofText, DefinitionSet.ofJsonText, set.reads_back.readsBack.1]
    rfl
  rw [DefinitionSet.loadFile, hformat]
  dsimp only
  rw [Id.run_bind, hread]
  exact hback

end FileTree

end Palettes
