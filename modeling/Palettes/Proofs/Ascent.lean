import Mathlib.Data.List.Infix
import Palettes.Config

/-!
The way up from a path, and what is looked for on it. A path above is the text
without its last piece, and its own pieces are the ones that are left, so that
going up step by step leads through every beginning of the path, the longest
first. The search for a configuration file asks about these directories in this
order and stops at the first that has one.
-/
namespace Palettes

namespace FilePath

/-! ## Texts and pieces -/

theorem text_rooted (ps : List String) : text ⟨true, ps⟩ = "/" ++ text ⟨false, ps⟩ := by
  simp [text]

theorem text_cons (rooted : Bool) (s : String) {ps : List String} (h : ps ≠ []) :
    text ⟨rooted, s :: ps⟩ = text ⟨rooted, ps⟩ ++ "/" ++ s := by
  have hreverse : ps.reverse ≠ [] := by simpa using h
  simp only [text, List.reverse_cons]
  rw [String.intercalate_append_of_ne_nil hreverse (by simp), String.intercalate_singleton]
  simp only [String.append_assoc]

/-- The text of fewer pieces is the beginning of the text. -/
theorem text_prefix (rooted : Bool) {ps qs : List String} (h : ps <:+ qs) :
    (text ⟨rooted, ps⟩).toList <+: (text ⟨rooted, qs⟩).toList := by
  induction qs with
  | nil =>
    rw [List.suffix_nil.mp h]
  | cons s qs ih =>
    obtain rfl | h := List.suffix_cons_iff.mp h
    · exact List.prefix_rfl
    · refine (ih h).trans ?_
      cases qs with
      | nil => cases rooted <;> simp [text]
      | cons t qs =>
        rw [text_cons rooted s (List.cons_ne_nil t qs), String.append_assoc, String.toList_append]
        exact List.prefix_append _ _

theorem text_split (piece : List Char) (acc : List String) (cs : List Char) :
    text ⟨false, split piece acc cs⟩ =
      text ⟨false, String.ofList piece.reverse :: acc⟩ ++ String.ofList cs := by
  induction cs generalizing piece acc with
  | nil => simp [split]
  | cons c cs ih =>
    rw [split]
    split
    · next h =>
      rw [ih, text_cons false _ (List.cons_ne_nil _ acc), h]
      apply String.toList_injective
      simp
    · rw [ih]
      apply String.toList_injective
      cases acc with
      | nil => simp [text]
      | cons s acc =>
        rw [text_cons false _ (List.cons_ne_nil s acc), text_cons false _ (List.cons_ne_nil s acc)]
        simp

theorem rooted_ofText (s : String) : (ofText s).rooted = isAbsolute s := by
  unfold ofText isAbsolute
  split
  · next cs h => simp [h]
  · next cs h =>
    cases hs : s.toList with
    | nil => rfl
    | cons c cs =>
      have hc : c ≠ '/' := fun hc => h cs (by rw [hs, hc])
      simp [hc]

theorem text_ofText (s : String) : (ofText s).text = s := by
  apply String.toList_injective
  unfold ofText
  split
  · next cs h =>
    rw [text_rooted, text_split, h]
    simp [text]
  · rw [text_split]
    simp [text]

/-- No piece holds a slash. -/
def Free (ps : List String) : Prop := ∀ s ∈ ps, '/' ∉ s.toList

theorem free_split {piece : List Char} {acc : List String}
    (h : Free (String.ofList piece.reverse :: acc)) (cs : List Char) :
    Free (split piece acc cs) := by
  induction cs generalizing piece acc with
  | nil => exact h
  | cons c cs ih =>
    rw [split]
    split
    · exact ih (List.forall_mem_cons.mpr ⟨by simp, h⟩)
    · next hc =>
      obtain ⟨hpiece, hacc⟩ := List.forall_mem_cons.mp h
      exact ih (List.forall_mem_cons.mpr ⟨by simpa [Ne.symm hc] using hpiece, hacc⟩)

theorem free_ofText (s : String) : Free (ofText s).pieces := by
  have hempty : Free [String.ofList [].reverse] := by simp [Free]
  unfold ofText
  split
  · exact free_split hempty _
  · exact free_split hempty _

theorem split_of_notMem {cs : List Char} (h : '/' ∉ cs) (piece : List Char) (acc : List String) :
    split piece acc cs = String.ofList (piece.reverse ++ cs) :: acc := by
  induction cs generalizing piece with
  | nil => simp [split]
  | cons c cs ih =>
    rw [List.mem_cons, not_or] at h
    rw [split, if_neg (Ne.symm h.1), ih h.2]
    simp

theorem split_text {ps : List String} (hne : ps ≠ []) (hfree : Free ps) :
    split [] [] (text ⟨false, ps⟩).toList = ps := by
  induction ps with
  | nil => exact absurd rfl hne
  | cons s ps ih =>
    obtain ⟨hs, hps⟩ := List.forall_mem_cons.mp hfree
    cases ps with
    | nil =>
      rw [split_of_notMem (by simpa [text] using hs)]
      simp [text]
    | cons t ps =>
      have hchars : (text ⟨false, s :: t :: ps⟩).toList =
          (text ⟨false, t :: ps⟩).toList ++ '/' :: s.toList := by
        rw [text_cons false s (List.cons_ne_nil t ps)]
        simp
      rw [hchars, split_slash, ih (List.cons_ne_nil t ps) hps, split_of_notMem hs]
      simp

/-- The pieces that are left of a path make up its beginning. -/
theorem prefix_of_suffix {s : String} {ps : List String} (h : ps <:+ (ofText s).pieces) :
    (text ⟨(ofText s).rooted, ps⟩).toList <+: s.toList := by
  have hprefix := text_prefix (ofText s).rooted h
  have hwhole : text ⟨(ofText s).rooted, (ofText s).pieces⟩ = s := text_ofText s
  rwa [hwhole] at hprefix

theorem isAbsolute_of_prefix {s t : String} (h : t.toList <+: s.toList)
    (hs : isAbsolute s = false) : isAbsolute t = false := by
  obtain ⟨rest, hrest⟩ := h
  unfold isAbsolute at hs ⊢
  cases ht : t.toList with
  | nil => rfl
  | cons c cs =>
    rw [← hrest, ht] at hs
    exact hs

/-- Their text is read as these pieces again. -/
theorem ofText_text {s : String} {ps : List String} (hne : ps ≠ [])
    (h : ps <:+ (ofText s).pieces) :
    ofText (text ⟨(ofText s).rooted, ps⟩) = ⟨(ofText s).rooted, ps⟩ := by
  have hsplit : split [] [] (text ⟨false, ps⟩).toList = ps :=
    split_text hne fun t ht => free_ofText s t (h.subset ht)
  have hprefix := prefix_of_suffix h
  cases hrooted : (ofText s).rooted with
  | true =>
    rw [text_rooted, ofText]
    simp [hsplit]
  | false =>
    rw [hrooted] at hprefix
    have hrelative : isAbsolute (text ⟨false, ps⟩) = false :=
      isAbsolute_of_prefix hprefix (by rw [← rooted_ofText, hrooted])
    rw [ofText_relative hrelative, hsplit]

/-! ## Components -/

theorem settle_suffix (rooted : Bool) (ps : List String) : settle rooted ps <:+ ps := by
  induction ps with
  | nil => exact List.suffix_rfl
  | cons s ps ih =>
    rw [settle]
    split
    · exact ih.trans (List.suffix_cons s ps)
    · exact List.suffix_rfl

theorem settle_settle (rooted : Bool) (ps : List String) :
    settle rooted (settle rooted ps) = settle rooted ps := by
  induction ps with
  | nil => rfl
  | cons s ps ih =>
    by_cases h : s = "" ∨ (s = "." ∧ (rooted ∨ ps ≠ []))
    · rw [settle, if_pos h, ih]
    · rw [settle, if_neg h, settle, if_neg h]

/-- The pieces that say something. -/
def telling (rooted : Bool) : List String → List String
  | [] => []
  | s :: rest =>
    if s = "" ∨ (s = "." ∧ (rooted ∨ rest ≠ [])) then telling rooted rest
    else s :: telling rooted rest

/-- What a path says piece by piece, the last piece first. -/
def components (s : String) : List String := telling (ofText s).rooted (ofText s).pieces

theorem telling_eq (rooted : Bool) (ps : List String) :
    telling rooted ps = match settle rooted ps with
      | [] => []
      | s :: rest => s :: telling rooted rest := by
  induction ps with
  | nil => rfl
  | cons s ps ih =>
    by_cases h : s = "" ∨ (s = "." ∧ (rooted ∨ ps ≠ []))
    · rw [telling, settle, if_pos h, if_pos h, ih]
    · rw [telling, settle, if_neg h, if_neg h]

theorem telling_congr {rooted : Bool} {ps qs : List String}
    (h : settle rooted ps = settle rooted qs) : telling rooted ps = telling rooted qs := by
  rw [telling_eq, h, ← telling_eq]

theorem above_of_nil {rooted : Bool} {ps : List String} (h : settle rooted ps = []) :
    above rooted ps = [] := by
  rw [above]
  split <;> simp_all

theorem above_of_cons {rooted : Bool} {ps rest : List String} {s : String}
    (h : settle rooted ps = s :: rest) :
    above rooted ps = settle rooted rest :: above rooted (settle rooted rest) := by
  rw [above]
  split <;> simp_all

theorem above_congr {rooted : Bool} {ps qs : List String}
    (h : settle rooted ps = settle rooted qs) : above rooted ps = above rooted qs := by
  cases hqs : settle rooted qs with
  | nil => rw [above_of_nil hqs, above_of_nil (h.trans hqs)]
  | cons s rest => rw [above_of_cons hqs, above_of_cons (h.trans hqs)]

/-- What a text is read as depends on pieces that say something only. -/
theorem settle_text {s : String} {ps : List String} (h : ps <:+ (ofText s).pieces) :
    (ofText (text ⟨(ofText s).rooted, ps⟩)).rooted = (ofText s).rooted ∧
      settle (ofText s).rooted (ofText (text ⟨(ofText s).rooted, ps⟩)).pieces =
        settle (ofText s).rooted ps := by
  by_cases hne : ps = []
  · -- Without pieces a path is the root or empty, and reads as one empty piece.
    subst hne
    cases (ofText s).rooted <;> simp [text, ofText, split, settle]
  · rw [ofText_text hne h]
    exact ⟨rfl, rfl⟩

/-! ## Parents -/

variable {s p : String}

theorem parent?_of_nil (h : settle (ofText s).rooted (ofText s).pieces = []) :
    parent? s = none := by
  simp [parent?, upward, above_of_nil h]

theorem parent?_of_cons {name : String} {rest : List String}
    (h : settle (ofText s).rooted (ofText s).pieces = name :: rest) :
    parent? s = some (text ⟨(ofText s).rooted, settle (ofText s).rooted rest⟩) := by
  simp [parent?, upward, above_of_cons h]

theorem parent?_eq_none_iff :
    parent? s = none ↔ settle (ofText s).rooted (ofText s).pieces = [] := by
  cases h : settle (ofText s).rooted (ofText s).pieces with
  | nil => simp [parent?_of_nil h]
  | cons name rest => simp [parent?_of_cons h]

theorem parent?_eq_some_iff :
    parent? s = some p ↔ ∃ name rest, settle (ofText s).rooted (ofText s).pieces = name :: rest ∧
      p = text ⟨(ofText s).rooted, settle (ofText s).rooted rest⟩ := by
  cases h : settle (ofText s).rooted (ofText s).pieces with
  | nil => simp [parent?_of_nil h]
  | cons name rest =>
    rw [parent?_of_cons h, Option.some_inj]
    constructor
    · rintro rfl
      exact ⟨name, rest, rfl, rfl⟩
    · rintro ⟨name', rest', heq, rfl⟩
      rw [(List.cons.inj heq).2]

/-- What is left of a settled path lies within it. -/
theorem rest_suffix {name : String} {rest : List String}
    (h : settle (ofText s).rooted (ofText s).pieces = name :: rest) :
    settle (ofText s).rooted rest <:+ (ofText s).pieces := by
  have hsettled := settle_suffix (ofText s).rooted (ofText s).pieces
  rw [h] at hsettled
  exact (settle_suffix _ rest).trans ((List.suffix_cons name rest).trans hsettled)

theorem upward_of_top (h : parent? s = none) : upward s = [s] := by
  rw [upward, above_of_nil (parent?_eq_none_iff.mp h), List.map_nil]

/-- The way up goes on from the parent. -/
theorem upward_of_parent? (h : parent? s = some p) : upward s = s :: upward p := by
  obtain ⟨name, rest, hsettle, rfl⟩ := parent?_eq_some_iff.mp h
  obtain ⟨hrooted, hpieces⟩ := settle_text (rest_suffix hsettle)
  rw [upward, above_of_cons hsettle, List.map_cons, upward, hrooted, above_congr hpieces]

/-- Going up drops the last component. -/
theorem components_of_parent? (h : parent? s = some p) :
    ∃ name, components s = name :: components p := by
  obtain ⟨name, rest, hsettle, rfl⟩ := parent?_eq_some_iff.mp h
  obtain ⟨hrooted, hpieces⟩ := settle_text (rest_suffix hsettle)
  refine ⟨name, ?_⟩
  rw [components, telling_eq, hsettle, components, hrooted,
    telling_congr (hpieces.trans (settle_settle _ rest))]

theorem components_of_top (h : parent? s = none) : components s = [] := by
  rw [components, telling_eq, parent?_eq_none_iff.mp h]

/-- A parent is the beginning of the text, and as absolute as the path. -/
theorem beginning_of_parent? (h : parent? s = some p) :
    isAbsolute p = isAbsolute s ∧ p.toList <+: s.toList := by
  obtain ⟨name, rest, hsettle, rfl⟩ := parent?_eq_some_iff.mp h
  have hsuffix := rest_suffix hsettle
  constructor
  · rw [← rooted_ofText, ← rooted_ofText, (settle_text hsuffix).1]
  · exact prefix_of_suffix hsuffix

/-! ## The way up -/

/-- A path, its parent, the parent's parent and so on, up to a path without a parent. -/
inductive Ascent : String → List String → Prop
  | top {s : String} : parent? s = none → Ascent s [s]
  | up {s p : String} {dirs : List String} :
    parent? s = some p → Ascent p dirs → Ascent s (s :: dirs)

theorem ascent_upward (s : String) : Ascent s (upward s) := by
  cases hparent : parent? s with
  | none =>
    rw [upward_of_top hparent]
    exact .top hparent
  | some p =>
    rw [upward_of_parent? hparent]
    exact .up hparent (ascent_upward p)
termination_by (components s).length
decreasing_by
  obtain ⟨name, hname⟩ := components_of_parent? hparent
  simp [hname]

namespace Ascent

variable {dirs : List String}

theorem eq_upward (h : Ascent s dirs) : dirs = upward s := by
  induction h with
  | top htop => exact (upward_of_top htop).symm
  | up hparent _ ih => rw [upward_of_parent? hparent, ih]

theorem map_components (h : Ascent s dirs) : dirs.map components = (components s).tails := by
  induction h with
  | top htop => rw [List.map_singleton, components_of_top htop, List.tails]
  | up hparent _ ih =>
    obtain ⟨name, hname⟩ := components_of_parent? hparent
    rw [List.map_cons, ih, hname, List.tails_cons]

theorem beginning (h : Ascent s dirs) :
    ∀ dir ∈ dirs, isAbsolute dir = isAbsolute s ∧ dir.toList <+: s.toList := by
  induction h with
  | top => simp
  | up hparent _ ih =>
    obtain ⟨habsolute, hprefix⟩ := beginning_of_parent? hparent
    refine List.forall_mem_cons.mpr ⟨⟨rfl, List.prefix_rfl⟩, fun dir hdir => ?_⟩
    exact ⟨(ih dir hdir).1.trans habsolute, (ih dir hdir).2.trans hprefix⟩

end Ascent

theorem ascent_iff {dirs : List String} : Ascent s dirs ↔ dirs = upward s :=
  ⟨Ascent.eq_upward, fun h => h ▸ ascent_upward s⟩

end FilePath

/-! ## The search -/

/-- A disk that answers as another does and writes down which paths it is asked to look for. -/
def Disk.watched (disk : Disk Id) : Disk (StateM (List String)) where
  read path := pure (disk.read path).run
  holds path := do
    modify (· ++ [path])
    pure (disk.holds path).run
  currentDirectory := pure disk.currentDirectory.run

namespace Config

open FilePath

/-- The configuration file of a directory. -/
def fileIn (dir : String) : String := join dir fileName

/-- The search is a loop: it looks into a directory and goes on from its parent. -/
theorem findFrom_eq {m : Type → Type} [Monad m] (disk : Disk m) (dir : String) :
    findFrom disk dir = (disk.holds (fileIn dir) >>= fun held =>
      if held then pure (some (fileIn dir)) else
        match parent? dir with
        | some above => findFrom disk above
        | none => pure none) := by
  cases hparent : parent? dir with
  | none =>
    rw [findFrom, upward_of_top hparent]
    rfl
  | some above =>
    rw [findFrom, upward_of_parent? hparent]
    rfl

variable (disk : Disk Id)

theorem run_findIn_cons (dir : String) (dirs : List String) :
    (findIn disk (dir :: dirs)).run =
      if (disk.holds (fileIn dir)).run then some (fileIn dir) else (findIn disk dirs).run := by
  change (if (disk.holds (fileIn dir)).run = true then _ else _ : Id _).run = _
  cases (disk.holds (fileIn dir)).run <;> rfl

/-- A watched search writes down the file that it looks for, found or not. -/
theorem run_findIn_watched_cons (dir : String) (dirs asked : List String) :
    (findIn disk.watched (dir :: dirs)).run asked =
      if (disk.holds (fileIn dir)).run then pure (some (fileIn dir), asked ++ [fileIn dir])
      else (findIn disk.watched dirs).run (asked ++ [fileIn dir]) := by
  change (if (disk.holds (fileIn dir)).run = true then _ else _ : StateM _ _).run _ = _
  cases (disk.holds (fileIn dir)).run <;> rfl

/-- Where a search leads to is the first path that the disk holds. -/
theorem run_findIn (dirs : List String) :
    (findIn disk dirs).run = (dirs.map fileIn).find? fun path => (disk.holds path).run := by
  induction dirs with
  | nil => rfl
  | cons dir dirs ih =>
    rw [run_findIn_cons, List.map_cons, List.find?_cons, ih]
    cases (disk.holds (fileIn dir)).run <;> rfl

/-- A watched search asks for one path after another and ends with the one it finds. -/
theorem run_findIn_watched (dirs asked : List String) :
    ((findIn disk.watched dirs).run asked).run =
      ((findIn disk dirs).run,
        asked ++ (dirs.map fileIn).takeWhile (fun path => !(disk.holds path).run) ++
          (findIn disk dirs).run.toList) := by
  induction dirs generalizing asked with
  | nil => simp [findIn]
  | cons dir dirs ih =>
    rw [run_findIn_watched_cons, run_findIn_cons, List.map_cons, List.takeWhile_cons]
    cases (disk.holds (fileIn dir)).run with
    | true => simp
    | false => simp [ih]

/-- The configuration file that is found is that of the nearest directory on the
way up that has one, and there is none only if no directory has one. The way is
the path, its parent, the parent's parent and so on: the beginnings of the path,
component by component. Only these directories are asked about, the nearest
first, and none behind the one that has the file. -/
theorem nearest_configuration_is_found (start : String) :
    ∃ dirs, (∀ dirs', Ascent start dirs' ↔ dirs' = dirs) ∧
      dirs.map components = (components start).tails ∧
      (∀ dir ∈ dirs, isAbsolute dir = isAbsolute start ∧ dir.toList <+: start.toList) ∧
      ((findFrom disk start).run = none ↔
        ∀ dir ∈ dirs, (disk.holds (fileIn dir)).run = false) ∧
      (∀ path, (findFrom disk start).run = some path ↔
        ∃ near dir far, dirs = near ++ dir :: far ∧ path = fileIn dir ∧
          (disk.holds path).run = true ∧ ∀ d ∈ near, (disk.holds (fileIn d)).run = false) ∧
      ((findFrom disk.watched start).run []).run =
        ((findFrom disk start).run,
          (dirs.map fileIn).takeWhile (fun path => !(disk.holds path).run) ++
            (findFrom disk start).run.toList) := by
  have hascent := ascent_upward start
  refine ⟨upward start, fun _ => ascent_iff, hascent.map_components, hascent.beginning,
    ?_, ?_, ?_⟩
  · rw [findFrom, run_findIn, List.find?_eq_none]
    simp
  · intro path
    rw [findFrom, run_findIn, List.find?_eq_some_iff_append]
    constructor
    · rintro ⟨hholds, nears, fars, hsplit, hnears⟩
      obtain ⟨near, rest, hdirs, rfl, hrest⟩ := List.map_eq_append_iff.mp hsplit
      obtain ⟨dir, far, rfl, rfl, -⟩ := List.map_eq_cons_iff.mp hrest
      exact ⟨near, dir, far, hdirs, rfl, hholds, by simpa using hnears⟩
    · rintro ⟨near, dir, far, hdirs, rfl, hholds, hnear⟩
      exact ⟨hholds, near.map fileIn, far.map fileIn, by simp [hdirs], by simpa using hnear⟩
  · rw [findFrom, findFrom, run_findIn_watched, List.nil_append]

/-- A disk with two configuration files, of which one stands in the way of the other. -/
def terrace : Disk Id where
  read _ := .error .notFound
  holds path := pure (path == "a/mpal.toml" || path == "mpal.toml")
  currentDirectory := none

theorem terrace_is_searched_upward :
    Ascent "a/./b//../c/" ["a/./b//../c/", "a/./b//..", "a/./b", "a", ""] ∧
      (findFrom terrace "a/./b//../c/").run = some "a/mpal.toml" ∧
      ((findFrom terrace.watched "a/./b//../c/").run []).run = (some "a/mpal.toml",
        ["a/./b//../c/mpal.toml", "a/./b//../mpal.toml", "a/./b/mpal.toml", "a/mpal.toml"]) := by
  obtain ⟨dirs, hdirs, -, -, -, hfound, hasked⟩ :=
    nearest_configuration_is_found terrace "a/./b//../c/"
  have hascent : Ascent "a/./b//../c/" ["a/./b//../c/", "a/./b//..", "a/./b", "a", ""] :=
    .up (by decide +kernel) (.up (by decide +kernel) (.up (by decide +kernel)
      (.up (by decide +kernel) (.top (by decide +kernel)))))
  obtain rfl := (hdirs _).mp hascent
  have hfile := (hfound "a/mpal.toml").mpr
    ⟨["a/./b//../c/", "a/./b//..", "a/./b"], "a", [""], rfl, rfl, by decide +kernel,
      by decide +kernel⟩
  refine ⟨hascent, hfile, hasked.trans ?_⟩
  rw [hfile]
  decide +kernel

end Config

end Palettes
