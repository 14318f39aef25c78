import Mathlib.Data.List.Infix
import Palettes.Prepared

/-!
Written names, and the tables that are made of them. A written name comes apart
at separators, cut from the left, and no part of it holds another one. Parts
that were put together come out again exactly if none of them holds a separator
and none, the last apart, ends in a separator that only lacks its last space:
the space that follows would complete it.
-/
namespace Palettes

namespace WrittenName

/-! ## Cutting at separators -/

/-- A separator without the space at its end. -/
def stem : List Char := " extends".toList

/-- The part holds no separator. -/
def Free (part : List Char) : Prop := ¬ separator <:+: part

/-- The part does not make a separator with a space behind it. -/
def Clear (part : List Char) : Prop := ¬ stem <:+ part

instance : DecidablePred Free := fun _ => inferInstanceAs (Decidable (¬ _))

instance : DecidablePred Clear := fun _ => inferInstanceAs (Decidable (¬ _))

theorem partsFrom_skip (skip : Nat) (cs : List Char) :
    partsFrom skip cs = partsFrom 0 (cs.drop skip) := by
  induction skip generalizing cs with
  | zero => rfl
  | succ skip ih =>
    cases cs with
    | nil => rfl
    | cons c cs => exact ih cs

theorem partsFrom_separator (cs : List Char) :
    partsFrom 0 (separator ++ cs) = [] :: partsFrom 0 cs := by
  have hsep : separator = ' ' :: "extends ".toList := by decide
  have hcut : separator.isPrefixOf (' ' :: ("extends ".toList ++ cs)) = true :=
    List.isPrefixOf_iff_prefix.mpr (List.prefix_append separator cs)
  rw [hsep, List.cons_append, partsFrom, if_pos hcut, partsFrom_skip]
  rfl

theorem partsFrom_cons {c : Char} {cs : List Char} (h : ¬ separator <+: c :: cs) :
    partsFrom 0 (c :: cs) = consFirst c (partsFrom 0 cs) := by
  rw [partsFrom, if_neg (by rwa [List.isPrefixOf_iff_prefix])]

theorem Free.tail {c : Char} {part : List Char} (h : Free (c :: part)) : Free part :=
  fun hp => h (hp.trans (List.suffix_cons c part).isInfix)

theorem Clear.tail {c : Char} {part : List Char} (h : Clear (c :: part)) : Clear part :=
  fun hp => h (hp.trans (List.suffix_cons c part))

theorem partsFrom_free {part : List Char} (h : Free part) : partsFrom 0 part = [part] := by
  induction part with
  | nil => rfl
  | cons c part ih =>
    rw [partsFrom_cons fun hp => h hp.isInfix, ih h.tail]
    rfl

/-- Moved along itself a separator meets itself with its last character at the earliest. -/
theorem separator_overlap :
    ∀ n < separator.length, separator.drop n <+: separator → n = 0 ∨ separator.take n = stem := by
  decide

/-- No separator begins in a part that is free and clear and goes on into the
separator behind it. -/
theorem not_prefix_append {part : List Char} (hne : part ≠ []) (hfree : Free part)
    (hclear : Clear part) (cs : List Char) : ¬ separator <+: part ++ (separator ++ cs) := by
  intro hp
  have hwhole : ¬ separator <+: part := fun h => hfree h.isInfix
  have hpart := (List.prefix_or_prefix_of_prefix hp (List.prefix_append part _)).resolve_left hwhole
  obtain ⟨rest, hsep⟩ := hpart
  -- What the part leaves of the separator is where the separator begins again.
  have hover : rest <+: separator := by
    rw [← hsep, List.prefix_append_right_inj, hsep] at hp
    refine List.prefix_of_prefix_length_le hp (List.prefix_append separator cs) ?_
    rw [← hsep, List.length_append]
    exact Nat.le_add_left _ _
  have hlength : part.length < separator.length := by
    rw [← hsep, List.length_append]
    refine Nat.lt_add_of_pos_right (List.length_pos_iff.mpr ?_)
    rintro rfl
    rw [List.append_nil] at hsep
    exact hwhole (hsep ▸ List.prefix_refl part)
  have hdrop : separator.drop part.length = rest := by rw [← hsep, List.drop_left]
  have htake : separator.take part.length = part := by rw [← hsep, List.take_left]
  obtain hzero | hstem := separator_overlap part.length hlength (hdrop.symm ▸ hover)
  · exact hne (List.eq_nil_of_length_eq_zero hzero)
  · exact hclear (by rw [← htake, hstem])

/-- The first separator is cut where it was put. -/
theorem partsFrom_append {part : List Char} (hfree : Free part) (hclear : Clear part)
    (cs : List Char) : partsFrom 0 (part ++ (separator ++ cs)) = part :: partsFrom 0 cs := by
  induction part with
  | nil => exact partsFrom_separator cs
  | cons c part ih =>
    have hnot := not_prefix_append (List.cons_ne_nil c part) hfree hclear cs
    rw [List.cons_append] at hnot ⊢
    rw [partsFrom_cons hnot, ih hfree.tail hclear.tail]
    rfl

theorem partsFrom_intercalate {part : List Char} {parts : List (List Char)}
    (hfree : ∀ p ∈ part :: parts, Free p) (hclear : ∀ p ∈ (part :: parts).dropLast, Clear p) :
    partsFrom 0 (separator.intercalate (part :: parts)) = part :: parts := by
  induction parts generalizing part with
  | nil => simpa using partsFrom_free (hfree part List.mem_cons_self)
  | cons next parts ih =>
    rw [List.dropLast_cons_of_ne_nil (List.cons_ne_nil next parts)] at hclear
    rw [List.intercalate_cons_of_ne_nil (List.cons_ne_nil next parts), List.append_assoc,
      partsFrom_append (hfree part List.mem_cons_self) (hclear part List.mem_cons_self),
      ih (fun p hp => hfree p (List.mem_cons_of_mem part hp))
        fun p hp => hclear p (List.mem_cons_of_mem part hp)]

/-! ## What comes of cutting -/

/-- A text begins with its first part, and behind it stands a separator if there
are others. -/
theorem exists_first_part (cs : List Char) :
    ∃ first parts behind, partsFrom 0 cs = first :: parts ∧ cs = first ++ behind ∧
      (parts ≠ [] → separator <+: behind) := by
  obtain ⟨first, parts, hparts⟩ := List.exists_cons_of_ne_nil (partsFrom_ne_nil 0 cs)
  have hcs := intercalate_partsFrom 0 cs
  rw [hparts, List.drop_zero] at hcs
  cases parts with
  | nil => exact ⟨first, [], [], hparts, by simpa using hcs.symm, fun hne => absurd rfl hne⟩
  | cons next parts =>
    rw [List.intercalate_cons_of_ne_nil (List.cons_ne_nil next parts), List.append_assoc] at hcs
    exact ⟨first, _, _, hparts, hcs.symm, fun _ => List.prefix_append _ _⟩

theorem free_of_mem_partsFrom {skip : Nat} {cs part : List Char} (h : part ∈ partsFrom skip cs) :
    Free part := by
  fun_induction partsFrom skip cs generalizing part with
  | case1 =>
    obtain rfl := List.mem_singleton.mp h
    decide
  | case2 skip c cs ih => exact ih h
  | case3 c cs _ ih =>
    obtain rfl | h := List.mem_cons.mp h
    · decide
    · exact ih h
  | case4 c cs hsep ih =>
    rw [List.isPrefixOf_iff_prefix] at hsep
    obtain ⟨first, parts, behind, hparts, hcs, -⟩ := exists_first_part cs
    rw [hparts] at h ih
    obtain rfl | h := List.mem_cons.mp h
    · intro hin
      obtain hp | hin := List.infix_cons_iff.mp hin
      · exact hsep (hp.trans (by rw [hcs, ← List.cons_append]; exact List.prefix_append _ _))
      · exact ih List.mem_cons_self hin
    · exact ih (List.mem_cons_of_mem first h)

theorem clear_of_mem_partsFrom {skip : Nat} {cs part : List Char}
    (h : part ∈ (partsFrom skip cs).dropLast) : Clear part := by
  fun_induction partsFrom skip cs generalizing part with
  | case1 => cases h
  | case2 skip c cs ih => exact ih h
  | case3 c cs _ ih =>
    rw [List.dropLast_cons_of_ne_nil (partsFrom_ne_nil _ cs)] at h
    obtain rfl | h := List.mem_cons.mp h
    · decide
    · exact ih h
  | case4 c cs hsep ih =>
    rw [List.isPrefixOf_iff_prefix] at hsep
    obtain ⟨first, parts, behind, hparts, hcs, hbehind⟩ := exists_first_part cs
    rw [hparts] at h ih
    by_cases hne : parts = []
    · subst hne
      cases h
    rw [consFirst, List.dropLast_cons_of_ne_nil hne] at h
    rw [List.dropLast_cons_of_ne_nil hne] at ih
    obtain rfl | h := List.mem_cons.mp h
    · intro hend
      obtain hwhole | hend := List.suffix_cons_iff.mp hend
      · -- The separator that follows begins with the space that is missing.
        obtain ⟨rest, hrest⟩ := hbehind hne
        refine hsep ?_
        rw [hcs, ← List.cons_append, ← hwhole, ← hrest]
        exact ⟨"extends ".toList ++ rest, rfl⟩
      · exact ih List.mem_cons_self hend
    · exact ih (List.mem_cons_of_mem first h)

theorem partsFrom_intercalate_iff {part : List Char} {parts : List (List Char)} :
    partsFrom 0 (separator.intercalate (part :: parts)) = part :: parts ↔
      (∀ p ∈ part :: parts, Free p) ∧ ∀ p ∈ (part :: parts).dropLast, Clear p := by
  refine ⟨fun h => ⟨fun p hp => ?_, fun p hp => ?_⟩, fun h => partsFrom_intercalate h.1 h.2⟩
  · exact free_of_mem_partsFrom (h.symm ▸ hp)
  · exact clear_of_mem_partsFrom (h.symm ▸ hp)

/-! ## Written names -/

theorem parts_join_iff {name : String} {parents : List String} :
    parts (join (name :: parents)) = name :: parents ↔
      (∀ s ∈ name :: parents, Free s.toList) ∧
        ∀ s ∈ (name :: parents).dropLast, Clear s.toList := by
  have hjoin : (join (name :: parents)).toList =
      separator.intercalate ((name :: parents).map String.toList) := by
    rw [join, String.toList_intercalate, String.toList_ofList]
  have hparts : parts (join (name :: parents)) = name :: parents ↔
      partsFrom 0 (separator.intercalate ((name :: parents).map String.toList)) =
        (name :: parents).map String.toList := by
    rw [parts, hjoin]
    constructor
    · intro h
      have hchars := congrArg (List.map String.toList) h
      simpa [Function.comp_def] using hchars
    · intro h
      rw [h]
      simp [Function.comp_def]
  rw [hparts, List.map_cons, partsFrom_intercalate_iff, ← List.map_cons, ← List.map_dropLast]
  simp only [List.forall_mem_map]

theorem split_eq_iff {written name : String} {parents : List String} :
    split written = (name, parents.reverse) ↔ parts written = name :: parents := by
  rw [parts_eq_split, List.cons_eq_cons, List.reverse_eq_iff, Prod.ext_iff]

/-- Splitting loses nothing and leaves no separator in a part. Joined parts come
apart again exactly if they are free and those before the last are clear. -/
theorem joined_parts_come_apart :
    (∀ written,
      join ((split written).1 :: (split written).2.reverse) = written ∧
        ∀ s ∈ (split written).1 :: (split written).2.reverse, Free s.toList) ∧
    ∀ name parents, split (join (name :: parents)) = (name, parents.reverse) ↔
      (∀ s ∈ name :: parents, Free s.toList) ∧
        ∀ s ∈ (name :: parents).dropLast, Clear s.toList := by
  refine ⟨fun written => ⟨join_split written, fun s hs => ?_⟩, fun name parents => ?_⟩
  · rw [← parts_eq_split, parts] at hs
    obtain ⟨part, hpart, rfl⟩ := List.mem_map.mp hs
    rw [String.toList_ofList]
    exact free_of_mem_partsFrom hpart
  · rw [split_eq_iff, parts_join_iff]

/-- A name may be all but the spaces of a separator, and the last part may lack
no more than a space; a part before the last may not. -/
theorem extends_may_be_a_name :
    split (join ["", "extends", " extends"]) = ("", [" extends", "extends"]) ∧
      split (join ["dusk extends", "night"]) ≠ ("dusk extends", ["night"]) := by
  obtain ⟨-, hiff⟩ := joined_parts_come_apart
  exact ⟨(hiff "" ["extends", " extends"]).mpr (by decide),
    fun h => absurd ((hiff "dusk extends" ["night"]).mp h) (by decide)⟩

end WrittenName

/-! ## Prepared tables -/

namespace PreparedTable

theorem ofWritten_eq_iff {w : String} {legends : LegendDefs} {p : PreparedPalette} :
    PreparedPalette.ofWritten w legends = p ↔
      WrittenName.parts w = p.name :: p.parents.reverse ∧ legends = p.legends := by
  rw [← WrittenName.split_eq_iff, List.reverse_reverse, PreparedPalette.ofWritten]
  cases p
  simp [Prod.ext_iff, and_assoc]

/-- A palette is what the last entry under its name makes of it. -/
theorem get?_ofDefs_eq_some_iff {defs : PaletteDefs} {name : String} {p : PreparedPalette} :
    (ofDefs defs).get? name = some p ↔
      ∃ before e after, defs.entries = before ++ e :: after ∧
        (∀ later ∈ after, WrittenName.canonical later.1 ≠ name) ∧
        WrittenName.canonical e.1 = name ∧ PreparedPalette.ofWritten e.1 e.2 = p := by
  rw [get?_ofDefs_eq_find?, Option.map_eq_some_iff]
  simp only [List.find?_eq_some_iff_append, decide_eq_true_eq, Bool.not_eq_true',
    decide_eq_false_iff_not]
  constructor
  · rintro ⟨e, ⟨hname, after, before, hsplit, hafter⟩, hp⟩
    refine ⟨before.reverse, e, after.reverse, ?_, fun later h => ?_, hname, hp⟩
    · rw [← List.reverse_reverse defs.entries, hsplit]
      simp
    · exact hafter later (List.mem_reverse.mp h)
  · rintro ⟨before, e, after, hsplit, hafter, hname, hp⟩
    refine ⟨e, ⟨hname, after.reverse, before.reverse, by simp [hsplit], fun later h => ?_⟩, hp⟩
    exact hafter later (List.mem_reverse.mp h)

theorem get?_ofDefs_isSome_iff {defs : PaletteDefs} {name : String} :
    ((ofDefs defs).get? name).isSome ↔ ∃ w ∈ defs.names, WrittenName.canonical w = name := by
  rw [← WrittenName.last?_isSome_iff, ← map_written_get?_ofDefs, Option.isSome_map]

/-- A prepared table holds each canonical name once, where it first comes up. The
palette under it is made of the last entry with this name, parents and legends
alike, so that an entry is either what the table holds or shadowed by a later one. -/
theorem last_entry_fills_first_place (defs : PaletteDefs) :
    (ofDefs defs).names.Nodup ∧
    (ofDefs defs).names = (defs.names.map WrittenName.canonical).eraseDups ∧
    (∀ name, ((ofDefs defs).get? name).isSome ↔
      ∃ w ∈ defs.names, WrittenName.canonical w = name) ∧
    (∀ name p, (ofDefs defs).get? name = some p ↔ p.name = name ∧
      ∃ before w after, defs.entries = before ++ (w, p.legends) :: after ∧
        WrittenName.parts w = name :: p.parents.reverse ∧
        ∀ later ∈ after, WrittenName.canonical later.1 ≠ name) ∧
    ∀ before w legends after, defs.entries = before ++ (w, legends) :: after →
      (ofDefs defs).get? (WrittenName.canonical w) =
          some ⟨WrittenName.canonical w, (WrittenName.split w).2, legends⟩ ∨
        ∃ later ∈ after, WrittenName.canonical later.1 = WrittenName.canonical w := by
  refine ⟨(ofDefs defs).palettes.names_nodup, names_ofDefs defs, fun _ => get?_ofDefs_isSome_iff,
    fun name p => ?_, fun before w legends after hsplit => ?_⟩
  · rw [get?_ofDefs_eq_some_iff]
    constructor
    · rintro ⟨before, ⟨w, legends⟩, after, hsplit, hafter, hname, hp⟩
      obtain ⟨hparts, rfl⟩ := ofWritten_eq_iff.mp hp
      obtain rfl : p.name = name := hname ▸ hp ▸ rfl
      exact ⟨rfl, before, w, after, hsplit, hparts, hafter⟩
    · rintro ⟨rfl, before, w, after, hsplit, hparts, hafter⟩
      have hp := ofWritten_eq_iff.mpr ⟨hparts, rfl⟩
      exact ⟨before, (w, p.legends), after, hsplit, hafter, congrArg PreparedPalette.name hp, hp⟩
  · by_cases hlater : ∃ later ∈ after, WrittenName.canonical later.1 = WrittenName.canonical w
    · exact .inr hlater
    · rw [not_exists] at hlater
      refine .inl (get?_ofDefs_eq_some_iff.mpr ⟨before, (w, legends), after, hsplit, ?_, rfl, rfl⟩)
      exact fun later hmem hname => hlater later ⟨hmem, hname⟩

/-- Two palettes of which each is written twice, with other parents. -/
def twice : PaletteDefs := .ofList
  [("dusk extends night", .ofList [("sky", ["red"])]), ("night", .empty),
    ("dusk extends haze extends night", .ofList [("sky", ["grey"])]), ("night extends ", .empty)]

/-- The first place of `dusk` goes to its second entry, which shadows the first. -/
theorem twice_is_prepared_once :
    (ofDefs twice).names = ["dusk", "night"] ∧
      (ofDefs twice).get? "dusk" = some ⟨"dusk", ["night", "haze"], .ofList [("sky", ["grey"])]⟩ ∧
      ((ofDefs twice).get? "dusk" = some ⟨"dusk", ["night"], .ofList [("sky", ["red"])]⟩ ∨
        ∃ later ∈ twice.entries.tail, WrittenName.canonical later.1 = "dusk") := by
  obtain ⟨-, hnames, -, hget, hentry⟩ := last_entry_fills_first_place twice
  refine ⟨by rw [hnames]; decide +kernel, (hget "dusk" _).mpr ⟨rfl, ?_⟩, ?_⟩
  · exact ⟨twice.entries.take 2, "dusk extends haze extends night", twice.entries.drop 3, rfl,
      by decide +kernel, by decide +kernel⟩
  · exact hentry [] "dusk extends night" (.ofList [("sky", ["red"])]) twice.entries.tail rfl

end PreparedTable

end Palettes
