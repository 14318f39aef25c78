/-!
The written name of a palette, `name extends parent extends parent`. Its parts
are what stands between the separators, cut from the left; the first part is
the canonical name, and the others are the parents, the last written first.
-/
namespace Palettes.WrittenName

def separator : List Char := " extends ".toList

def consFirst (c : Char) : List (List Char) → List (List Char)
  | [] => [[c]]
  | part :: parts => (c :: part) :: parts

/-- The parts of a text whose first `skip` characters belong to a separator. -/
def partsFrom : Nat → List Char → List (List Char)
  | _, [] => [[]]
  | skip + 1, _ :: cs => partsFrom skip cs
  | 0, c :: cs =>
    if separator.isPrefixOf (c :: cs) then [] :: partsFrom (separator.length - 1) cs
    else consFirst c (partsFrom 0 cs)

theorem partsFrom_ne_nil (skip : Nat) (cs : List Char) : partsFrom skip cs ≠ [] := by
  fun_induction partsFrom skip cs with
  | case1 => simp
  | case2 skip c cs ih => exact ih
  | case3 => simp
  | case4 c cs _ ih => cases h : partsFrom 0 cs <;> simp [consFirst]

/-- Putting the separator back between the parts gives the text back. -/
theorem intercalate_partsFrom (skip : Nat) (cs : List Char) :
    separator.intercalate (partsFrom skip cs) = cs.drop skip := by
  fun_induction partsFrom skip cs with
  | case1 => simp
  | case2 skip c cs ih => exact ih
  | case3 c cs hsep ih =>
    obtain ⟨rest, hrest⟩ := List.isPrefixOf_iff_prefix.mp hsep
    have hdrop : (c :: cs).drop separator.length = rest := by rw [← hrest, List.drop_left]
    rw [List.intercalate_cons_of_ne_nil (partsFrom_ne_nil _ cs), ih, List.nil_append]
    exact (congrArg (separator ++ ·) hdrop).trans hrest
  | case4 c cs _ ih =>
    cases hparts : partsFrom 0 cs with
    | nil => exact absurd hparts (partsFrom_ne_nil 0 cs)
    | cons part parts =>
      rw [hparts] at ih
      cases parts with
      | nil => simpa [consFirst] using ih
      | cons next parts => simpa [consFirst] using ih

def parts (written : String) : List String := (partsFrom 0 written.toList).map String.ofList

/-- The canonical name, and the parents in the order they are announced. -/
def split (written : String) : String × List String :=
  match parts written with
  | [] => (written, [])
  | name :: parents => (name, parents.reverse)

/-- Write parts with the separator between them. -/
def join (parts : List String) : String := String.intercalate (String.ofList separator) parts

def canonical (written : String) : String := (split written).1

/-- The last of the written names of a palette. -/
def last? (name : String) (written : List String) : Option String :=
  (written.filter (canonical · = name)).getLast?

theorem last?_mem {name w : String} {written : List String} (h : last? name written = some w) :
    w ∈ written :=
  (List.mem_filter.mp (List.mem_of_getLast? h)).1

theorem canonical_of_last? {name w : String} {written : List String}
    (h : last? name written = some w) : canonical w = name :=
  of_decide_eq_true (List.mem_filter.mp (List.mem_of_getLast? h)).2

theorem last?_isSome_iff {name : String} {written : List String} :
    (last? name written).isSome ↔ ∃ w ∈ written, canonical w = name := by
  rw [last?, List.getLast?_filter, List.find?_isSome]
  simp

theorem join_parts (written : String) : join (parts written) = written := by
  apply String.toList_injective
  rw [join, String.toList_intercalate, String.toList_ofList, parts, List.map_map]
  simpa [Function.comp_def] using intercalate_partsFrom 0 written.toList

theorem parts_eq_split (written : String) :
    parts written = (split written).1 :: (split written).2.reverse := by
  cases h : parts written with
  | nil => exact absurd (List.map_eq_nil_iff.mp h) (partsFrom_ne_nil 0 _)
  | cons name parents => simp [split, h]

/-- Splitting loses nothing. -/
theorem join_split (written : String) :
    join ((split written).1 :: (split written).2.reverse) = written := by
  rw [← parts_eq_split, join_parts]

end Palettes.WrittenName
