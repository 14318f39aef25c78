/-!
The text of file paths. A path is what stands between its slashes; empty pieces
and single dots say nothing, except that a dot may begin a relative path. Going
up drops the last piece that says something, whatever it is: `..` is a piece
like any other.
-/
namespace Palettes

structure FilePath where
  /-- The text begins with a slash. -/
  rooted : Bool
  /-- The pieces between slashes, the last first. -/
  pieces : List String
  deriving DecidableEq, Repr

namespace FilePath

/-- The pieces of a text between slashes, put in front of `acc` in reverse. -/
def split (piece : List Char) (acc : List String) : List Char → List String
  | [] => String.ofList piece.reverse :: acc
  | c :: cs =>
    if c = '/' then split [] (String.ofList piece.reverse :: acc) cs else split (c :: piece) acc cs

theorem split_append (piece : List Char) (acc : List String) (cs : List Char) :
    split piece acc cs = split piece [] cs ++ acc := by
  induction cs generalizing piece acc with
  | nil => rfl
  | cons c cs ih =>
    by_cases h : c = '/'
    · rw [split, split, if_pos h, if_pos h, ih [] (_ :: acc), ih [] [_], List.append_assoc]
      rfl
    · rw [split, split, if_neg h, if_neg h, ih]

/-- A slash ends what comes before it. -/
theorem split_slash (piece : List Char) (acc : List String) (xs ys : List Char) :
    split piece acc (xs ++ '/' :: ys) = split [] [] ys ++ split piece acc xs := by
  induction xs generalizing piece acc with
  | nil => exact split_append [] _ ys
  | cons x xs ih =>
    rw [List.cons_append, split, split]
    split
    · exact ih _ _
    · exact ih _ _

def ofText (s : String) : FilePath :=
  match s.toList with
  | '/' :: cs => ⟨true, split [] [] cs⟩
  | cs => ⟨false, split [] [] cs⟩

def text (p : FilePath) : String :=
  (if p.rooted then "/" else "") ++ String.intercalate "/" p.pieces.reverse

/-- Drop the pieces at the end that say nothing. -/
def settle (rooted : Bool) : List String → List String
  | [] => []
  | s :: rest =>
    if s = "" ∨ (s = "." ∧ (rooted ∨ rest ≠ [])) then settle rooted rest else s :: rest

theorem settle_length_le (rooted : Bool) (ps : List String) :
    (settle rooted ps).length ≤ ps.length := by
  induction ps with
  | nil => exact Nat.le_refl _
  | cons s rest ih =>
    simp only [settle]
    split
    · exact Nat.le_succ_of_le ih
    · exact Nat.le_refl _

/-- The paths above, the nearest first. -/
def above (rooted : Bool) (ps : List String) : List (List String) :=
  match _h : settle rooted ps with
  | [] => []
  | _ :: rest => settle rooted rest :: above rooted (settle rooted rest)
termination_by ps.length
decreasing_by
  have h1 := settle_length_le rooted ps
  have h2 := settle_length_le rooted rest
  rw [_h, List.length_cons] at h1
  omega

/-- A path and the paths above it, the nearest first, as texts. -/
def upward (s : String) : List String :=
  let p := ofText s
  s :: (above p.rooted p.pieces).map fun ps => text { p with pieces := ps }

def parent? (s : String) : Option String := (upward s).tail.head?

/-- The last piece, if it names a file. -/
def fileName? (s : String) : Option String :=
  let p := ofText s
  match settle p.rooted p.pieces with
  | name :: _ => if name = "." ∨ name = ".." then none else some name
  | [] => none

/-- What stands behind the last dot of the file name. A dot that begins the
name does not count. -/
def extension? (s : String) : Option String := do
  let name ← fileName? s
  let reversed := name.toList.reverse
  match reversed.dropWhile (· != '.') with
  | _ :: _ :: _ => some (String.ofList (reversed.takeWhile (· != '.')).reverse)
  | _ => none

def isAbsolute (s : String) : Bool := s.toList.head? == some '/'

theorem ofText_relative {s : String} (h : isAbsolute s = false) :
    ofText s = ⟨false, split [] [] s.toList⟩ := by
  unfold ofText
  split
  · next cs hcs => simp [isAbsolute, hcs] at h
  · rfl

/-- A path as seen from a directory. -/
def join (base s : String) : String :=
  if isAbsolute s then s
  else if base.isEmpty || base.toList.getLast? == some '/' then base ++ s
  else base ++ "/" ++ s

end FilePath

end Palettes
