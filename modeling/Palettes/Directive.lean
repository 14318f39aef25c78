/-!
What a palette definition tells its reader: legends are announced, and fields
are added to them, placed in them or taken out of them.
-/
namespace Palettes

/-- How an entry acts on what is inherited, as its leading marker says. -/
inductive Mode where
  | add | remove | override
  deriving DecidableEq, Repr

/-- Where a placed field goes relative to its anchor. -/
inductive Position where
  | before | after
  deriving DecidableEq, Repr

namespace Position

def text : Position → String
  | .before => "before"
  | .after => "after"

def ofText? : String → Option Position
  | "before" => some .before
  | "after" => some .after
  | _ => none

@[simp] theorem ofText?_text (p : Position) : ofText? p.text = some p := by
  cases p <;> rfl

theorem ofText?_eq_some_iff {word : String} {p : Position} :
    ofText? word = some p ↔ word = p.text := by
  constructor
  · intro h
    unfold ofText? at h
    split at h <;> cases h <;> rfl
  · rintro rfl
    exact ofText?_text p

/-- What is said of a word that names no position. -/
def unknownMessage (word : String) : String :=
  "unknown position '" ++ word ++ "', expected 'before' or 'after'"

end Position

/-- The visibility a legend entry asks for; `unspecified` leaves the inherited
visibility alone. -/
inductive Hide where
  | hidden | visible | unspecified
  deriving DecidableEq, Repr

namespace Hide

instance : Inhabited Hide := ⟨.unspecified⟩

def ofBool (hidden : Bool) : Hide := if hidden then .hidden else .visible

def toBool? : Hide → Option Bool
  | .hidden => some true
  | .visible => some false
  | .unspecified => none

/-- The visibility after the directive, given the one before. -/
def apply (h : Hide) (hidden : Bool) : Bool := h.toBool?.getD hidden

@[simp] theorem apply_hidden (b : Bool) : apply .hidden b = true := rfl
@[simp] theorem apply_visible (b : Bool) : apply .visible b = false := rfl
@[simp] theorem apply_unspecified (b : Bool) : apply .unspecified b = b := rfl
@[simp] theorem toBool?_ofBool (b : Bool) : (ofBool b).toBool? = some b := by cases b <;> rfl

end Hide

/-- A legend is declared; the directives on its fields follow. -/
structure LegendEvent where
  legend : String
  /-- The entry stands in the palette itself or carries no marker. -/
  overrides : Bool
  hide : Hide
  deriving DecidableEq, Repr

/-- One directive on a field of a legend. -/
inductive FieldEvent where
  | remove (legend field : String)
  | append (legend field : String)
  | place (legend field : String) (position : Position) (anchor : String)
  deriving DecidableEq, Repr

namespace FieldEvent

def legend : FieldEvent → String
  | .remove l _ | .append l _ | .place l _ _ _ => l

def field : FieldEvent → String
  | .remove _ f | .append _ f | .place _ f _ _ => f

end FieldEvent

end Palettes
