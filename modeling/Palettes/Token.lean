import Palettes.Directive

/-!
The token grammar. A token may start with a marker, `+` or `-`; a field token
may be a placement, `field before anchor` or `field after anchor`; a field
token that starts with `:` is reserved, and of these only `:hide` means
something. Everything else is a plain name.
-/
namespace Palettes.Token

/-- Split off the marker. Only the first character can be one; without it the
token is kept whole and acts as `otherwise`. -/
def splitMark (token : String) (otherwise : Mode) : Mode × String :=
  match token.toList with
  | '+' :: rest => (.add, String.ofList rest)
  | '-' :: rest => (.remove, String.ofList rest)
  | _ => (otherwise, token)

/-- The field token that hides its legend. -/
def hideMark : String := ":hide"

def isReserved (token : String) : Bool := token.toList.head? == some ':'

/-- The characters of the names in a placement: ASCII letters, digits and `_`. -/
def isWordChar (c : Char) : Bool := c.isAlphanum || c == '_'

structure Placement where
  field : String
  position : Position
  anchor : String
  deriving DecidableEq, Repr

/-- A placement is two words around `before` or `after`, with one space on
either side and nothing else. -/
def placement? (body : String) : Option Placement :=
  let cs := body.toList
  match cs.dropWhile isWordChar with
  | ' ' :: rest =>
    match rest.dropWhile isWordChar with
    | ' ' :: anchor =>
      let field := cs.takeWhile isWordChar
      if !field.isEmpty && !anchor.isEmpty && anchor.all isWordChar then
        (Position.ofText? (String.ofList (rest.takeWhile isWordChar))).map fun position =>
          ⟨String.ofList field, position, String.ofList anchor⟩
      else none
    | _ => none
  | _ => none

end Palettes.Token

namespace Palettes

open Token

/-- The directive of a field token that is not reserved. A field acts as its
legend does unless it carries a marker; what is removed is always a name. -/
def FieldEvent.ofToken (legend token : String) (mode : Mode) : FieldEvent :=
  match splitMark token mode with
  | (.remove, body) => .remove legend body
  | (_, body) =>
    match placement? body with
    | some p => .place legend p.field p.position p.anchor
    | none => .append legend body

@[simp] theorem FieldEvent.legend_ofToken (legend token : String) (mode : Mode) :
    (ofToken legend token mode).legend = legend := by
  unfold ofToken
  split
  · rfl
  · split <;> rfl

/-- What one legend entry announces, and the reserved tokens it drops. -/
structure Announcement where
  event : LegendEvent
  fields : List FieldEvent
  dropped : List String
  deriving DecidableEq, Repr

/-- Read one legend entry. Replayed for a descendant, an entry with a marker
does not override, and then it touches the visibility only to hide. -/
def Announcement.ofEntry (token : String) (fields : List String) (ancestor : Bool) :
    Announcement :=
  let (mode, legend) := splitMark token .override
  let hidden := fields.contains hideMark
  let overrides := !ancestor || mode == .override
  { event := ⟨legend, overrides,
      if overrides || hidden then Hide.ofBool hidden else .unspecified⟩
    fields := (fields.filter (!isReserved ·)).map (FieldEvent.ofToken legend · mode)
    dropped := fields.filter fun f => isReserved f && f != hideMark }

end Palettes
