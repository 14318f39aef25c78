import Palettes.Json.Read
import Palettes.Json.Writer
import Palettes.Listener

/-!
Events in JSON are records. A field event names its action in a member that may
stand anywhere, so its other members are read as they come and looked at in the
end. A recorded event puts the members of its legend or field event behind its
own tag.
-/
namespace Palettes

open Json Reader

/-! ## Names -/

namespace Mode

def name : Mode → String
  | .add => "add"
  | .remove => "remove"
  | .override => "override"

def named? : String → Option Mode
  | "add" => some .add
  | "remove" => some .remove
  | "override" => some .override
  | _ => none

def jsonReader : JsonReader Mode := choice named?

end Mode

def Position.jsonReader : JsonReader Position := choice Position.ofText?

namespace Hide

def name : Hide → String
  | .hidden => "hidden"
  | .visible => "visible"
  | .unspecified => "unspecified"

def named? : String → Option Hide
  | "hidden" => some .hidden
  | "visible" => some .visible
  | "unspecified" => some .unspecified
  | _ => none

def jsonReader : JsonReader Hide := choice named?

end Hide

/-! ## Legend events -/

namespace LegendEvent

def members (e : LegendEvent) : List (String × Value) :=
  [("legend", .string e.legend), ("override", .bool e.overrides), ("hide", .string e.hide.name)]

def toJson (e : LegendEvent) : Value := .object e.members

structure Draft where
  legend : Option String := none
  overrides : Option Bool := none
  hide : Option Hide := none

def Draft.member (d : Draft) : String → JsonReader Draft
  | "legend" => do return { d with legend := ← once d.legend text }
  | "override" => do return { d with overrides := ← once d.overrides bool }
  | "hide" => do return { d with hide := ← once d.hide Hide.jsonReader }
  | _ => do skipMember; pure d

def Draft.complete? (d : Draft) : Option LegendEvent := do
  return ⟨← d.legend, ← d.overrides, ← d.hide⟩

def jsonReader : JsonReader LegendEvent :=
  record Draft.member {} Draft.complete? do
    let legend ← item true text
    let overrides ← item false bool
    let hide ← item false Hide.jsonReader
    pure ⟨legend, overrides, hide⟩

end LegendEvent

/-! ## Field events -/

/-- What a field event does, as its `action` says. -/
inductive Action where
  | remove | append | place
  deriving DecidableEq, Repr

namespace Action

def name : Action → String
  | .remove => "remove"
  | .append => "add_append"
  | .place => "add_positioned"

def named? : String → Option Action
  | "remove" => some .remove
  | "add_append" => some .append
  | "add_positioned" => some .place
  | _ => none

def jsonReader : JsonReader Action := do
  match named? (← text) with
  | some a => pure a
  | none => fail .mistyped

end Action

namespace FieldEvent

def members : FieldEvent → List (String × Value)
  | .remove legend field =>
    [("action", .string Action.remove.name), ("legend", .string legend), ("field", .string field)]
  | .append legend field =>
    [("action", .string Action.append.name), ("legend", .string legend), ("field", .string field)]
  | .place legend field position anchor =>
    [("action", .string Action.place.name), ("legend", .string legend), ("field", .string field),
      ("position", .string position.text), ("anchor", .string anchor)]

def toJson (e : FieldEvent) : Value := .object e.members

def stringOf? : Value → Option String
  | .string s => some s
  | _ => none

/-- A position within a value already read. -/
def positionOf? : Value → Option Position
  | .string s => Position.ofText? s
  | .object [(s, .null)] => Position.ofText? s
  | .object [(s, .object [])] => Position.ofText? s
  | _ => none

/-- The event of an action, where `get?` yields the value of a member. -/
def ofMembers? (action : Action) (get? : String → Option Value) : Option FieldEvent := do
  let legend ← (get? "legend").bind stringOf?
  let field ← (get? "field").bind stringOf?
  match action with
  | .remove => return .remove legend field
  | .append => return .append legend field
  | .place =>
    let position ← (get? "position").bind positionOf?
    let anchor ← (get? "anchor").bind stringOf?
    return .place legend field position anchor

/-- The value of a member that is given once. -/
def single? (ms : List (String × Value)) (k : String) : Option Value :=
  match ms.filter (·.1 == k) with
  | [(_, v)] => some v
  | _ => none

/-- The names of the items behind the action, where the event is an array. -/
def itemNames : Action → List String
  | .remove | .append => ["legend", "field"]
  | .place => ["legend", "field", "position", "anchor"]

structure Draft where
  action : Option Action := none
  members : List (String × Value) := []

def Draft.member (d : Draft) : String → JsonReader Draft
  | "action" => do return { d with action := ← once d.action Action.jsonReader }
  | k => do
    punct ':'
    let v ← value (nestingLimit - 1)
    return { d with members := (k, v) :: d.members }

def Draft.complete? (d : Draft) : Option FieldEvent := do
  ofMembers? (← d.action) (single? d.members)

/-- The array form: the action, then the values of its members and nothing else. -/
def row : JsonReader FieldEvent := do
  let action ← item true Action.jsonReader
  let vs ← further ']' (fun vs => notClosed do return (← value (nestingLimit - 1)) :: vs) []
  let names := itemNames action
  match ofMembers? action ((names.zip vs.reverse).lookup ·) with
  | some e => if vs.length = names.length then pure e else fail .mistyped
  | none => fail .mistyped

def jsonReader : JsonReader FieldEvent := record Draft.member {} Draft.complete? row

end FieldEvent

/-! ## Recorded events -/

namespace Event

def members : Event → List (String × Value)
  | .call (.start table palette) =>
    [("event", .string "start"), ("table", .string table), ("palette", .string palette)]
  | .inherit parent => [("event", .string "inherit"), ("parent", .string parent)]
  | .call (.legend e) => ("event", .string "legend") :: e.members
  | .call (.field e) => ("event", .string "field") :: e.members
  | .call .finish => [("event", .string "finish")]

def toJson (e : Event) : Value := .object e.members

end Event

end Palettes
