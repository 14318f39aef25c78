/-!
JSON values, their members in order. A number is kept as it is written.
-/
namespace Palettes.Json

inductive Value where
  | null
  | bool (b : Bool)
  | number (text : String)
  | string (s : String)
  | array (items : List Value)
  | object (members : List (String × Value))

/-- An array of strings. -/
def Value.strings (ss : List String) : Value := .array (ss.map .string)

end Palettes.Json
