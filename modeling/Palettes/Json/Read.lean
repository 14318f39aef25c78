import Palettes.Json.Skip
import Palettes.Json.Value

/-!
Arrays, objects and values read straight into what is wanted, from left to
right: the first fault met is the answer. Where the wanted kind of value does
not come, an array or object in its place is refused at its bracket, while a
string, number or word is read before it is refused.
-/
namespace Palettes.Json

open Reader

/-- The faults met where a value of another kind is wanted. -/
def mismatch {α : Type} : JsonReader α := do
  match ← token with
  | '[' | '{' => fail .mistyped
  | '"' => do discard string; fail .mistyped
  | 'n' => do literal "null".toList; fail .mistyped
  | 't' => do literal "true".toList; fail .mistyped
  | 'f' => do literal "false".toList; fail .mistyped
  | c => if startsNumber c then do discard number; fail .mistyped else fail .malformed

/-- The items behind one that is read, each behind a comma, up to `close`,
which is left in place. -/
def further {β : Type} (close : Char) (item : β → JsonReader β) (b : β) : JsonReader β := do
  blanks
  let b ← loop (fun _ c => c == ',') (fun _ b => do
    let b ← item b
    blanks
    pure b) b
  if (← token) == close then pure b else fail .malformed

/-- Items between commas, behind the opening bracket and through `close`. -/
def items {β : Type} (close : Char) (item : β → JsonReader β) (b : β) : JsonReader β := do
  if (← token) == close then
    discard next
    pure b
  else
    let b ← further close item (← item b)
    discard next
    pure b

/-- Read an item, where no bracket may stand in its place. -/
def notClosed {β : Type} (item : JsonReader β) : JsonReader β := do
  if (← token) == ']' then fail .malformed else item

/-- The items of an array, gone through by `item`. -/
def array {β : Type} (item : β → JsonReader β) (b : β) : JsonReader β := do
  if (← token) == '[' then
    discard next
    items ']' (fun b => notClosed (item b)) b
  else mismatch

/-- The members of an object, behind its opening brace. The name of each is
read and handed to `member`, which goes on with the colon. -/
def members {β : Type} (member : β → String → JsonReader β) (b : β) : JsonReader β :=
  items '\x7d' (fun b => do
    if (← token) == '"' then member b (← string) else fail .malformed) b

def object {β : Type} (member : β → String → JsonReader β) (b : β) : JsonReader β := do
  if (← token) == '{' then
    discard next
    members member b
  else mismatch

/-- A value that must be a string. -/
def text : JsonReader String := do
  if (← token) == '"' then string else mismatch

/-- A value that must be a truth value. -/
def bool : JsonReader Bool := do
  match ← token with
  | 't' => do literal "true".toList; pure true
  | 'f' => do literal "false".toList; pure false
  | _ => mismatch

def texts : JsonReader (List String) := do
  let ts ← array (fun ts => do return (← text) :: ts) []
  pure ts.reverse

/-- Any value, of which the arrays and objects are read by the readers given. -/
def valueWith (array object : JsonReader Value) : JsonReader Value := do
  match ← token with
  | '[' => array
  | '{' => object
  | '"' => do return .string (← string)
  | 'n' => do literal "null".toList; pure .null
  | 't' => do literal "true".toList; pure (.bool true)
  | 'f' => do literal "false".toList; pure (.bool false)
  | c =>
    if startsNumber c then do
      let (_, cs) ← spelled number
      pure (.number (String.ofList cs))
    else fail .malformed

/-- Any value that nests at most `depth` arrays and objects. -/
def value : Nat → JsonReader Value
  | 0 => valueWith (fail .malformed) (fail .malformed)
  | depth + 1 => valueWith
    (do
      let vs ← array (fun vs => do return (← value depth) :: vs) []
      pure (.array vs.reverse))
    (do
      let ms ← object (fun ms k => do
        punct ':'
        return (k, ← value depth) :: ms) []
      pure (.object ms.reverse))

/-- How deep a value may nest. -/
def nestingLimit : Nat := 127

/-- A whole text: one value and blanks around it. -/
def readText {α : Type} (p : JsonReader α) (s : String) : Except Fault α :=
  match (do
      let a ← p
      blanks
      if (← peek).isSome then fail .malformed
      pure a : JsonReader α).run s.toList with
  | .error e => .error e
  | .ok (a, _) => .ok a

/-! An object with fixed members may also be written as the array of their
values, in a fixed order. -/

/-- Behind an opening bracket or an item, whether another item comes. -/
def hasItem (first : Bool) : JsonReader Bool := do
  let c ← token
  if c == ']' then pure false
  else if first then pure true
  else if c == ',' then
    discard next
    notClosed (pure true)
  else fail .malformed

/-- An item that must not be missing. -/
def item {α : Type} (first : Bool) (p : JsonReader α) : JsonReader α := do
  if ← hasItem first then p else fail .mistyped

/-- A record: an object whose members fill a draft, or an array. Behind the
items wanted the array must close. -/
def record {α δ : Type} (member : δ → String → JsonReader δ) (draft : δ)
    (complete? : δ → Option α) (row : JsonReader α) : JsonReader α := do
  match ← token with
  | '{' =>
    discard next
    match complete? (← members member draft) with
    | some a => pure a
    | none => fail .mistyped
  | '[' =>
    discard next
    let a ← row
    punct ']'
    pure a
  | _ => mismatch

/-- A member that may be given once. -/
def once {α : Type} (old : Option α) (p : JsonReader α) : JsonReader (Option α) :=
  if old.isSome then fail .mistyped
  else do
    punct ':'
    return some (← p)

/-- A member that is not wanted. -/
def skipMember : JsonReader Unit := do
  punct ':'
  skipValue

/-- One of finitely many names, written as a string or as the only member of an
object, whose value is then `null`. -/
def choice {α : Type} (named? : String → Option α) : JsonReader α := do
  match ← token with
  | '"' => name
  | '{' =>
    discard next
    let a ← name
    punct ':'
    if (← token) == 'n' then literal "null".toList else mismatch
    punct '\x7d'
    pure a
  | _ => fail .malformed
where
  name : JsonReader α := do
    match named? (← text) with
    | some a => pure a
    | none => fail .mistyped

end Palettes.Json
