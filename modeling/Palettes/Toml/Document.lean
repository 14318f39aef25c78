import Palettes.Toml.Scalar
import Palettes.Toml.Text

/-!
Reading a TOML document: keys, values and the lines that place them.
-/
namespace Palettes.Toml

open Reader

/-- Arrays and inline tables nest less deep than this, and a dotted key has
fewer names. -/
def depthLimit : Nat := 80

def isBareKeyChar (c : Char) : Bool := c.isAlphanum || c == '_' || c == '-'

/-- A name whose first character is taken. -/
def keyNameFrom (c : Char) : TomlReader String :=
  if c == '"' then lineString '"' true
  else if c == '\'' then lineString '\'' false
  else if isBareKeyChar c then do
    let cs ← takeWhile isBareKeyChar
    pure (String.ofList (c :: cs))
  else fail .malformed

def keyName : TomlReader String := do
  match ← next with
  | some c => keyNameFrom c
  | none => fail .malformed

/-- A key: the names before the last, and the last. -/
structure Key where
  names : List String
  last : String

/-- The names behind the first, each behind a dot, and blanks around them. -/
def keyBehind (first : String) : TomlReader Key := do
  blanks
  let k ← loop (fun _ c => c == '.') (fun _ k => do
    blanks
    let name ← keyName
    blanks
    pure ⟨k.last :: k.names, name⟩) (⟨[], first⟩ : Key)
  if depthLimit ≤ k.names.length + 1 then fail .tooDeep
  else pure { k with names := k.names.reverse }

def key : TomlReader Key := do
  blanks
  keyBehind (← keyName)

/-- The characters of numbers, dates and times. -/
def isScalarChar (c : Char) : Bool :=
  c.isAlphanum || c == '+' || c == '-' || c == '.' || c == ':' || c == '_'

/-- Whether a text starts like a time behind one blank. -/
def startsBlankTime : List Char → Bool
  | ' ' :: a :: b :: ':' :: _ => Digit.isDecimal a && Digit.isDecimal b
  | _ => false

/-- A number, date or time whose first character is taken. -/
def scalarFrom (c : Char) : TomlReader Item := do
  let cs ← takeWhile isScalarChar
  let cs := c :: cs
  if Scalar.isDate cs && (← sees startsBlankTime) then
    discard next
    if Scalar.isOffsetTime (← takeWhile isScalarChar) then pure .dateTime else fail .malformed
  else if Scalar.isDateTime cs then pure .dateTime
  else if Scalar.isNumber cs then pure .number
  else fail .malformed

/-- The rest of an array, where `value` reads an item whose first character is
taken. -/
def arrayRest (value : Char → TomlReader Item) : TomlReader Item := do
  let item (vs : List Item) : TomlReader (List Item) := do
    trivia
    match ← peek with
    | some ']' | none => pure vs
    | some c =>
      discard next
      let v ← value c
      trivia
      pure (v :: vs)
  let vs ← item []
  if vs.isEmpty then
    literal [']']
    pure (.array [])
  else
    let vs ← loop (fun _ c => c == ',') (fun _ vs => item vs) vs
    literal [']']
    pure (.array vs.reverse)

/-- Fold the pairs of an inline table into members. -/
def inlineMembers (pairs : List (Key × Item)) : Except Fault Members :=
  pairs.foldlM (fun ms p => assign p.1.names p.1.last p.2 ms) []

/-- The tables that dotted keys make within an inline table are closed with it. -/
def inlineRest (value : Char → TomlReader Item) : TomlReader Item := do
  let pair (ps : List (Key × Item)) : TomlReader (List (Key × Item)) := do
    let k ← key
    literal ['=']
    blanks
    match ← next with
    | none => fail .malformed
    | some c =>
      let v ← value c
      blanks
      pure ((k, v) :: ps)
  blanks
  if (← peek) == some '\x7d' then
    discard next
    pure (.inline [])
  else
    let ps ← pair []
    let ps ← loop (fun _ c => c == ',') (fun _ ps => pair ps) ps
    literal ['\x7d']
    match inlineMembers ps.reverse with
    | .ok ms => pure (.inline ms)
    | .error e => fail e

/-- A value whose first character is taken, with the readers of what may stand
behind an opening bracket or brace. -/
def valueWith (array inline : TomlReader Item) (c : Char) : TomlReader Item :=
  match c with
  | '"' => do return .string (← stringFrom '"' true)
  | '\'' => do return .string (← stringFrom '\'' false)
  | '[' => array
  | '\x7b' => inline
  | 't' => do literal "rue".toList; pure (.boolean true)
  | 'f' => do literal "alse".toList; pure (.boolean false)
  | 'i' => do literal "nf".toList; pure .number
  | 'n' => do literal "an".toList; pure .number
  | c =>
    if c == '+' || c == '-' || Digit.isDecimal c then scalarFrom c else fail .malformed

/-- A value that nests at most `depth` arrays and inline tables. -/
def valueFrom : Nat → Char → TomlReader Item
  | 0 => valueWith (fail .tooDeep) (fail .tooDeep)
  | depth + 1 => valueWith (arrayRest (valueFrom depth)) (inlineRest (valueFrom depth))

/-- The document so far, and the table that keys go into. -/
structure Draft where
  root : Members := []
  table : List String := []

/-- Lift a placement into reading. -/
def placed (d : Draft) (r : Except Fault Members) : TomlReader Draft :=
  match r with
  | .ok root => pure { d with root }
  | .error e => fail e

/-- A header, behind its first bracket. -/
def header (d : Draft) : TomlReader Draft := do
  if (← peek) == some '[' then
    discard next
    let k ← key
    literal [']', ']']
    lineRest
    placed { d with table := k.names ++ [k.last] } (openTables k.names k.last d.root)
  else
    let k ← key
    literal [']']
    lineRest
    placed { d with table := k.names ++ [k.last] } (openTable k.names k.last d.root)

/-- A key and its value; the first character of the key is taken. -/
def pairFrom (c : Char) (d : Draft) : TomlReader Draft := do
  let k ← keyBehind (← keyNameFrom c)
  literal ['=']
  blanks
  match ← next with
  | none => fail .malformed
  | some c =>
    let v ← valueFrom (depthLimit - 1) c
    lineRest
    placed d (within .header (fun _ ms => assign k.names k.last v ms) .header d.table d.root)

/-- A line, or a blank before it, whose first character is taken. -/
def expression (c : Char) (d : Draft) : TomlReader Draft :=
  if isBlank c then pure d
  else if c == '#' then do comment; lineRest; pure d
  else if c == '[' then header d
  else if c == '\n' || c == '\r' then do lineEndFrom c; pure d
  else pairFrom c d

/-- The members of a document. A byte order mark before it is passed over. -/
def parse (s : String) : Except Fault Members :=
  let cs := match s.toList with
    | '\uFEFF' :: cs => cs
    | cs => cs
  match (loop (fun _ _ => true) expression ({} : Draft)).run cs with
  | .ok (d, _) => .ok d.root
  | .error e => .error e

end Palettes.Toml
