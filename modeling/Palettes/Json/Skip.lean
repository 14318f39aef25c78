import Palettes.Json.Number

/-!
Passing over a value that is not wanted, nested however deep. The arrays and
objects that are open stand on a stack, so that one loop over the text does.
-/
namespace Palettes.Json.Skip

open Reader

inductive Enclosing where
  | array | object
  deriving DecidableEq, Repr

/-- What may come next. -/
inductive Phase where
  | value
  /-- Behind an opening bracket. -/
  | firstItem
  /-- Behind an opening brace. -/
  | firstKey
  | key
  | colon
  /-- Behind an item or a member. -/
  | rest
  | over
  deriving DecidableEq, Repr

structure Progress where
  phase : Phase := .value
  enclosing : List Enclosing := []

namespace Progress

/-- A value is complete. -/
def complete (p : Progress) : Progress :=
  { p with phase := if p.enclosing.isEmpty then .over else .rest }

def enter (p : Progress) (e : Enclosing) : Progress where
  phase := match e with
    | .array => .firstItem
    | .object => .firstKey
  enclosing := e :: p.enclosing

def leave (p : Progress) : Progress := complete { p with enclosing := p.enclosing.tail }

def inObject (p : Progress) : Bool := p.enclosing.head? == some .object

end Progress

/-- A value whose first character is `c`. -/
def value (c : Char) (p : Progress) : JsonReader Progress :=
  match c with
  | '[' => pure (p.enter .array)
  | '{' => pure (p.enter .object)
  | '"' => do skipStringBody; pure p.complete
  | 'n' => do literal "ull".toList; pure p.complete
  | 't' => do literal "rue".toList; pure p.complete
  | 'f' => do literal "alse".toList; pure p.complete
  | c => if startsNumber c then do skipNumber c; pure p.complete else fail .malformed

def key (c : Char) (p : Progress) : JsonReader Progress :=
  if c == '"' then do skipStringBody; pure { p with phase := .colon } else fail .malformed

/-- One character taken, and what it begins. -/
def round (c : Char) (p : Progress) : JsonReader Progress :=
  if isBlank c then pure p
  else
    match p.phase with
    | .value => value c p
    | .firstItem => if c == ']' then pure p.leave else value c p
    | .firstKey => if c == '\x7d' then pure p.leave else key c p
    | .key => key c p
    | .colon => if c == ':' then pure { p with phase := .value } else fail .malformed
    | .rest =>
      if c == ',' then pure { p with phase := if p.inObject then .key else .value }
      else if c == (if p.inObject then '\x7d' else ']') then pure p.leave
      else fail .malformed
    | .over => pure p

end Skip

open Reader in
/-- Pass over one value. -/
def skipValue : JsonReader Unit := do
  let p ← loop (fun p _ => p.phase != Skip.Phase.over) Skip.round {}
  if p.phase == .over then pure () else fail .truncated

end Palettes.Json
