import Palettes.Double
import Palettes.Json.Scan

/-!
JSON numbers. Their values are never used, but a number that is read must be
within the range of doubles. A double is found as the significand, which takes
digits as long as it fits 64 bits, times a power of ten, both rounded to
doubles before they are multiplied.
-/
namespace Palettes.Json

open Reader

/-- A number as it is written, without its sign. -/
structure Decimal where
  whole : List Char
  fraction : List Char
  exponent : Int

namespace Decimal

/-- Take digits into a significand below `2 ^ 64`. The first that does not fit
ends it; the second part of the result counts the digits taken. -/
def takeDigits (significand : Nat) : List Char → Nat × Nat
  | [] => (significand, 0)
  | c :: cs =>
    let next := 10 * significand + Digit.number 10 [c]
    if next < Nat.pow 2 64 then
      let (s, n) := takeDigits next cs
      (s, n + 1)
    else (significand, 0)

/-- Significand and power of ten. Whole digits that do not fit raise the power,
fraction digits that fit lower it. -/
def parts (d : Decimal) : Nat × Int :=
  let (s, n) := takeDigits 0 d.whole
  let (s', m) := takeDigits s d.fraction
  (s', ((d.whole.length - n : Nat) : Int) - m + d.exponent)

def isTooLarge (d : Decimal) : Bool :=
  let (significand, power) := d.parts
  Double.overflowsRounded significand power

end Decimal

/-- One digit or more. `short` is the fault where the text ends before. -/
def digits (short : Fault) : JsonReader (List Char) := do
  match ← takeWhile Digit.isDecimal with
  | [] => if (← peek).isNone then fail short else fail .malformed
  | ds => pure ds

def exponent (short : Fault) : JsonReader Int := do
  match ← peek with
  | some 'e' | some 'E' =>
    discard next
    let sign ← peek
    if sign == some '+' || sign == some '-' then discard next
    let ds ← digits short
    let n : Int := Digit.number 10 ds
    pure (if sign == some '-' then -n else n)
  | _ => pure 0

def fraction (short : Fault) : JsonReader (List Char) := do
  if (← peek) == some '.' then
    discard next
    digits short
  else pure []

/-- The number behind its sign, whose first character `c` is taken. A leading
zero stands alone. -/
def magnitude (short : Fault) (c : Char) : JsonReader Decimal := do
  let more ← takeWhile Digit.isDecimal
  if !Digit.isDecimal c || (c == '0' && !more.isEmpty) then fail .malformed
  let f ← fraction short
  let e ← exponent short
  pure ⟨c :: more, f, e⟩

/-- The number whose first character `c` is taken. `short` is the fault where
the text ends before the number can. -/
def decimal (short : Fault) (c : Char) : JsonReader Decimal :=
  if c == '-' then do
    match ← next with
    | none => fail short
    | some c => magnitude short c
  else magnitude short c

/-- The first character of a number. -/
def startsNumber (c : Char) : Bool := c == '-' || Digit.isDecimal c

/-- A number within range, where its first character comes next. -/
def number : JsonReader Decimal := do
  match ← next with
  | none => fail .truncated
  | some c =>
    let d ← decimal .truncated c
    if d.isTooLarge then fail .malformed else pure d

/-- Pass over a number of any size whose first character is taken. An
unfinished one is malformed. -/
def skipNumber (c : Char) : JsonReader Unit := discard (decimal .malformed c)

end Palettes.Json
