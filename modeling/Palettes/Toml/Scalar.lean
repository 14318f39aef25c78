import Palettes.Digit
import Palettes.Double

/-!
The written forms of TOML numbers, dates and times. Their values are never
used, but a form that denotes nothing is refused: integers stay within 64 bits,
a float does not overflow to positive infinity, and a date is on the calendar.
-/
namespace Palettes.Toml.Scalar

/-- Digits in which an underscore may stand between two of them. -/
def isGrouped (digit : Char → Bool) : List Char → Bool
  | [] => false
  | [c] => digit c
  | c :: '_' :: cs => digit c && isGrouped digit cs
  | c :: cs => digit c && isGrouped digit cs

def unsigned : List Char → List Char
  | '+' :: cs => cs
  | '-' :: cs => cs
  | cs => cs

/-- Decimal digits, possibly signed, without a leading zero. -/
def isDecimal (cs : List Char) : Bool :=
  match unsigned cs with
  | ['0'] => true
  | '0' :: _ => false
  | ds => isGrouped Digit.isDecimal ds

/-- The number that grouped digits write. -/
def natValue (base : Nat) (cs : List Char) : Nat := Digit.number base (cs.filter (· != '_'))

/-- The least number that takes more than 63 bits. -/
def integerLimit : Nat := Nat.pow 2 63

def isInteger : List Char → Bool
  | '0' :: 'x' :: cs => isGrouped Digit.isHex cs && natValue 16 cs < integerLimit
  | '0' :: 'o' :: cs => isGrouped (fun c => '0' ≤ c && c ≤ '7') cs && natValue 8 cs < integerLimit
  | '0' :: 'b' :: cs =>
    isGrouped (fun c => c == '0' || c == '1') cs && natValue 2 cs < integerLimit
  | cs =>
    isDecimal cs &&
      natValue 10 (unsigned cs) < (if cs.head? == some '-' then integerLimit + 1 else integerLimit)

def isExponentMark (c : Char) : Bool := c == 'e' || c == 'E'

/-- A whole part, then a fraction or an exponent or both. -/
def isFloat (cs : List Char) : Bool :=
  let whole := cs.takeWhile fun c => c != '.' && !isExponentMark c
  let behind := cs.drop whole.length
  let fraction := match behind with
    | '.' :: ds => some (ds.takeWhile (!isExponentMark ·))
    | _ => none
  let exponent := match behind.dropWhile (!isExponentMark ·) with
    | _ :: ds => some ds
    | [] => none
  isDecimal whole && (fraction.isSome || exponent.isSome) &&
    fraction.all (isGrouped Digit.isDecimal) &&
    exponent.all (fun ds => isGrouped Digit.isDecimal (unsigned ds)) &&
    (cs.head? == some '-' ||
      let f := (fraction.getD []).filter (· != '_')
      let e := exponent.getD []
      let n := natValue 10 (unsigned e)
      !Double.overflows (natValue 10 (unsigned whole ++ f))
        ((if e.head? == some '-' then -(n : Int) else n) - f.length))

def isSpecialFloat (cs : List Char) : Bool :=
  unsigned cs == ['i', 'n', 'f'] || unsigned cs == ['n', 'a', 'n']

def daysIn (year month : Nat) : Nat :=
  match month with
  | 2 => if year % 4 = 0 ∧ (year % 100 ≠ 0 ∨ year % 400 = 0) then 29 else 28
  | 4 | 6 | 9 | 11 => 30
  | _ => 31

def isDate : List Char → Bool
  | [y1, y2, y3, y4, '-', m1, m2, '-', d1, d2] =>
    [y1, y2, y3, y4, m1, m2, d1, d2].all Digit.isDecimal &&
      let month := natValue 10 [m1, m2]
      let day := natValue 10 [d1, d2]
      1 ≤ month && month ≤ 12 && 1 ≤ day && day ≤ daysIn (natValue 10 [y1, y2, y3, y4]) month
  | _ => false

def isHourMinute (h1 h2 m1 m2 : Char) : Bool :=
  [h1, h2, m1, m2].all Digit.isDecimal && natValue 10 [h1, h2] < 24 && natValue 10 [m1, m2] < 60

/-- Nothing, `Z`, or hours and minutes. -/
def isOffset : List Char → Bool
  | [] => true
  | ['Z'] | ['z'] => true
  | [sign, h1, h2, ':', m1, m2] => (sign == '+' || sign == '-') && isHourMinute h1 h2 m1 m2
  | _ => false

/-- A time of day, with a leap second, and what follows it. -/
def isTimeThen (behind : List Char → Bool) : List Char → Bool
  | h1 :: h2 :: ':' :: m1 :: m2 :: ':' :: s1 :: s2 :: cs =>
    isHourMinute h1 h2 m1 m2 && [s1, s2].all Digit.isDecimal && natValue 10 [s1, s2] ≤ 60 &&
      match cs with
      | '.' :: ds =>
        !(ds.takeWhile Digit.isDecimal).isEmpty && behind (ds.dropWhile Digit.isDecimal)
      | cs => behind cs
  | _ => false

def isTime : List Char → Bool := isTimeThen List.isEmpty

def isOffsetTime : List Char → Bool := isTimeThen isOffset

/-- A date, a time, or both around a `T`. -/
def isDateTime (cs : List Char) : Bool :=
  isDate cs || isTime cs ||
    match cs.drop 10 with
    | 'T' :: time | 't' :: time => isDate (cs.take 10) && isOffsetTime time
    | _ => false

def isNumber (cs : List Char) : Bool := isInteger cs || isFloat cs || isSpecialFloat cs

end Palettes.Toml.Scalar
