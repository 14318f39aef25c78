import Palettes.Digit
import Palettes.Reader

/-!
Strings, words and blanks of a JSON text. A fault is `truncated` where the text
ends too early, `malformed` where it is not JSON, and `mistyped` where it is
JSON so far but not what is wanted here.
-/
namespace Palettes.Json

inductive Fault where
  | truncated | malformed | mistyped
  deriving DecidableEq, Repr

abbrev JsonReader (α : Type) := Reader Fault α

open Reader

def isBlank (c : Char) : Bool := c == ' ' || c == '\n' || c == '\t' || c == '\r'

def blanks : JsonReader Unit := skipWhile isBlank

/-- The first character behind blanks, left in place. -/
def token : JsonReader Char := do
  blanks
  match ← peek with
  | none => fail .truncated
  | some c => pure c

/-- Take the text of `cs`, which must come next. -/
def literal (cs : List Char) : JsonReader Unit := word .truncated .malformed cs

/-- Take one character that must come next behind blanks. -/
def punct (c : Char) : JsonReader Unit := do
  blanks
  literal [c]

/-- The four digits of an escape. With fewer than four bytes of text left the
escape is cut short, whatever they are. -/
def hex4 : JsonReader Nat := do
  if ← sees fun s => (String.ofList (s.take 4)).utf8ByteSize < 4 then fail .truncated
  let a ← next
  let b ← next
  let c ← next
  let d ← next
  let cs := [a, b, c, d].filterMap id
  if cs.length = 4 && cs.all Digit.isHex then pure (Digit.number 16 cs) else fail .malformed

def isLeading (n : Nat) : Bool := 0xD800 ≤ n && n ≤ 0xDBFF
def isTrailing (n : Nat) : Bool := 0xDC00 ≤ n && n ≤ 0xDFFF

/-- The character of a `\u` escape; a leading surrogate needs its trailing one
right behind. -/
def unicodeEscape : JsonReader Char := do
  let n ← hex4
  if isTrailing n then fail .malformed
  else if isLeading n then do
    literal ['\\', 'u']
    let m ← hex4
    if isTrailing m then pure (Char.ofNat (0x10000 + (n - 0xD800) * 0x400 + (m - 0xDC00)))
    else fail .malformed
  else pure (Char.ofNat n)

/-- The character that follows a backslash stands for, `\u` apart. -/
def simpleEscape? (c : Char) : Option Char :=
  match c with
  | '"' => some '"'
  | '\\' => some '\\'
  | '/' => some '/'
  | 'b' => some '\x08'
  | 'f' => some '\x0c'
  | 'n' => some '\n'
  | 'r' => some '\r'
  | 't' => some '\t'
  | _ => none

/-- What stands behind a backslash. -/
def escaped : JsonReader Char := do
  match ← next with
  | none => fail .truncated
  | some 'u' => unicodeEscape
  | some c =>
    match simpleEscape? c with
    | some d => pure d
    | none => fail .malformed

/-- The characters of a string that may stand unescaped, and the backslash. -/
def isStringChar (c : Char) : Bool := c != '"' && 32 ≤ c.toNat

/-- A string behind its opening quote. -/
def stringBody : JsonReader String := do
  let cs ← loop (fun _ c => isStringChar c)
    (fun c acc => if c == '\\' then do return (← escaped) :: acc else pure (c :: acc)) []
  literal ['"']
  pure (String.ofList cs.reverse)

/-- A string, where a quote comes next. -/
def string : JsonReader String := do
  literal ['"']
  stringBody

/-- Pass over a string behind its opening quote. The digits of an escape need
not name a character. -/
def skipStringBody : JsonReader Unit := do
  loop (fun _ c => isStringChar c) (fun c _ =>
    if c == '\\' then do
      match ← next with
      | none => fail .truncated
      | some 'u' => discard hex4
      | some c => if (simpleEscape? c).isSome then pure () else fail .malformed
    else pure ()) ()
  literal ['"']

end Palettes.Json
