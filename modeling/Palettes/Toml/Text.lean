import Palettes.Digit
import Palettes.Reader
import Palettes.Toml.Item

/-!
Strings and blanks of a TOML text. A line ends in a line feed, which a carriage
return may precede; otherwise the only control character is the tab.
-/
namespace Palettes.Toml

open Reader

abbrev TomlReader (α : Type) := Reader Fault α

def isBlank (c : Char) : Bool := c == ' ' || c == '\t'

/-- The characters of comments and strings, as far as these do not end them. -/
def isPlain (c : Char) : Bool := c == '\t' || (32 ≤ c.toNat && c.toNat != 127)

def blanks : TomlReader Unit := skipWhile isBlank

def literal (cs : List Char) : TomlReader Unit := word .malformed .malformed cs

/-- The rest of a line end whose first character is taken. -/
def lineEndFrom (c : Char) : TomlReader Unit :=
  if c == '\n' then pure ()
  else if c == '\r' then literal ['\n']
  else fail .malformed

def comment : TomlReader Unit := skipWhile isPlain

/-- What may stand behind an expression: blanks, a comment, the end of the line. -/
def lineRest : TomlReader Unit := do
  blanks
  if (← peek) == some '#' then comment
  match ← next with
  | none => pure ()
  | some c => lineEndFrom c

/-- Blanks, comments and line ends. -/
def trivia : TomlReader Unit :=
  loop (fun _ c => isBlank c || c == '\n' || c == '\r' || c == '#') (fun c _ =>
    if isBlank c then pure ()
    else if c == '#' then comment
    else lineEndFrom c) ()

/-! ## Strings -/

/-- The character with a code of `digits` hexadecimal digits. -/
def codeEscape (code : Nat) : Nat → TomlReader Char
  | 0 => if h : code.isValidChar then pure (Char.ofNatAux code h) else fail .malformed
  | digits + 1 => do
    match (← next).bind Digit.hexValue? with
    | some n => codeEscape (16 * code + n) digits
    | none => fail .malformed

/-- What stands behind a backslash. -/
def escaped : TomlReader Char := do
  match ← next with
  | some 'b' => pure '\x08'
  | some 't' => pure '\t'
  | some 'n' => pure '\n'
  | some 'f' => pure '\x0c'
  | some 'r' => pure '\r'
  | some '"' => pure '"'
  | some '\\' => pure '\\'
  | some 'u' => codeEscape 0 4
  | some 'U' => codeEscape 0 8
  | _ => fail .malformed

/-- A string on one line, behind its opening quote. -/
def lineString (quote : Char) (escapes : Bool) : TomlReader String := do
  let cs ← loop (fun _ c => c != quote && isPlain c) (fun c acc =>
    if escapes && c == '\\' then do return (← escaped) :: acc else pure (c :: acc)) []
  literal [quote]
  pure (String.ofList cs.reverse)

/-- Whether a text starts with a line end behind blanks. -/
def startsLineEnd (s : List Char) : Bool :=
  match s.dropWhile isBlank with
  | '\n' :: _ => true
  | '\r' :: '\n' :: _ => true
  | _ => false

structure Block where
  reversed : List Char := []
  closed : Bool := false

/-- A quote within a string of several lines. One or two in a row stand for
themselves. Three and more end the string, and up to two of them that come
before the last three still belong to it. -/
def blockQuote (quote : Char) (b : Block) : TomlReader Block := do
  let more ← takeWhile (· == quote)
  let run := more.length + 1
  if run < 3 then pure { b with reversed := List.replicate run quote ++ b.reversed }
  else if 5 < run then fail .malformed
  else pure ⟨List.replicate (run - 3) quote ++ b.reversed, true⟩

/-- One character of a string of several lines, and what it begins. -/
def blockChar (quote : Char) (escapes : Bool) (c : Char) (b : Block) : TomlReader Block := do
  if c == quote then blockQuote quote b
  else if escapes && c == '\\' then
    if ← sees startsLineEnd then
      skipWhile isBlank
      loop (fun _ c => isBlank c || c == '\n' || c == '\r') (fun c _ =>
        if isBlank c then pure () else lineEndFrom c) ()
      pure b
    else return { b with reversed := (← escaped) :: b.reversed }
  else if c == '\n' || c == '\r' then
    lineEndFrom c
    pure { b with reversed := '\n' :: b.reversed }
  else if isPlain c then pure { b with reversed := c :: b.reversed }
  else fail .malformed

/-- A string of several lines, behind its opening quotes. A line end right
behind them is left out. -/
def blockString (quote : Char) (escapes : Bool) : TomlReader String := do
  match ← peek with
  | some '\n' => discard next
  | some '\r' => discard next; literal ['\n']
  | _ => pure ()
  let b ← loop (fun b _ => !b.closed) (blockChar quote escapes) {}
  if b.closed then pure (String.ofList b.reversed.reverse) else fail .malformed

/-- A string of either kind, behind its first quote. -/
def stringFrom (quote : Char) (escapes : Bool) : TomlReader String := do
  if ← sees (List.isPrefixOf [quote, quote]) then
    literal [quote, quote]
    blockString quote escapes
  else lineString quote escapes

end Palettes.Toml
