import Palettes.Program

/-!
The program at the command line, on the machine's own disk.
-/
namespace Palettes.Machine

/-- The system's number for a fault; some calls report it negated. -/
def faultOfCode (reported : UInt32) (reason : String) : ReadFault :=
  let code := if reported < 0x80000000 then reported else 0 - reported
  if code = 2 then .notFound
  else if code = 20 then .notDirectory
  else if code = 21 then .isDirectory
  else if code = 36 then .nameTooLong
  else .other (reason ++ " (os error " ++ toString code ++ ")")

def faultOfError : IO.Error → ReadFault
  | .noFileOrDirectory _ code reason => faultOfCode code reason
  | .inappropriateType _ code reason => faultOfCode code reason
  | .invalidArgument _ code reason => faultOfCode code reason
  | .permissionDenied _ code reason => faultOfCode code reason
  | .resourceExhausted _ code reason => faultOfCode code reason
  | .noSuchThing _ code reason => faultOfCode code reason
  | .otherError code reason => faultOfCode code reason
  | e => .other e.toString

def read (path : String) : IO (Except ReadFault String) := do
  if path.toList.contains '\x00' then
    return .error .nulCharacter
  try
    match String.fromUTF8? (← IO.FS.readBinFile path) with
    | some s => return .ok s
    | none => return .error .notUnicode
  catch e => return .error (faultOfError e)

def holds (path : String) : IO Bool := do
  if path.toList.contains '\x00' then
    return false
  try
    discard (IO.FS.realPath path)
    return true
  catch _ => return false

def currentDirectory : IO (Option String) := do
  try return some (← IO.currentDir).toString catch _ => return none

def disk : Disk IO := { read, holds, currentDirectory }

end Palettes.Machine

def main (words : List String) : IO UInt32 := do
  let exit ← Palettes.Program.start Palettes.Machine.disk words
  IO.eprint exit.stderr
  IO.print exit.stdout
  return exit.code.toUInt32
