/-!
What the program may ask of the disk, in whatever monad the disk answers.
-/
namespace Palettes

/-- Why a file cannot be read as text. -/
inductive ReadFault where
  | notFound | isDirectory | notDirectory | nameTooLong | notUnicode | nulCharacter
  | other (reason : String)
  deriving DecidableEq, Repr

def ReadFault.message : ReadFault → String
  | .notFound => "No such file or directory (os error 2)"
  | .isDirectory => "Is a directory (os error 21)"
  | .notDirectory => "Not a directory (os error 20)"
  | .nameTooLong => "File name too long (os error 36)"
  | .notUnicode => "stream did not contain valid UTF-8"
  | .nulCharacter => "file name contained an unexpected NUL byte"
  | .other reason => reason

structure Disk (m : Type → Type) where
  read : String → m (Except ReadFault String)
  /-- Whether there is a file or directory at a path. -/
  holds : String → m Bool
  currentDirectory : m (Option String)

end Palettes
