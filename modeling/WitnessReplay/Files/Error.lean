/-!
# Failures of the system

Why a file could not be reached or a program not be started.
-/

namespace WitnessReplay.Files

/-- Why the system refused something. -/
inductive FileError where
  | notFound
  | permissionDenied
  | alreadyExists
  | notADirectory
  | isADirectory
  | nameTooLong
  /-- What is to be copied as a file is none. -/
  | notARegularFile
  /-- A file that is read as text is not UTF-8. -/
  | notText
  /-- A path has a NUL character in it. -/
  | nulInPath
  /-- A command has a NUL character in it. -/
  | nulInCommand
deriving DecidableEq, Repr

def FileError.message : FileError → String
  | notFound => "No such file or directory (os error 2)"
  | permissionDenied => "Permission denied (os error 13)"
  | alreadyExists => "File exists (os error 17)"
  | notADirectory => "Not a directory (os error 20)"
  | isADirectory => "Is a directory (os error 21)"
  | nameTooLong => "File name too long (os error 36)"
  | notARegularFile =>
    "the source path is neither a regular file nor a symlink to a regular file"
  | notText => "stream did not contain valid UTF-8"
  | nulInPath => "file name contained an unexpected NUL byte"
  | nulInCommand => "nul byte found in provided data"

end WitnessReplay.Files
