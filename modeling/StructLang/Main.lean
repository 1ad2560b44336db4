import StructLang.CommandLine

/-!
# The command

The command line over the files of the machine. Tools are not started from here, so a build ends with
the report that its first tool did not start.
-/

namespace StructLang

/-- The error of a file operation. -/
def fileError : IO.Error → FileError
  | .inappropriateType .. => .isADirectory
  | .resourceVanished .. => .notADirectory
  | _ => .notFound

/-- The files of the machine. -/
def machine : Host IO where
  read path := do
    try
      let bytes ← IO.FS.readBinFile path
      return (Utf8.decode bytes.toList).mapError fun _ => .notUtf8
    catch e => return .error (fileError e)
  isFile path := do
    try
      let place ← IO.FS.realPath path
      return (← place.pathExists) && !(← place.isDir)
    catch _ => return false
  identity path := do
    try return (← IO.FS.realPath path).toString
    catch _ => return path
  write path text := do
    try
      IO.FS.writeFile path text
      return .ok ()
    catch e => return .error (fileError e)
  remove path := do
    try IO.FS.removeFile path
    catch _ => return ()
  start _ := return .error .notFound

end StructLang

/-- Carry out the command and exit with its code. -/
def main (args : List String) : IO UInt32 := do
  let answer ← StructLang.runArgs StructLang.machine (1 <<< 32) args
  IO.print answer.output
  IO.eprint answer.errors
  return UInt32.ofNat answer.code
