import Wireform.Command.Help
import Wireform.Command.Run

/-!
# The program

Runs a command on the files of the disk.
-/

namespace Wireform.Command

def faultOf : IO.Error → FileFault
  | .noFileOrDirectory _ _ _ => .notFound
  | .alreadyExists _ _ _ => .alreadyExists
  | .inappropriateType _ code _ => if code = 21 then .isADirectory else .notADirectory
  | e => .other (toString e)

def attempt {α : Type} (action : IO α) : IO (Except FileFault α) := do
  try
    return .ok (← action)
  catch e => return .error (faultOf e)

def diskHost : Host IO where
  read path := attempt (IO.FS.readFile path)
  write path text := attempt (IO.FS.writeFile path text)
  makeDir path := attempt (IO.FS.createDir path)
  isDir path := do ((← IO.currentDir) / path).isDir
  isThere path := do ((← IO.currentDir) / path).pathExists
  names path := do
    let entries ← ((← IO.currentDir) / path).readDir
    return entries.toList.map fun entry => entry.fileName
  print text := do
    let out ← IO.getStdout
    out.putStr text
  report text := do
    let err ← IO.getStderr
    err.putStr text

/-- Runs a command and tells how the process should end. -/
def runOnDisk (inv : Invocation) : IO UInt32 := do
  match ← (run diskHost inv).run with
  | .ok () => return 0
  | .error f =>
    diskHost.report f.report
    return 1

end Wireform.Command

open Wireform.Command in
def main (args : List String) : IO UInt32 := do
  match parseArguments args with
  | .ok inv => runOnDisk inv
  | .error usage =>
    if usage.exitCode = 0 then diskHost.print usage.text else diskHost.report usage.text
    return UInt32.ofNat usage.exitCode
