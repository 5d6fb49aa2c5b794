import Wireform.Command.Failure
import Wireform.Command.Path

/-!
# What a command asks of its surroundings

Files and output, in any monad: the command itself does not know whether the files are real.
-/

namespace Wireform.Command

structure Host (m : Type → Type) where
  read : (path : String) → m (Except FileFault String)
  write : (path text : String) → m (Except FileFault Unit)
  /-- Makes a directory in one that is there. -/
  makeDir : (path : String) → m (Except FileFault Unit)
  isDir : (path : String) → m Bool
  isThere : (path : String) → m Bool
  /-- Names in a directory, in any order. -/
  names : (path : String) → m (List String)
  print : (text : String) → m Unit
  report : (text : String) → m Unit

namespace Host

variable {m : Type → Type} [Monad m] (h : Host m)

/-- A directory that is there already will do. -/
def makeOrFindDir (path : String) : m (Except FileFault Unit) := do
  match ← h.makeDir path with
  | .error .alreadyExists =>
    if ← h.isDir path then return .ok () else return .error .alreadyExists
  | result => return result

/-- Makes a directory; if something above it is missing, `prepare` comes first. -/
def makeDirAfter (prepare : m (Except FileFault Unit)) (path : String) :
    m (Except FileFault Unit) := do
  match ← h.makeOrFindDir path with
  | .error .notFound =>
    match ← prepare with
    | .ok () => h.makeOrFindDir path
    | .error fault => return .error fault
  | result => return result

/-- Makes the directory of a path, and those above it that are missing. The segments of the path
are given from its end. -/
def makeDirsUpTo : List String → m (Except FileFault Unit)
  | [] => return .ok ()
  | s :: above =>
    if Path.isIdle s then makeDirsUpTo above
    else h.makeDirAfter (makeDirsUpTo above) ("/".intercalate (s :: above).reverse)

/-- Makes a directory and those above it that are missing. A point at the end of the path is kept,
so such a path is only good for a directory that is there. -/
def makeDirs (path : String) : m (Except FileFault Unit) :=
  let above := ((Path.segments path).reverse.dropWhile Path.isIdle).tail
  h.makeDirAfter (h.makeDirsUpTo above) path

end Host

end Wireform.Command
