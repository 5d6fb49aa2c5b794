import Wireform.Command.Glob
import Wireform.Fields

/-!
# Files in memory

A tree of named files, in which commands can run without touching a disk. Paths are followed from
the directory in which the command runs, or from the root.
-/

namespace Wireform.Command

inductive FileTree where
  | file (text : String)
  | dir (entries : List (String × FileTree))

namespace FileTree

def empty : FileTree := .dir []

def isDirectory : FileTree → Bool
  | .dir _ => true
  | .file _ => false

def entryNames : FileTree → List String
  | .dir entries => Fields.keys entries
  | .file _ => []

def child? (name : String) : FileTree → Option FileTree
  | .dir entries => Fields.get? entries name
  | .file _ => none

/-- What stands at the end of a list of names. -/
def find? : List String → FileTree → Option FileTree
  | [], t => some t
  | name :: names, t => (t.child? name).bind (find? names)

/-- Puts a tree at the end of a list of names, with the directories that lead to it. -/
def put : FileTree → List String → FileTree → FileTree
  | _, [], new => new
  | .dir entries, name :: names, new =>
    .dir (Fields.insert name (put ((Fields.get? entries name).getD empty) names new) entries)
  | .file text, _ :: _, _ => .file text

/-! ### Paths -/

/-- Bytes in the longest name of a file. -/
def maxNameBytes : Nat := 255

/-- Bytes in the longest path. -/
def maxPathBytes : Nat := 4095

/-- Follows the segments of a path from a directory, given by its names, and tells the names of
where it ends. Above the root is the root. -/
def walk (t : FileTree) : (segments names : List String) → Except FileFault (List String)
  | [], names => .ok names
  | s :: ss, names =>
    match t.find? names with
    | none => .error .notFound
    | some (.file _) => .error .notADirectory
    | some (.dir entries) =>
      if Path.isIdle s then walk t ss names
      else if s = ".." then walk t ss names.dropLast
      else if s.utf8ByteSize > maxNameBytes then .error .nameTooLong
      else if Fields.contains entries s then walk t ss (names ++ [s])
      else .error .notFound

/-- The segments of a path that can lead somewhere. -/
def pathSegments (path : String) : Except FileFault (List String) :=
  if path.contains (Char.ofNat 0) then .error .nullInPath
  else if path.utf8ByteSize > maxPathBytes then .error .nameTooLong
  else if path = "" then .error .notFound
  else .ok (Path.segments path)

/-- The names from which a path is followed. -/
def startOf (here : List String) (path : String) : List String :=
  if Path.isAbsolute path then [] else here

/-- The names behind a path. -/
def locate (t : FileTree) (here : List String) (path : String) :
    Except FileFault (List String) := do
  t.walk (← pathSegments path) (startOf here path)

def at? (t : FileTree) (here : List String) (path : String) : Option FileTree :=
  match t.locate here path with
  | .ok names => t.find? names
  | .error _ => none

def read (t : FileTree) (here : List String) (path : String) : Except FileFault String := do
  match t.find? (← t.locate here path) with
  | some (.file text) => .ok text
  | some (.dir _) => .error .isADirectory
  | none => .error .notFound

/-- Puts a tree at the end of a path, in a directory that is there. -/
def place (t : FileTree) (segments start : List String) (new : FileTree) :
    Except FileFault FileTree := do
  return t.put ((← t.walk segments.dropLast start) ++ [segments.getLastD ""]) new

/-- Slashes at the end of the path make no difference. -/
def makeDir (t : FileTree) (here : List String) (path : String) : Except FileFault FileTree := do
  let segments := ((← pathSegments path).reverse.dropWhile (· == "")).reverse
  match t.walk segments (startOf here path) with
  | .ok _ => throw .alreadyExists
  | .error .notFound => t.place segments (startOf here path) empty
  | .error fault => throw fault

def write (t : FileTree) (here : List String) (path text : String) : Except FileFault FileTree := do
  match t.locate here path with
  | .ok names =>
    match t.find? names with
    | some (.file _) => return t.put names (.file text)
    | _ => throw .isADirectory
  | .error .notFound => t.place (← pathSegments path) (startOf here path) (.file text)
  | .error fault => throw fault

/-! ### Contents -/

mutual

/-- All files with their paths; `above` is the path so far, with its slash. -/
def filesBelow (above : String) : FileTree → List (String × String)
  | .file _ => []
  | .dir entries => filesIn above entries

def filesIn (above : String) : List (String × FileTree) → List (String × String)
  | [] => []
  | (name, .file text) :: es => (above ++ name, text) :: filesIn above es
  | (name, .dir entries) :: es => filesBelow (above ++ name ++ "/") (.dir entries) ++ filesIn above es

end

def files (t : FileTree) : List (String × String) := filesBelow "" t

def ofFiles (files : List (String × String)) : FileTree :=
  files.foldl (fun t f => t.put ((Path.segments f.1).filter (!Path.isIdle ·)) (.file f.2)) empty

/-- Files that are new or have another text, in the order of their paths. -/
def changes (before after : FileTree) : List (String × String) :=
  let old := before.files
  (after.files.filter fun f => Fields.get? old f.1 != some f.2).mergeSort fun a b => !(b.1 < a.1)

end FileTree

/-- Files, the directory in which commands run, and what they have printed. -/
structure World where
  files : FileTree
  here : List String
  printed : String := ""
  reported : String := ""

namespace World

/-- A directory of its own with the given files. -/
def ofFiles (files : List (String × String)) : World :=
  let here := ["work"]
  ⟨FileTree.empty.put here (FileTree.ofFiles files), here, "", ""⟩

/-- The files around which commands run. -/
def nearFiles (w : World) : FileTree := (w.files.find? w.here).getD FileTree.empty

/-- Files below the directory of the commands that are new or have another text. -/
def changes (before after : World) : List (String × String) :=
  before.nearFiles.changes after.nearFiles

/-- Runs an operation that may change the files. -/
def update (op : FileTree → List String → Except FileFault FileTree) :
    StateM World (Except FileFault Unit) := do
  let w ← get
  match op w.files w.here with
  | .ok files =>
    set { w with files }
    return .ok ()
  | .error fault => return .error fault

/-- What is at a path. -/
def seen (path : String) : StateM World (Option FileTree) := do
  let w ← get
  return w.files.at? w.here path

def host : Host (StateM World) where
  read path := do
    let w ← get
    return w.files.read w.here path
  write path text := update fun files here => files.write here path text
  makeDir path := update fun files here => files.makeDir here path
  isDir path := return ((← seen path).map FileTree.isDirectory).getD false
  isThere path := return (← seen path).isSome
  names path := return ((← seen path).map FileTree.entryNames).getD []
  print text := modify fun w => { w with printed := w.printed ++ text }
  report text := modify fun w => { w with reported := w.reported ++ text }

end World

end Wireform.Command
