/-!
# Paths

Texts with slashes between names. Nothing here looks at files: a path is cut into its segments or
put together from them.
-/

namespace Wireform.Command

def splitAtSlashes : List Char → List (List Char)
  | [] => [[]]
  | c :: cs =>
    match splitAtSlashes cs with
    | [] => [[c]]
    | s :: ss => if c = '/' then [] :: s :: ss else (c :: s) :: ss

namespace Path

def segments (path : String) : List String := (splitAtSlashes path.toList).map String.ofList

def isAbsolute (path : String) : Bool := path.startsWith "/"

/-- A segment that leads nowhere else. -/
def isIdle (segment : String) : Bool := segment == "" || segment == "."

/-- The path is the current directory, however many points it is written with. -/
def isHere (path : String) : Bool := path.startsWith "." && (segments path).all isIdle

/-- A path below another one. -/
def join (dir name : String) : String :=
  if dir.endsWith "/" then dir ++ name else dir ++ "/" ++ name

/-- Paths below the current directory do not mention it. -/
def below (dir name : String) : String := if isHere dir then name else join dir name

def lastName (path : String) : String := (segments path).getLastD ""

end Path

end Wireform.Command
