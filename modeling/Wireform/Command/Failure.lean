import Wireform.Codec.Error
import Wireform.Source.Error

/-!
# Why a command fails

A failure is a cause and what was being done when it arose, outermost first.
-/

namespace Wireform.Command

/-- What a file operation can run into. -/
inductive FileFault where
  | notFound
  | alreadyExists
  | notADirectory
  | isADirectory
  | nameTooLong
  /-- A path with a null character. -/
  | nullInPath
  | other (text : String)
deriving DecidableEq

def FileFault.message : FileFault → String
  | .notFound => "No such file or directory (os error 2)"
  | .alreadyExists => "File exists (os error 17)"
  | .notADirectory => "Not a directory (os error 20)"
  | .isADirectory => "Is a directory (os error 21)"
  | .nameTooLong => "File name too long (os error 36)"
  | .nullInPath => "file name contained an unexpected NUL byte"
  | .other text => text

inductive Cause where
  | file (fault : FileFault)
  /-- A glob pattern that is not well-formed. -/
  | badPattern
  | noMatch (pattern : String)
  | definedTwice (name first second : String)
  /-- Modules that import each other, the first one again at the end. -/
  | importCycle (names : List String)
  | missingImport (name : String)
  | source (e : SourceError)
  | codec (e : CodecError)
  | missingModule (name : String)
  /-- The document is written differently from how it was read. -/
  | notExact (path : String)

def Cause.message : Cause → String
  | .file fault => fault.message
  | .badPattern => "invalid glob pattern"
  | .noMatch pattern => "glob pattern matched no files: " ++ pattern
  | .definedTwice name first second =>
    "module `" ++ name ++ "` is defined by both " ++ first ++ " and " ++ second
  | .importCycle names => "import cycle: " ++ " -> ".intercalate names
  | .missingImport name => "module `" ++ name ++ "` is imported but not among the inputs"
  | .source e => e.message
  | .codec e => e.message
  | .missingModule name => "module `" ++ name ++ "` is not among the inputs"
  | .notExact path => "round trip of " ++ path ++ " is not exact"

/-- What was being done. -/
inductive Doing where
  | resolvingInputs
  | readingSource (path : String)
  | readingHeader (path : String)
  | importedBy (path : String)
  | compiling (path : String)
  | readingDocument (path : String)
  | parsingDocument (path : String)
  | decoding
  | creating (path : String)
  | writing (path : String)

def Doing.message : Doing → String
  | .resolvingInputs => "failed to resolve input file paths"
  | .readingSource path => "failed to read source file " ++ path
  | .readingHeader path => "bad module header in " ++ path
  | .importedBy path => "imported by " ++ path
  | .compiling path => "failed to compile " ++ path
  | .readingDocument path => "failed to read " ++ path
  | .parsingDocument path => "failed to parse JSON file " ++ path
  | .decoding => "decode failed"
  | .creating path => "failed to create " ++ path
  | .writing path => "failed to write " ++ path

structure Failure where
  doing : List Doing
  cause : Cause

namespace Failure

def of (cause : Cause) : Failure := ⟨[], cause⟩

/-- The same failure, seen from one step further out. -/
def during (d : Doing) (f : Failure) : Failure := { f with doing := d :: f.doing }

/-- Outermost first, the cause last. -/
def messages (f : Failure) : List String := f.doing.map Doing.message ++ [f.cause.message]

/-- The causes below the outermost message, numbered if there are several. -/
def causeLines : List String → List String
  | [] => []
  | [cause] => ["", "Caused by:", "    " ++ cause]
  | causes =>
    ["", "Caused by:"] ++ causes.mapIdx fun i cause => "    " ++ Text.ofNat i ++ ": " ++ cause

def report (f : Failure) : String :=
  match f.messages with
  | [] => ""
  | outermost :: causes =>
    String.join ((("Error: " ++ outermost) :: causeLines causes).map (· ++ "\n"))

end Failure

end Wireform.Command
