import Wireform.Command.Host

/-!
# Glob patterns

`*` stands for any characters, `?` for one, `[..]` for one of a set and `[!..]` for one outside it;
none of them crosses a slash. A segment `**` stands for any number of directories. Matches come in
the order of their names, directory by directory.
-/

namespace Wireform.Command

/-! ### Segments -/

/-- A part of a character set; both ends belong to it. -/
structure CharRange where
  low : Char
  high : Char
deriving DecidableEq

inductive GlobToken where
  | char (c : Char)
  | anyChar
  | anyChars
  | oneOf (ranges : List CharRange)
  | noneOf (ranges : List CharRange)
deriving DecidableEq

def CharRange.contains (r : CharRange) (c : Char) : Bool := r.low ≤ c && c ≤ r.high

/-- Tokens that stand for exactly one character. -/
def GlobToken.accepts (c : Char) : GlobToken → Bool
  | .char d => c == d
  | .anyChar => true
  | .anyChars => false
  | .oneOf ranges => ranges.any (·.contains c)
  | .noneOf ranges => !ranges.any (·.contains c)

/-- How a pattern fares with a text. -/
inductive GlobOutcome where
  | fits
  | differs
  /-- The text ended before the pattern did, as every later part of it would. -/
  | tooShort
deriving DecidableEq

/-- The first suffix that decides. -/
def firstSuffix (p : List Char → GlobOutcome) : List Char → GlobOutcome
  | [] => p []
  | c :: cs =>
    match p (c :: cs) with
    | .differs => firstSuffix p cs
    | outcome => outcome

def globOutcome : List GlobToken → List Char → GlobOutcome
  | [], [] => .fits
  | [], _ :: _ => .differs
  | .anyChars :: ts, cs => firstSuffix (globOutcome ts) cs
  | _ :: _, [] => .tooShort
  | t :: ts, c :: cs => if t.accepts c then globOutcome ts cs else .differs

def globMatches (ts : List GlobToken) (cs : List Char) : Bool := globOutcome ts cs == .fits

/-- `a-z` is a range; a hyphen at either end stands for itself. -/
def charRanges : List Char → List CharRange
  | low :: '-' :: high :: cs => ⟨low, high⟩ :: charRanges cs
  | c :: cs => ⟨c, c⟩ :: charRanges cs
  | [] => []

/-- The characters of a set and what follows its closing bracket. The first character belongs to
the set even if it is a bracket. -/
def charSet? : List Char → Option (List Char × List Char)
  | [] => none
  | c :: cs =>
    match cs.dropWhile (· != ']') with
    | [] => none
    | _ :: rest => some (c :: cs.takeWhile (· != ']'), rest)

/-- Tokens of one segment; a second star in a row has no meaning here. -/
def globTokens : Nat → List Char → Option (List GlobToken)
  | _, [] => some []
  | 0, _ :: _ => none
  | _ + 1, '*' :: '*' :: _ => none
  | fuel + 1, '*' :: cs => (globTokens fuel cs).map (.anyChars :: ·)
  | fuel + 1, '?' :: cs => (globTokens fuel cs).map (.anyChar :: ·)
  | fuel + 1, '[' :: '!' :: cs => do
    let (set, rest) ← charSet? cs
    return .noneOf (charRanges set) :: (← globTokens fuel rest)
  | fuel + 1, '[' :: cs => do
    let (set, rest) ← charSet? cs
    return .oneOf (charRanges set) :: (← globTokens fuel rest)
  | fuel + 1, c :: cs => (globTokens fuel cs).map (.char c :: ·)

/-- What stands between two slashes of a pattern. -/
inductive Segment where
  | literal (name : String)
  | wild (tokens : List GlobToken)
  /-- Any number of directories. -/
  | directories

namespace Segment

/-- The name that a pattern without wildcards is. -/
def literalName? (tokens : List GlobToken) : Option (List Char) :=
  tokens.mapM fun
    | .char c => some c
    | _ => none

def ofChars? (cs : List Char) : Option Segment :=
  if cs = ['*', '*'] then some .directories
  else
    (globTokens cs.length cs).map fun tokens =>
      match literalName? tokens with
      | some name => .literal (String.ofList name)
      | none => .wild tokens

def accepts (name : String) : Segment → Bool
  | .literal s => s == name
  | .wild tokens => globMatches tokens name.toList
  | .directories => true

/-- The entries `..` and `.` of a directory, which only a pattern with a leading point means. -/
def pointNames : Segment → List String
  | .wild (.char '.' :: ts) =>
    ["..", "."].filter fun s => globMatches (.char '.' :: ts) s.toList
  | _ => []

end Segment

/-! ### Patterns -/

structure Glob where
  absolute : Bool
  segments : List Segment
  /-- The pattern ends with a slash. -/
  dirsOnly : Bool

namespace Glob

/-- Adjacent `**` are one. -/
def collapse : List Segment → List Segment
  | .directories :: .directories :: ss => collapse (.directories :: ss)
  | s :: ss => s :: collapse ss
  | [] => []

def ofText? (text : String) : Option Glob := do
  let cs := text.toList
  let absolute := cs.head? == some '/'
  let dirsOnly := cs.getLast? == some '/'
  let parts := splitAtSlashes (if absolute then cs.tail else cs)
  let parts := if dirsOnly then parts.dropLast else parts
  return ⟨absolute, collapse (← parts.mapM Segment.ofChars?), dirsOnly⟩

end Glob

/-! ### Matching paths -/

variable {m : Type → Type} [Monad m]

def sortedNames (names : List String) : List String :=
  names.mergeSort fun a b => !(b < a)

/-- Directories below each other that are followed; no path is longer. -/
def maxDirLevels : Nat := 4096

/-- Everything below a directory, each directory before its contents. -/
def everythingBelow (h : Host m) : Nat → String → m (List String)
  | 0, _ => return []
  | levels + 1, dir => do
    if ← h.isDir dir then
      let found ← (sortedNames (← h.names dir)).mapM fun name => do
        let path := Path.below dir name
        return path :: (← everythingBelow h levels path)
      return found.flatten
    else return []

def matchingPaths (h : Host m) (dirsOnly : Bool) : List Segment → String → m (List String)
  | [], path => do
    if dirsOnly then
      if ← h.isDir path then return [path] else return []
    else return [path]
  | .literal name :: rest, dir => do
    let path := Path.below dir name
    let there ← if name = "." || name = ".." then h.isDir dir else h.isThere path
    if there then matchingPaths h dirsOnly rest path else return []
  | .wild tokens :: rest, dir => do
    if ← h.isDir dir then
      let points := (Segment.wild tokens).pointNames.map (Path.join dir)
      let names := (sortedNames (← h.names dir)).filter (Segment.wild tokens).accepts
      let found ← (points ++ names.map (Path.below dir)).mapM (matchingPaths h dirsOnly rest)
      return found.flatten
    else return []
  | [.directories], dir => do (← everythingBelow h maxDirLevels dir).filterM h.isDir
  | .directories :: next :: rest, dir => do
    let below := (← everythingBelow h maxDirLevels dir).filter fun path => next.accepts (Path.lastName path)
    let found ← below.mapM (matchingPaths h dirsOnly rest)
    return found.flatten

/-- The paths that a pattern stands for. -/
def Glob.paths (h : Host m) (g : Glob) : m (List String) :=
  matchingPaths h g.dirsOnly g.segments (if g.absolute then "/" else ".")

end Wireform.Command
