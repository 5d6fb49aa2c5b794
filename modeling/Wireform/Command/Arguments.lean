import Wireform.Codec.Basic

/-!
# Command-line arguments

A command word with its options. Options of the whole program may stand on either side of the
command word; there, the ones after it count. An option keeps its values until the next option, so
that what is wrong with them shows only then.
-/

namespace Wireform.Command

/-- Why there is no command to run. -/
inductive Usage where
  | help
  | version
  | invalid
deriving DecidableEq

def Usage.exitCode : Usage → Nat
  | .help => 0
  | .version => 0
  | .invalid => 2

/-- What is generated. -/
inductive Target where
  | schema
  | source
deriving DecidableEq

structure CheckSpec where
  module : String
  type : String
  json : String

inductive Action where
  /-- Into a directory, or printed. -/
  | generate (target : Target) (out : Option String)
  | check (spec : CheckSpec)

structure Invocation where
  maxDepth : Nat
  /-- Paths and patterns of sources. -/
  inputs : List String
  action : Action

/-! ### Options -/

inductive Opt where
  | help | version | verbose | maxDepth | input | out | module | type | json
deriving DecidableEq

namespace Opt

def long : Opt → String
  | .help => "help"
  | .version => "version"
  | .verbose => "verbose"
  | .maxDepth => "max-depth"
  | .input => "input"
  | .out => "out"
  | .module => "module"
  | .type => "type"
  | .json => "json"

def short? : Opt → Option Char
  | .help => some 'h'
  | .version => some 'V'
  | .verbose => some 'v'
  | .input => some 'i'
  | .out => some 'o'
  | _ => none

def takesValue : Opt → Bool
  | .help | .version | .verbose => false
  | _ => true

/-- May be given again, and takes as many values as there are. -/
def isOpen (o : Opt) : Bool := o == .input

/-- Digits with an optional plus sign, up to 64 bits. -/
def depth? (text : String) : Option Nat :=
  let digits := match text.toList with
    | '+' :: cs => cs
    | cs => cs
  (Text.natural? digits).bind fun n => if n < 0x10000000000000000 then some n else none

/-- Paths are not empty, depths are numbers. -/
def admits (value : String) : Opt → Bool
  | .maxDepth => (depth? value).isSome
  | .out | .json => value != ""
  | _ => true

end Opt

/-- The command words. -/
inductive Word where
  | schema | source | check | help
deriving DecidableEq

def Word.ofText? : String → Option Word
  | "schema" => some .schema
  | "rust" => some .source
  | "check" => some .check
  | "help" => some .help
  | _ => none

/-- Options before the command word. -/
def programOpts : List Opt := [.help, .version, .verbose, .maxDepth]

/-- Options after it. -/
def Word.opts : Word → List Opt
  | .schema | .source => [.help, .verbose, .maxDepth, .input, .out]
  | .check => [.help, .verbose, .maxDepth, .input, .module, .type, .json]
  | .help => []

/-! ### One side of the command word -/

/-- Options with their values, and the option that still collects them. -/
structure Gathered where
  settled : List (Opt × List String) := []
  pending : Option (Opt × List String) := none

namespace Gathered

def isGiven (g : Gathered) (o : Opt) : Bool := g.settled.any (·.1 == o)

/-- All values of an option. -/
def values (g : Gathered) (o : Opt) : List String :=
  (g.settled.filter (·.1 == o)).flatMap Prod.snd

def value? (g : Gathered) (o : Opt) : Option String := (g.values o).head?

/-- Accepts an option with its values. -/
def accept (g : Gathered) (o : Opt) (vals : List String) : Except Usage Gathered :=
  if vals.isEmpty || !vals.all (o.admits ·) || (!o.isOpen && g.isGiven o) then .error .invalid
  else .ok { g with settled := g.settled ++ [(o, vals)] }

/-- Accepts what is pending. -/
def settle (g : Gathered) : Except Usage Gathered :=
  match g.pending with
  | none => .ok g
  | some (o, vals) => ({ g with pending := none } : Gathered).accept o vals

/-- The next plain argument is a value. -/
def collects (g : Gathered) : Bool :=
  match g.pending with
  | none => false
  | some (o, vals) => o.isOpen || vals.isEmpty

def collect (g : Gathered) (value : String) : Gathered :=
  { g with pending := g.pending.map fun (o, vals) => (o, vals ++ [value]) }

def flag (g : Gathered) (o : Opt) : Except Usage Gathered := do
  let g ← g.settle
  match o with
  | .help => .error .help
  | .version => .error .version
  | _ => .ok g

/-- An option, with the value that is attached to it if there is one. -/
def option (g : Gathered) (o : Opt) (attached : Option String) : Except Usage Gathered := do
  let g ← g.settle
  match attached with
  | some value => g.accept o [value]
  | none => .ok { g with pending := some (o, []) }

/-- `--name` or `--name=value`, without the hyphens. -/
def long (opts : List Opt) (g : Gathered) (cs : List Char) : Except Usage Gathered :=
  let name := String.ofList (cs.takeWhile (· != '='))
  let attached := match cs.dropWhile (· != '=') with
    | [] => none
    | _ :: value => some (String.ofList value)
  match opts.find? (·.long == name) with
  | none => .error .invalid
  | some o =>
    if o.takesValue then g.option o attached
    else if attached.isSome then .error .invalid
    else g.flag o

/-- Letters after one hyphen: flags, then perhaps an option with its value attached, with or
without an equals sign. -/
def shorts (opts : List Opt) : List Char → Gathered → Except Usage Gathered
  | [], g => .ok g
  | c :: cs, g =>
    match opts.find? (·.short? == some c) with
    | none => .error .invalid
    | some o =>
      if o.takesValue then
        g.option o (match cs with
          | [] => none
          | '=' :: value => some (String.ofList value)
          | value => some (String.ofList value))
      else
        match g.flag o with
        | .ok g => shorts opts cs g
        | .error u => .error u

/-- What kind of argument it is. -/
inductive Shape where
  | escape
  | long (cs : List Char)
  | shorts (cs : List Char)
  | plain

def shapeOf (arg : String) : Shape :=
  match arg.toList with
  | ['-', '-'] => .escape
  | '-' :: '-' :: cs => .long cs
  | '-' :: c :: cs => .shorts (c :: cs)
  | _ => .plain

/-- Options up to the first plain argument that is no value, or to the end. After `--` nothing is an
option. -/
def gather (opts : List Opt) : List String → Gathered → Except Usage (Gathered × List String)
  | [], g => .ok (g, [])
  | arg :: args, g =>
    match shapeOf arg with
    | .escape => if args.isEmpty then .ok (g, []) else .error .invalid
    | .long cs =>
      match g.long opts cs with
      | .ok g => gather opts args g
      | .error u => .error u
    | .shorts cs =>
      match g.shorts opts cs with
      | .ok g => gather opts args g
      | .error u => .error u
    | .plain => if g.collects then gather opts args (g.collect arg) else .ok (g, arg :: args)

end Gathered

/-! ### Both sides -/

def required {α : Type} : Option α → Except Usage α
  | some a => .ok a
  | none => .error .invalid

def actionOf (g : Gathered) : Word → Except Usage Action
  | .schema => .ok (.generate .schema (g.value? .out))
  | .source => .ok (.generate .source (g.value? .out))
  | .check => do
    return .check ⟨← required (g.value? .module), ← required (g.value? .type),
      ← required (g.value? .json)⟩
  | .help => .error .help

/-- The arguments after the command word. -/
def parseWord (word : Word) (args : List String) : Except Usage (Gathered × Action) := do
  let (g, rest) ← Gathered.gather word.opts args {}
  unless rest.isEmpty do throw .invalid
  let g ← g.settle
  unless g.isGiven .input do throw .invalid
  return (g, ← actionOf g word)

/-- Help on the program or on one command word. -/
def helpOn : List String → Usage
  | [] => .help
  | [word] => if (Word.ofText? word).isSome then .help else .invalid
  | _ => .invalid

/-- What stands before the command word is looked at after the rest. -/
def parseArguments (args : List String) : Except Usage Invocation := do
  let (outer, rest) ← Gathered.gather programOpts args {}
  match rest with
  | [] => throw .invalid
  | word :: rest =>
    match ← required (Word.ofText? word) with
    | .help => throw (helpOn rest)
    | word =>
      let (inner, action) ← parseWord word rest
      let outer ← outer.settle
      let depth := ((inner.value? .maxDepth).or (outer.value? .maxDepth)).bind Opt.depth?
      return ⟨depth.getD defaultMaxDepth, inner.values .input, action⟩

end Wireform.Command
