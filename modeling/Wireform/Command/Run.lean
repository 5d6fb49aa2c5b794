import Wireform.Command.Arguments
import Wireform.Command.Glob
import Wireform.Command.Order
import Wireform.Emit.Printer
import Wireform.Json.Printer
import Wireform.Schema
import Wireform.Source.Compile

/-!
# Running a command

Sources are found, read, ordered by their imports and compiled; then schemas or source files are
generated, or a document is checked.
-/

namespace Wireform.Command

variable {m : Type → Type} [Monad m]

abbrev Task (m : Type → Type) := ExceptT Failure m

def failWith {α : Type} (cause : Cause) : Task m α := throw (.of cause)

def during {α : Type} (d : Doing) (task : Task m α) : Task m α :=
  tryCatch task fun f => throw (f.during d)

def ofFile {α : Type} (op : m (Except FileFault α)) : Task m α := do
  match ← ExceptT.lift op with
  | .ok a => return a
  | .error fault => failWith (.file fault)

def ofSource {α : Type} : Except SourceError α → Task m α
  | .ok a => return a
  | .error e => failWith (.source e)

def ofCodec {α : Type} : Except CodecError α → Task m α
  | .ok a => return a
  | .error e => failWith (.codec e)

/-! ### Sources -/

/-- The argument is a pattern and not a path. -/
def isPattern (input : String) : Bool := input.toList.any fun c => ['*', '?', '[', '\x7b'].contains c

def pathsOf (h : Host m) (input : String) : Task m (List String) := do
  if isPattern input then
    match Glob.ofText? input with
    | none => failWith .badPattern
    | some glob =>
      let paths ← ExceptT.lift (glob.paths h)
      if paths.isEmpty then failWith (.noMatch input)
      return paths
  else return [input]

def readSource (h : Host m) (sources : Sources) (path : String) : Task m Sources := do
  let text ← during (.readingSource path) (ofFile (h.read path))
  let (name, imports) ← during (.readingHeader path) (ofSource (Source.header text))
  match sources.get? name with
  | some first => failWith (.definedTwice name first.path path)
  | none => return sources ++ [(name, ⟨path, text, imports⟩)]

def compileSource (sources : Sources) (modules : Fields Module) (name : String) :
    Task m (Fields Module) := do
  match sources.get? name with
  | none => failWith (.missingImport name)
  | some unit =>
    let compiled ← during (.compiling unit.path) (ofSource (Source.compile modules unit.text))
    return modules.insert name compiled

/-- Every input compiled, imports before importers. -/
def loadModules (h : Host m) (inputs : List String) : Task m (Fields Module) := do
  let paths ← during .resolvingInputs (inputs.mapM (pathsOf h))
  let sources ← paths.flatten.foldlM (readSource h) []
  let order ← (match importOrder sources with
    | .ok order => return order
    | .error f => throw f : Task m (List String))
  order.foldlM (compileSource sources) []

/-! ### Generating -/

/-- The file of a module and its text. -/
def Target.output (target : Target) (compiled : Module) : String × String :=
  match target with
  | .schema => (Schema.fileName compiled, (Schema.ofModule compiled).pretty)
  | .source => (Emit.fileName compiled, Emit.text compiled)

def deliver (h : Host m) (out : Option String) (name text : String) : Task m Unit := do
  match out with
  | none => ExceptT.lift (h.print (text ++ "\n"))
  | some dir =>
    during (.creating dir) (ofFile (h.makeDirs dir))
    let path := Path.join dir name
    during (.writing path) (ofFile (h.write path text))

def generate (h : Host m) (target : Target) (out : Option String) (modules : Fields Module) :
    Task m Unit :=
  modules.forM fun (_, compiled) =>
    let (name, text) := target.output compiled
    deliver h out name text

/-! ### Checking -/

def decodeOrReport (h : Host m) (c : Codec) (path : String) (t : Ty) (j : Json) : Task m Value := do
  match c.decode t j with
  | .ok v => return v
  | .error e =>
    ExceptT.lift (h.report ("✗ " ++ path ++ ": " ++ e.message ++ "\n"))
    during .decoding (failWith (.codec e))

/-- Reads a document at a type, writes it again and compares. -/
def check (h : Host m) (maxDepth : Nat) (spec : CheckSpec) (modules : Fields Module) :
    Task m Unit := do
  match modules.get? spec.module with
  | none => failWith (.missingModule spec.module)
  | some scope =>
    let text ← during (.readingDocument spec.json) (ofFile (h.read spec.json))
    let document ← during (.parsingDocument spec.json) (ofCodec (Codec.parse text))
    let c : Codec := ⟨scope, maxDepth⟩
    let t ← ofCodec (c.named spec.type)
    let v ← decodeOrReport h c spec.json t document
    let encoded ← ofCodec (c.encodeAs t v)
    if encoded.same document then
      ExceptT.lift (h.report ("✓ " ++ spec.json ++ " is a `" ++ spec.type ++ "`\n"))
    else
      ExceptT.lift (h.report ("✗ " ++ spec.json ++ " decodes as `" ++ spec.type ++
        "` but re-encodes differently\n" ++ encoded.pretty ++ "\n"))
      failWith (.notExact spec.json)

def run (h : Host m) (inv : Invocation) : Task m Unit := do
  let modules ← loadModules h inv.inputs
  match inv.action with
  | .generate target out => generate h target out modules
  | .check spec => check h inv.maxDepth spec modules

end Wireform.Command
