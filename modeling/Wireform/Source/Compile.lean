import Wireform.Source.Parser
import Wireform.Source.Resolve

/-!
# Compiling declarations

One declaration at a time into a draft, or a whole file into a module. All names of a file are
reserved before any body is resolved, so its declarations may refer to each other in any order.
-/

namespace Wireform

namespace Source

/-- The name of a module and the names of its imports. -/
def header (src : String) : Except SourceError (String × List String) := runOn parseHeader src

def importInto (available : Fields Module) (d : Draft) (name : String) :
    Except SourceError Draft :=
  match available.get? name with
  | some m => d.addImport m
  | none => .error (.unknownImport name)

def compileFile (available : Fields Module) (file : SourceFile) : Except SourceError Module := do
  let d ← file.imports.foldlM (importInto available) (Draft.new file.name)
  let d ← file.decls.foldlM reserveNames d
  let d ← file.decls.foldlM defineDecl d
  d.finish

def compile (available : Fields Module) (src : String) : Except SourceError Module := do
  compileFile available (← runOn parseFile src)

end Source

namespace Draft

/-- Compiles one declaration into the draft and tells its name. -/
def declare (d : Draft) (src : String) : Except SourceError (String × Draft) := do
  let decl ← Source.runOn Source.parseSingle src
  let d ← Source.reserveNames d decl
  return (decl.name, ← Source.defineDecl d decl)

/-! ### In place -/

/-- A failed edit keeps what it has changed so far. -/
abbrev Editing := EStateM SourceError Draft

def editing (change : Draft → Except SourceError Draft) : Editing Unit := do
  match change (← get) with
  | .ok d => set d
  | .error e => throw e

/-- Drops all slots but the first ones. -/
def rollback (d : Draft) (mark : Nat) : Draft := { d with slots := d.slots.take mark }

/-- After a failure the slots that the edit has made on the way are dropped. -/
def undoing (edit : Editing Unit) : Editing Unit := do
  let mark := (← get).slots.length
  try edit
  catch e =>
    modify (·.rollback mark)
    throw e

/-- Reserves the names of a declaration and fills their slots, one after the other. -/
def adding (decl : Source.DeclExpr) : Editing Unit := do
  decl.names.forM fun name => editing (Source.reserveName · name)
  let bodies ← ofExcept (Source.resolveDecl (← get) decl)
  bodies.forM fun body => editing (·.define body.1 body.2)

/-- Compiles one declaration into the draft, or leaves it as it was, and tells the name. -/
def declaring (src : String) : Editing String := do
  let decl ← ofExcept (Source.runOn Source.parseSingle src)
  undoing (adding decl)
  return decl.name

end Draft

end Wireform
