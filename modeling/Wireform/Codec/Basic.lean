import Wireform.Codec.Decode
import Wireform.Codec.Equal
import Wireform.Json.Parser

/-!
# The codec of a module

Reading, writing and comparing at the types of one module.
-/

namespace Wireform

def defaultMaxDepth : Nat := 128

structure Codec where
  /-- The module in which types are looked up. -/
  scope : Module
  /-- Levels of containers and references that a read will follow. -/
  maxDepth : Nat := defaultMaxDepth

namespace Codec

def parse (text : String) : Except CodecError Json :=
  match Json.parse? text with
  | some j => .ok j
  | none => .error .notJson

def decode (c : Codec) (t : Ty) (j : Json) : Except CodecError Value :=
  readWithin c.maxDepth c.maxDepth c.scope t j

def decodeText (c : Codec) (t : Ty) (text : String) : Except CodecError Value := do
  c.decode t (← parse text)

/-- The type that `Name` or `import.Name` stands for. -/
def named (c : Codec) (path : String) : Except CodecError Ty :=
  match c.scope.lookup? path with
  | some r => .ok (.ref r)
  | none => .error (.unknownType path)

def decodeNamed (c : Codec) (path : String) (j : Json) : Except CodecError Value := do
  c.decode (← c.named path) j

def encodeAs (c : Codec) (t : Ty) (v : Value) : Except CodecError Json :=
  writeAs v c.scope t

def equals (c : Codec) (t : Ty) (a b : Value) : Bool := equalAs a c.scope t b

end Codec

end Wireform
