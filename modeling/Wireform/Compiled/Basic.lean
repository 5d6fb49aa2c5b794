import Wireform.Codec.Decode
import Wireform.Codec.Basic

/-!
# Compiled types

Types that a program fixes when it is compiled, as generated source does, and how they are read.
The wire format is the one of the codec, but the checks come in another order: the shape of a
document is looked at before its depth is counted. A compiled value carries its shape, so writing
and comparing need no type.
-/

namespace Wireform

namespace Compiled

inductive CTy where
  | prim (p : Prim)
  | optional (t : CTy)
  | list (t : CTy)
  | object (t : CTy)
  | map (k v : CTy)
  | tuple (elems : List CTy)
  /-- A declared type by its qualified name. -/
  | named (path : String)

instance : Inhabited CTy := ⟨.prim .i32⟩

/-- What a qualified name stands for. -/
inductive CDecl where
  | struct (name : String) (fields : Fields CTy)
  /-- One tag of the sum `parent`. -/
  | variant (parent tag : String) (fields : Fields CTy)
  /-- The tags of a sum and their fields. -/
  | sum (name : String) (variants : Fields (Fields CTy))
  /-- A wrapper around another type, a level of depth of its own. -/
  | wrapper (name : String) (t : CTy)

def CDecl.name : CDecl → String
  | .struct name _ => name
  | .variant _ tag _ => tag
  | .sum name _ => name
  | .wrapper name _ => name

/-- Declarations by qualified name. -/
abbrev Env := Fields CDecl

mutual

/-- What messages call a type. -/
def CTy.expected (env : Env) : CTy → String
  | .prim p => p.name
  | .optional t => "Optional(" ++ t.expected env ++ ")"
  | .list t => "List(" ++ t.expected env ++ ")"
  | .object t => "Object(" ++ t.expected env ++ ")"
  | .map k v => "Map(" ++ k.expected env ++ ", " ++ v.expected env ++ ")"
  | .tuple elems => "(" ++ ", ".intercalate (expectedAll env elems) ++ ")"
  | .named path =>
    match env.get? path with
    | some decl => decl.name
    | none => path

def expectedAll (env : Env) : List CTy → List String
  | [] => []
  | t :: ts => t.expected env :: expectedAll env ts

end

abbrev Reader := CTy → Json → Except CodecError Value

/-- The declared fields of an object whose names were checked before. -/
def readFields (read : Reader) (fields : Fields CTy) (props : Fields Json) :
    Except CodecError (Fields Value) :=
  fields.mapM fun (name, t) => do return (name, ← read t (← Codec.field props name))

/-- An object with exactly the declared names, then one level deeper. -/
def readRecord (deeper : Except CodecError Reader) (context : String) (tagged : Bool)
    (fields : Fields CTy) (j : Json) : Except CodecError (Fields Value) := do
  let props ← Codec.expectRecord j context tagged fields.keys
  readFields (← deeper) fields props

/-- One entry of a map; the identity of its key is known before the value is read. -/
def readEntry (read : Reader) (k v : CTy) (j : Json) :
    Except CodecError (String × Value × Value) := do
  let props ← Codec.expectRecord j "map entry" false ["key", "value"]
  let key ← read k (← Codec.field props "key")
  let identity := Codec.keyIdentity (← Codec.encode key)
  let value ← read v (← Codec.field props "value")
  return (identity, key, value)

def readVariant (deeper : Except CodecError Reader) (parent tag : String) (fields : Fields CTy)
    (j : Json) : Except CodecError Value := do
  Codec.expectTag j parent tag
  return .variant tag (← readRecord deeper tag true fields j)

def readDecl (deeper : Except CodecError Reader) (decl : CDecl) (j : Json) :
    Except CodecError Value :=
  match decl with
  | .struct name fields => return .record (← readRecord deeper name false fields j)
  | .variant parent tag fields => readVariant deeper parent tag fields j
  | .sum name variants => do
    let tag ← Codec.tagOf j name
    match variants.get? tag with
    | some fields => readVariant deeper name tag fields j
    | none => throw (.unknownTag name tag)
  | .wrapper _ t => do (← deeper) t j

/-- Reads at the level at hand; the parts of containers go one level `deeper`. -/
def descend (env : Env) (deeper : Except CodecError Reader) :
    CTy → Json → Except CodecError Value
  | .prim p, j => Codec.readScalar p j
  | .optional _, .null => .ok .absent
  | .optional t, j => return .present (← descend env deeper t j)
  | .list t, .arr items => do return .list (← items.mapM ((← deeper) t))
  | .object t, .obj props => do
    let read ← deeper
    return .object (← props.mapM fun (k, j) => return (k, ← read t j))
  | .map k v, .arr items => do
    let read ← deeper
    return .map (Codec.collectEntries (← items.mapM (readEntry read k v)))
  | .tuple elems, j =>
    return .record (← readRecord deeper ((CTy.tuple elems).expected env) false
      (elems.mapIdx fun i t => (ordinalName i, t)) j)
  | .named path, j =>
    match env.get? path with
    | some decl => readDecl deeper decl j
    | none => .error (.unknownType path)
  | t, j => .error (.conversion (t.expected env) j)

/-- Reads with `room` more levels; `limit` is what the error names. -/
def readWithin (env : Env) (limit : Nat) : Nat → CTy → Json → Except CodecError Value
  | 0, t, j => descend env (.error (.depthLimit limit)) t j
  | room + 1, t, j => descend env (.ok (readWithin env limit room)) t j

def read (env : Env) (limit : Nat) (t : CTy) (j : Json) : Except CodecError Value :=
  readWithin env limit limit t j

theorem readWithin_prim (env : Env) (limit room : Nat) (p : Prim) (j : Json) :
    readWithin env limit room (.prim p) j = Codec.readScalar p j := by
  cases room <;> rw [readWithin, descend]

theorem readWithin_null (env : Env) (limit room : Nat) (t : CTy) :
    readWithin env limit room (.optional t) .null = .ok .absent := by
  cases room <;> rw [readWithin, descend]

theorem readWithin_optional (env : Env) (limit room : Nat) (t : CTy) {j : Json} (h : j ≠ .null) :
    readWithin env limit room (.optional t) j = do
      return .present (← readWithin env limit room t j) := by
  cases room <;> (rw [readWithin, readWithin, descend]; exact h)

end Compiled

end Wireform
