import Wireform.Codec.Encode
import Wireform.Codec.Identity
import Wireform.OrderedMap

/-!
# Reading documents

Every container and every reference is one level of depth; scalars, documentation and optionals
are free. A level is entered before the shape of the document is looked at. Reading is defined level
by level: the reader at one level is built from the reader at the level below, or from the error
that the limit is reached.
-/

namespace Wireform.Codec

/-- How a document is read at a type of a module. -/
abbrev Reader := Module → Ty → Json → Except CodecError Value

/-- Exactly the declared fields, in declared order. -/
def readFields (read : Ty → Json → Except CodecError Value) (context : String)
    (fields : Fields Ty) (tagged : Bool) (j : Json) : Except CodecError (Fields Value) := do
  let props ← expectRecord j context tagged fields.keys
  let values ← fields.mapM fun (name, t) => do
    return (name, ← read t (← field props name))
  return Fields.ofList values

/-- The variant whose tag the document carries. -/
def readSum (read : Ty → Json → Except CodecError Value) (context : String)
    (variants : List Variant) (j : Json) : Except CodecError Value := do
  let tag ← tagOf j context
  match Fields.get? variants tag with
  | some fields => return .variant tag (← readFields read tag fields true j)
  | none => throw (.unknownTag context tag)

/-- One entry of a map, with the identity of its key. -/
def readEntry (readKey readValue : Json → Except CodecError Value) (j : Json) :
    Except CodecError (String × Value × Value) := do
  let props ← expectRecord j "map entry" false ["key", "value"]
  let key ← readKey (← field props "key")
  let value ← readValue (← field props "value")
  return (keyIdentity (← encode key), key, value)

/-- A repeated key keeps its first position and takes the last value. -/
def collectEntries (entries : List (String × Value × Value)) : List (Value × Value) :=
  (entries.foldl (fun m e => m.insert e.1 e.2.1 e.2.2) IdentityMap.empty).finish.entries

def readDecl (read : Reader) (owner : Module) (name : String) (decl : Decl) (j : Json) :
    Except CodecError Value :=
  match decl with
  | .alias t => read owner t j
  | .struct fields => return .record (← readFields (read owner) name fields false j)
  | .sum variants => readSum (read owner) name variants j
  | .variant parent index =>
    match owner.variant? parent index with
    | some (tag, fields) => do
      expectTag j parent tag
      return .variant tag (← readFields (read owner) tag fields true j)
    | none => .error (.unknownType name)
  | .table _ => .error (.tableType name)

/-- Reads a container or a reference, its parts with `read`. -/
def enter (read : Reader) (m : Module) : Ty → Json → Except CodecError Value
  | .list t, .arr items => return .list (← items.mapM (read m t))
  | .object t, .obj props =>
    return .object (← props.mapM fun (k, j) => return (k, ← read m t j))
  | .map k v, .arr items =>
    return .map (collectEntries (← items.mapM (readEntry (read m k) (read m v))))
  | .record fields, j =>
    return .record (← readFields (read m) (Ty.record fields).render fields false j)
  | .sum variants, j => readSum (read m) (Ty.sum variants).render variants j
  | .ref r, j =>
    match m.resolve? r with
    | some (owner, decl) => readDecl read owner r.name decl j
    | none => .error (.unknownType r.path)
  | t, j => .error (.conversion t.render j)

/-- Reads at the level at hand; containers and references go one level `deeper`. -/
def descend (deeper : Except CodecError Reader) (m : Module) :
    Ty → Json → Except CodecError Value
  | .prim p, j => readScalar p j
  | .annot _ t, j => descend deeper m t j
  | .optional _, .null => .ok .absent
  | .optional t, j => return .present (← descend deeper m t j)
  | t, j => do enter (← deeper) m t j

/-- Reads with `room` more levels; `limit` is what the error names. -/
def readWithin (limit : Nat) : Nat → Module → Ty → Json → Except CodecError Value
  | 0, m, t, j => descend (.error (.depthLimit limit)) m t j
  | room + 1, m, t, j => descend (.ok (readWithin limit room)) m t j

theorem readWithin_prim (limit room : Nat) (m : Module) (p : Prim) (j : Json) :
    readWithin limit room m (.prim p) j = readScalar p j := by
  cases room <;> rw [readWithin, descend]

theorem readWithin_annot (limit room : Nat) (m : Module) (doc : String) (t : Ty) (j : Json) :
    readWithin limit room m (.annot doc t) j = readWithin limit room m t j := by
  cases room <;> rw [readWithin, readWithin, descend]

theorem readWithin_null (limit room : Nat) (m : Module) (t : Ty) :
    readWithin limit room m (.optional t) .null = .ok .absent := by
  cases room <;> rw [readWithin, descend]

theorem readWithin_optional (limit room : Nat) (m : Module) (t : Ty) {j : Json} (h : j ≠ .null) :
    readWithin limit room m (.optional t) j = do
      return .present (← readWithin limit room m t j) := by
  cases room <;> (rw [readWithin, readWithin, descend]; exact h)

end Wireform.Codec
