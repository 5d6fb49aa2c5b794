import Wireform.Codec.Record
import Wireform.Codec.Scalar
import Wireform.Module.Expose

/-!
# Writing values

`encode` follows the value alone and keeps its field order. `encodeAs` follows a type: it writes
fields in declared order and refuses a value that does not fit. It is defined by recursion on the
value, which is why the parts of a value are first turned into their writers.
-/

namespace Wireform.Codec

mutual

/-- The document of a value in the shape it carries. -/
def encode : Value → Except CodecError Json
  | .i32 n => .ok (.ofInt n.toInt)
  | .u32 n => .ok (.ofNat n.toNat)
  | .i64 n => .ok (.str (Text.ofInt n.toInt))
  | .u64 n => .ok (.str (Text.ofNat n.toNat))
  | .f64 x => writeF64 x
  | .bool b => .ok (.bool b)
  | .str s => .ok (.str s)
  | .ident s => .ok (.str s)
  | .binary bytes => .ok (.str (Text.Base64.encode bytes))
  | .absent => .ok .null
  | .present v => encode v
  | .list items => return .arr (← encodeItems items)
  | .object props => return object (← encodeFields props)
  | .map entries => return .arr (← encodeEntries entries)
  | .record fields => return object (← encodeFields fields)
  | .variant tag fields => return tagged tag (← encodeFields fields)

def encodeItems : List Value → Except CodecError (List Json)
  | [] => .ok []
  | v :: vs => return (← encode v) :: (← encodeItems vs)

def encodeFields : List (String × Value) → Except CodecError (List (String × Json))
  | [] => .ok []
  | (k, v) :: fs => return (k, ← encode v) :: (← encodeFields fs)

def encodeEntries : List (Value × Value) → Except CodecError (List Json)
  | [] => .ok []
  | (k, v) :: es => return mapEntry (← encode k) (← encode v) :: (← encodeEntries es)

end

theorem encodeItems_eq (items : List Value) : encodeItems items = items.mapM encode := by
  induction items with
  | nil => rfl
  | cons v items ih => rw [encodeItems, ih, List.mapM_cons]

theorem encodeFields_eq (fields : List (String × Value)) :
    encodeFields fields = fields.mapM fun f => do return (f.1, ← encode f.2) := by
  induction fields with
  | nil => rfl
  | cons f fields ih =>
    rw [encodeFields, ih, List.mapM_cons, bind_assoc]
    rfl

theorem encodeEntries_eq (entries : List (Value × Value)) :
    encodeEntries entries = entries.mapM fun e => do
      return mapEntry (← encode e.1) (← encode e.2) := by
  induction entries with
  | nil => rfl
  | cons e entries ih =>
    rw [encodeEntries, ih, List.mapM_cons]
    simp only [bind_assoc]
    rfl

/-- How a value is written at a type of a module. -/
abbrev Writer := Module → Ty → Except CodecError Json

/-- Exactly the declared fields, in declared order, after the tag if there is one. -/
def writeFields (owner : Module) (fields : Fields Ty) (writers : Fields Writer)
    (tag : Option String) : Except CodecError Json := do
  if writers.length ≠ fields.length then
    throw (.valueMismatch (Text.ofNat fields.length ++ " fields")
      (Text.ofNat writers.length ++ " fields"))
  let props ← fields.mapM fun (name, t) =>
    match writers.get? name with
    | some write => return (name, ← write owner t)
    | none => throw (.valueMismatch ("field `" ++ name ++ "`") "no such field")
  match tag with
  | some tag => return tagged tag props
  | none => return object props

mutual

/-- The document of a value at a type. -/
def writeAs : Value → Module → Ty → Except CodecError Json
  | value, m, ty =>
    let e := m.expose ty
    match e.head, value with
    | .prim p, v => if p.admits v then encode v else .error (.valueMismatch e.label.text v.kind)
    | .optional _, .absent => .ok .null
    | .optional t, .present v => writeAs v e.owner t
    | .list t, .list items => return .arr (← (itemWriters items).mapM (· e.owner t))
    | .object t, .object props =>
      return .obj (← (fieldWriters props).mapM fun (k, write) =>
        return (k, ← write e.owner t))
    | .map k v, .map entries =>
      return .arr (← (entryWriters entries).mapM fun (writeKey, writeValue) =>
        return mapEntry (← writeKey e.owner k) (← writeValue e.owner v))
    | .record fields, .record values =>
      writeFields e.owner fields (fieldWriters values) none
    | .sum variants, .variant tag values =>
      match Fields.get? variants tag with
      | some fields => writeFields e.owner fields (fieldWriters values) (some tag)
      | none => .error (.unknownTag e.label.text tag)
    | .tag parent (some (declared, fields)), .variant tag values =>
      if declared = tag then writeFields e.owner fields (fieldWriters values) (some tag)
      else .error (.unknownTag parent tag)
    | .tag _ none, .variant _ _ => .error (.unknownType e.label.text)
    | .table, _ => .error (.tableType e.label.text)
    | .unresolved path, _ => .error (.unknownType path)
    | .endless, _ => .error (.endlessAlias e.label.text)
    | _, v => .error (.valueMismatch e.label.text v.kind)

def itemWriters : List Value → List Writer
  | [] => []
  | v :: vs => writeAs v :: itemWriters vs

def fieldWriters : List (String × Value) → List (String × Writer)
  | [] => []
  | (k, v) :: fs => (k, writeAs v) :: fieldWriters fs

def entryWriters : List (Value × Value) → List (Writer × Writer)
  | [] => []
  | (k, v) :: es => (writeAs k, writeAs v) :: entryWriters es

end

theorem itemWriters_eq (items : List Value) : itemWriters items = items.map writeAs := by
  induction items with
  | nil => rfl
  | cons v items ih => rw [itemWriters, ih]; rfl

theorem fieldWriters_eq (fields : List (String × Value)) :
    fieldWriters fields = fields.map fun f => (f.1, writeAs f.2) := by
  induction fields with
  | nil => rfl
  | cons f fields ih => rw [fieldWriters, ih]; rfl

theorem entryWriters_eq (entries : List (Value × Value)) :
    entryWriters entries = entries.map fun e => (writeAs e.1, writeAs e.2) := by
  induction entries with
  | nil => rfl
  | cons e entries ih => rw [entryWriters, ih]; rfl

/-- A write looks at the shape of the type alone. -/
theorem writeAs_congr {m m' : Module} {t t' : Ty} (h : m.expose t = m'.expose t') (v : Value) :
    writeAs v m t = writeAs v m' t' := by
  unfold writeAs
  rw [h]

end Wireform.Codec
