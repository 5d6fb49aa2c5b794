import Wireform.Double.Printer
import Wireform.Ty

/-!
# Values

What a document means under a type. Fields of objects, records and variants keep their order, but
equality looks at names only; the entries of a map are compared in order.
-/

namespace Wireform

inductive Value where
  | i32 (n : Int32)
  | u32 (n : UInt32)
  | i64 (n : Int64)
  | u64 (n : UInt64)
  | f64 (x : Double)
  | bool (b : Bool)
  | str (s : String)
  | ident (s : String)
  | binary (bytes : List UInt8)
  | absent
  | present (v : Value)
  | list (items : List Value)
  | object (props : List (String × Value))
  | map (entries : List (Value × Value))
  | record (fields : List (String × Value))
  | variant (tag : String) (fields : List (String × Value))

namespace Value

instance : Inhabited Value := ⟨.absent⟩

mutual

def same : Value → Value → Bool
  | .i32 a, .i32 b => a == b
  | .u32 a, .u32 b => a == b
  | .i64 a, .i64 b => a == b
  | .u64 a, .u64 b => a == b
  | .f64 a, .f64 b => a.same b
  | .bool a, .bool b => a == b
  | .str a, .str b => a == b
  | .ident a, .ident b => a == b
  | .binary a, .binary b => a == b
  | .absent, .absent => true
  | .present a, .present b => same a b
  | .list xs, .list ys => sameItems xs ys
  | .object ps, .object qs => ps.length == qs.length && sameFields ps qs
  | .map es, .map fs => sameEntries es fs
  | .record ps, .record qs => ps.length == qs.length && sameFields ps qs
  | .variant t ps, .variant u qs => t == u && ps.length == qs.length && sameFields ps qs
  | _, _ => false

def sameItems : List Value → List Value → Bool
  | [], [] => true
  | x :: xs, y :: ys => same x y && sameItems xs ys
  | _, _ => false

def sameEntries : List (Value × Value) → List (Value × Value) → Bool
  | [], [] => true
  | (k, x) :: es, (l, y) :: fs => same k l && same x y && sameEntries es fs
  | _, _ => false

/-- Every field of the first is a field of the second. -/
def sameFields : List (String × Value) → List (String × Value) → Bool
  | [], _ => true
  | (k, x) :: ps, qs =>
    (match Fields.get? qs k with
      | some y => same x y
      | none => false) && sameFields ps qs

end

instance : BEq Value := ⟨same⟩

/-- What messages call a value. -/
def kind : Value → String
  | .i32 n => "I32 " ++ Text.ofInt n.toInt
  | .u32 n => "U32 " ++ Text.ofNat n.toNat
  | .i64 n => "I64 " ++ Text.ofInt n.toInt
  | .u64 n => "U64 " ++ Text.ofNat n.toNat
  | .f64 x => "F64 " ++ x.text .message
  | .bool b => "Boolean " ++ (if b then "true" else "false")
  | .str _ => "Str"
  | .ident s => "Ident " ++ s
  | .binary bytes => "Binary (" ++ Text.ofNat bytes.length ++ " bytes)"
  | .absent => "empty Optional"
  | .present _ => "Optional"
  | .list items => "List of " ++ Text.ofNat items.length
  | .object props => "Object of " ++ Text.ofNat props.length
  | .map entries => "Map of " ++ Text.ofNat entries.length
  | .record fields => "record \x7b" ++ ", ".intercalate (Fields.keys fields) ++ "\x7d"
  | .variant tag _ => "variant " ++ tag

end Value

/-- The value is a scalar of this kind. -/
def Prim.admits : Prim → Value → Bool
  | .i32, .i32 _ => true
  | .u32, .u32 _ => true
  | .i64, .i64 _ => true
  | .u64, .u64 _ => true
  | .f64, .f64 _ => true
  | .boolean, .bool _ => true
  | .str, .str _ => true
  | .ident, .ident _ => true
  | .binary, .binary _ => true
  | _, _ => false

end Wireform
