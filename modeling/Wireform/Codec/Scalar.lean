import Wireform.Codec.Error
import Wireform.Double.Rounding
import Wireform.Text.Base64
import Wireform.Value.Basic

/-!
# Scalars in a document

32-bit integers and floats are numbers. 64-bit integers are written as decimal text and read from
decimal text or from an integer. Bytes are base64 text.
-/

namespace Wireform.Codec

def int32? (n : Int) : Option Int32 :=
  if -0x80000000 ≤ n ∧ n < 0x80000000 then some (Int32.ofInt n) else none

def uint32? (n : Int) : Option UInt32 :=
  if 0 ≤ n ∧ n < 0x100000000 then some (UInt32.ofNat n.toNat) else none

def int64? (n : Int) : Option Int64 :=
  if -0x8000000000000000 ≤ n ∧ n < 0x8000000000000000 then some (Int64.ofInt n) else none

def uint64? (n : Int) : Option UInt64 :=
  if 0 ≤ n ∧ n < 0x10000000000000000 then some (UInt64.ofNat n.toNat) else none

def readI32? (j : Json) : Option Int32 := j.int?.bind int32?

def readU32? (j : Json) : Option UInt32 := j.int?.bind uint32?

def readI64? : Json → Option Int64
  | .str s => (Text.integer? s.toList).bind int64?
  | j => j.int?.bind int64?

def readU64? : Json → Option UInt64
  | .str s => (Text.natural? s.toList).bind fun n => uint64? n
  | j => j.int?.bind uint64?

/-- Any number; an integer becomes the nearest float. -/
def readF64? : Json → Option Double
  | .num (.float x _) => some x
  | .num (.int n) => Double.ofInt? n
  | _ => none

def readBinary? (j : Json) : Option (List UInt8) := j.str?.bind Text.Base64.decode?

def readScalar? (p : Prim) (j : Json) : Option Value :=
  match p with
  | .i32 => (readI32? j).map .i32
  | .u32 => (readU32? j).map .u32
  | .i64 => (readI64? j).map .i64
  | .u64 => (readU64? j).map .u64
  | .f64 => (readF64? j).map .f64
  | .boolean => j.bool?.map .bool
  | .str => j.str?.map .str
  | .ident => j.str?.map .ident
  | .binary => (readBinary? j).map .binary

def readScalar (p : Prim) (j : Json) : Except CodecError Value :=
  match readScalar? p j with
  | some v => .ok v
  | none => .error (.conversion p.name j)

def writeF64 (x : Double) : Except CodecError Json :=
  if h : x.isFinite = true then .ok (.num (.float x h)) else .error (.nonFinite x)

end Wireform.Codec
