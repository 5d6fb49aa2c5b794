import Wireform.Json.Printer
import Wireform.Decl

/-!
# What can go wrong with a value or a document
-/

namespace Wireform

/-- Why a document does not have the declared names. -/
inductive Mismatch where
  /-- Declared names that are absent, and names that were not declared. -/
  | keys (missing unexpected : List String)
  | noDiscriminator
  | missingField
  | unexpectedKind (kind : String)
  | missingKind (kind : String)
  | noRowId (row : Nat)
  | duplicateRowId (id : Nat)
  | rowIdOutside (id count : Nat)
  | badPoolId (found : Json)

namespace Mismatch

def message : Mismatch → String
  | .keys missing unexpected =>
    let parts := (if missing.isEmpty then [] else ["missing " ++ Text.quoteList missing]) ++
      (if unexpected.isEmpty then [] else ["unexpected " ++ Text.quoteList unexpected])
    "; ".intercalate parts
  | .noDiscriminator => "missing discriminator `" ++ discriminator ++ "`"
  | .missingField => "missing field"
  | .unexpectedKind kind => "unexpected kind " ++ Text.quote kind
  | .missingKind kind => "missing kind " ++ Text.quote kind
  | .noRowId row => "row " ++ Text.ofNat row ++ " has no valid `" ++ rowId ++ "`"
  | .duplicateRowId id => "duplicate `" ++ rowId ++ "` " ++ Text.ofNat id
  | .rowIdOutside id count =>
    "`" ++ rowId ++ "` " ++ Text.ofNat id ++ " outside 0.." ++ Text.ofNat count
  | .badPoolId found => "bad pool `" ++ rowId ++ "` " ++ found.compact

end Mismatch

/-- What is wrong with a table cell. -/
inductive CellFault where
  | notARow
  | unset
  | deadTarget (row : Nat) (kind : String)
  | looksLikeVar (found : Json)
  | deadSlot (slot : Nat)
  | rowReference
  | noRow (found : Json) (kind : String)
  | noSlot (found : Json) (pool : String)
  | deadRow

namespace CellFault

def message : CellFault → String
  | .notARow => "foreign key holds a non-row cell"
  | .unset => "unset"
  | .deadTarget row kind => "row " ++ Text.ofNat row ++ " of `" ++ kind ++ "` is not live"
  | .looksLikeVar found =>
    "value " ++ found.compact ++ " cannot be told apart from a `" ++ poolVar ++ "` placeholder"
  | .deadSlot slot => "pool slot " ++ Text.ofNat slot ++ " is not live"
  | .rowReference => "attribute holds a row reference"
  | .noRow found kind => "no row " ++ found.compact ++ " in `" ++ kind ++ "`"
  | .noSlot found pool => "no slot " ++ found.compact ++ " in `" ++ pool ++ "`"
  | .deadRow => "row is not live"

end CellFault

inductive CodecError where
  /-- The document has another shape than the type. -/
  | conversion (expected : String) (found : Json)
  /-- The names in the document are not the declared ones. -/
  | mismatch (context : String) (why : Mismatch)
  | unknownTag (sum tag : String)
  | depthLimit (limit : Nat)
  | nonFinite (x : Double)
  /-- The value to be written does not fit the type. -/
  | valueMismatch (expected found : String)
  | unknownType (path : String)
  /-- A table stands where a value is wanted. -/
  | tableType (name : String)
  /-- The store handed out fewer rows than asked for. -/
  | shortAllocation (given asked : Nat) (kind : String)
  | badCell (kind : String) (row : Nat) (field : String) (why : CellFault)
  | notJson
  /-- An alias without end; no finished module has one. -/
  | endlessAlias (name : String)

namespace CodecError

/-- The sorts of errors. -/
inductive Kind where
  | conversion | mismatch | unknownTag | depthLimit | nonFinite | valueMismatch | unknownType
  | unsupported | badCell | notJson | endlessAlias
deriving DecidableEq

/-- Which error it is, whatever it says. -/
def kind : CodecError → Kind
  | .conversion _ _ => .conversion
  | .mismatch _ _ => .mismatch
  | .unknownTag _ _ => .unknownTag
  | .depthLimit _ => .depthLimit
  | .nonFinite _ => .nonFinite
  | .valueMismatch _ _ => .valueMismatch
  | .unknownType _ => .unknownType
  | .tableType _ => .unsupported
  | .shortAllocation _ _ _ => .unsupported
  | .badCell _ _ _ _ => .badCell
  | .notJson => .notJson
  | .endlessAlias _ => .endlessAlias

def message : CodecError → String
  | .conversion expected found => "expected " ++ expected ++ ", found " ++ found.compact
  | .mismatch context why => "schema mismatch in " ++ context ++ ": " ++ why.message
  | .unknownTag sum tag => "unknown tag `" ++ tag ++ "` for sum type `" ++ sum ++ "`"
  | .depthLimit limit => "nesting deeper than the limit of " ++ Text.ofNat limit
  | .nonFinite x => "non-finite float " ++ x.text .message ++ " has no JSON encoding"
  | .valueMismatch expected found => "value " ++ found ++ " does not have type " ++ expected
  | .unknownType path => "no declaration named `" ++ path ++ "`"
  | .tableType name => "unsupported: `" ++ name ++ "` is a table schema; use the table codec"
  | .shortAllocation given asked kind =>
    "unsupported: store allocated " ++ Text.ofNat given ++ " of " ++ Text.ofNat asked ++
      " rows for `" ++ kind ++ "`"
  | .badCell kind row field why =>
    kind ++ "[" ++ Text.ofNat row ++ "]." ++ field ++ ": " ++ why.message
  | .notJson => "not a JSON document"
  | .endlessAlias name => "alias `" ++ name ++ "` expands to itself"

end CodecError

end Wireform
