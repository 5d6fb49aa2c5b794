import Wireform.Codec.Error

/-!
# Objects with a fixed set of names

Records, variants, map entries and table rows are objects that have exactly the names they should
have. A variant has its tag beside them.
-/

namespace Wireform.Codec

/-- The tag that an object carries. -/
def tagOf (j : Json) (context : String) : Except CodecError String :=
  match j with
  | .obj props =>
    match Fields.get? props discriminator with
    | some (.str tag) => .ok tag
    | some other => .error (.conversion "discriminator string" other)
    | none => .error (.mismatch context .noDiscriminator)
  | j => .error (.conversion context j)

def expectTag (j : Json) (sum tag : String) : Except CodecError Unit := do
  let found ← tagOf j tag
  if found = tag then .ok () else .error (.unknownTag sum found)

/-- The names expected of an object: its fields, after the discriminator if it is tagged. -/
def expectedNames (tagged : Bool) (names : List String) : List String :=
  if tagged then discriminator :: names else names

/-- The object has as many properties as expected, and every expected one. -/
def hasNames (props : Fields Json) (expected : List String) : Bool :=
  props.length == expected.length && expected.all props.contains

/-- How the names of an object differ from the expected ones. -/
def nameDifference (props : Fields Json) (expected : List String) : Mismatch :=
  .keys (expected.filter fun k => !props.contains k)
    ((Fields.keys props).filter fun k => !expected.contains k)

/-- The properties of an object whose names are exactly the given ones. -/
def expectRecord (j : Json) (context : String) (tagged : Bool) (names : List String) :
    Except CodecError (Fields Json) :=
  match j with
  | .obj props =>
    let expected := expectedNames tagged names
    if hasNames props expected then .ok props
    else .error (.mismatch context (nameDifference props expected))
  | j => .error (.conversion context j)

/-- One property of an object whose names were checked before. -/
def field (props : Fields Json) (name : String) : Except CodecError Json :=
  match props.get? name with
  | some j => .ok j
  | none => .error (.mismatch name .missingField)

def object (props : List (String × Json)) : Json := .obj (Fields.ofList props)

/-- The tag stands first; a field that has the name of the discriminator overwrites it there. -/
def tagged (tag : String) (props : List (String × Json)) : Json :=
  object ((discriminator, .str tag) :: props)

def mapEntry (k v : Json) : Json := .obj [("key", k), ("value", v)]

end Wireform.Codec
