import Wireform.Json.Basic
import Wireform.Module.Basic

/-!
# Schemas

The draft-07 schema of a type, and the document that defines every declaration of a module and of
the modules it imports. Schemas describe what is written; reading is a little more lenient (64-bit
integers are also read from plain numbers).
-/

namespace Wireform.Schema

def draft : String := "http://json-schema.org/draft-07/schema#"

/-- An object that has all the given properties and no others. -/
def objectOf (props : List (String × Json)) : Json :=
  .obj [("type", .str "object"), ("properties", .obj (Fields.ofList props)),
    ("required", .arr (props.map fun p => .str p.1)), ("additionalProperties", .bool false)]

def arrayOf (items : Json) : Json := .obj [("type", .str "array"), ("items", items)]

def integerBetween (low high : Int) : Fields Json :=
  [("type", .str "integer"), ("minimum", .ofInt low), ("maximum", .ofInt high)]

def scalarKeywords : Prim → Fields Json
  | .i32 => integerBetween (-0x80000000) 0x7fffffff
  | .u32 => integerBetween 0 0xffffffff
  | .i64 => [("type", .str "string"), ("pattern", .str "^-?[0-9]+$")]
  | .u64 => [("type", .str "string"), ("pattern", .str "^[0-9]+$")]
  | .f64 => [("type", .str "number")]
  | .boolean => [("type", .str "boolean")]
  | .str | .ident => [("type", .str "string")]
  | .binary => [("type", .str "string"), ("contentEncoding", .str "base64")]

def scalar (p : Prim) : Json := .obj (scalarKeywords p ++ [("$comment", .str p.name)])

def isNullName : Json → Bool
  | .str s => s == "null"
  | _ => false

/-- The `type` keyword with null among its names, if the schema has a usable one. -/
def widenedType? (schema : Json) : Option Json :=
  match schema.prop? "type" with
  | some (.str t) => some (.arr [.str t, .str "null"])
  | some (.arr ts) => some (.arr (if ts.any isNullName then ts else ts ++ [.str "null"]))
  | _ => none

def setKeyword (k : String) (v : Json) : Json → Json
  | .obj props => .obj (Fields.insert k v props)
  | j => j

/-- The schema, or null. -/
def nullable (schema : Json) : Json :=
  match widenedType? schema with
  | some types => setKeyword "type" types schema
  | none => .obj [("anyOf", .arr [schema, .obj [("type", .str "null")]])]

/-- Keywords beside a reference are ignored, so the reference is wrapped first. -/
def describe (doc : String) (schema : Json) : Json :=
  let schema := if (schema.prop? "$ref").isSome then .obj [("allOf", .arr [schema])] else schema
  setKeyword "description" (.str doc) schema

def definitionRef (key : String) : Json := .obj [("$ref", .str ("#/$defs/" ++ key))]

/-- Key of a declaration: qualified if it is seen from an importing module. -/
def localKey (within : Option String) (name : String) : String :=
  match within with
  | some m => m ++ "." ++ name
  | none => name

def refKey (within : Option String) (r : Ref) : String :=
  match r.via with
  | some m => m ++ "." ++ r.name
  | none => localKey within r.name

mutual

def ofTyWithin (within : Option String) : Ty → Json
  | .prim p => scalar p
  | .optional t => nullable (ofTyWithin within t)
  | .list t => arrayOf (ofTyWithin within t)
  | .object t => .obj [("type", .str "object"), ("additionalProperties", ofTyWithin within t)]
  | .map k v =>
    arrayOf (objectOf [("key", ofTyWithin within k), ("value", ofTyWithin within v)])
  | .record fields => objectOf (ofFields within fields)
  | .sum variants => .obj [("oneOf", .arr (ofVariants within variants))]
  | .annot doc t => describe doc (ofTyWithin within t)
  | .ref r => definitionRef (refKey within r)

def ofFields (within : Option String) : List (String × Ty) → List (String × Json)
  | [] => []
  | (k, t) :: fs => (k, ofTyWithin within t) :: ofFields within fs

def ofVariants (within : Option String) : List (String × List (String × Ty)) → List Json
  | [] => []
  | (tag, fs) :: vs =>
    objectOf ((discriminator, .obj [("const", .str tag)]) :: ofFields within fs) ::
      ofVariants within vs

end

/-- References point at `#/$defs/<name>`, or `<import>.<name>`. -/
def ofTy (t : Ty) : Json := ofTyWithin none t

def ofVariant (within : Option String) (v : Variant) : Json :=
  objectOf ((discriminator, .obj [("const", .str v.1)]) :: ofFields within v.2)

/-- Positions of rows and slots. -/
def position : Json := scalar .u32

/-- An attribute cell holds a value or points into its pool. -/
def attributeCell (within : Option String) (t : Ty) : Json :=
  .obj [("anyOf", .arr [ofTyWithin within t, objectOf [(poolVar, position)]])]

def tableRow (within : Option String) (spec : TableSpec) (kind : String) : Json :=
  let homs := (spec.homsFrom kind).map fun h => (h.name, position)
  let attrs := (spec.attrsFrom kind).filterMap fun a =>
    (spec.attrType? a.codom).map fun t => (a.name, attributeCell within t)
  objectOf ((rowId, position) :: homs ++ attrs)

/-- Every kind of rows is required, the pools are not. -/
def ofTable (within : Option String) (spec : TableSpec) : Json :=
  let kinds := spec.objects.map fun kind => (kind, arrayOf (tableRow within spec kind))
  let pools := spec.attrTypes.map fun a => (a.1, arrayOf (objectOf [(rowId, position)]))
  .obj [("type", .str "object"), ("properties", .obj (Fields.ofList (kinds ++ pools))),
    ("required", .arr (spec.objects.map .str)), ("additionalProperties", .bool false)]

def ofDecl (within : Option String) (m : Module) : Decl → Json
  | .alias t => ofTyWithin within t
  | .struct fields => objectOf (ofFields within fields)
  | .sum variants =>
    .obj [("oneOf", .arr (variants.map fun v => definitionRef (localKey within v.1)))]
  | .variant parent index =>
    match m.variant? parent index with
    | some v => ofVariant within v
    | none => .obj []
  | .table spec => ofTable within spec

/-- The definitions with those of one module added. -/
def addModule (within : Option String) (m : Module) (defs : Fields Json) : Fields Json :=
  m.decls.foldl (fun defs d => defs.insert (localKey within d.1) (ofDecl within m d.2)) defs

/-- Definitions so far, and the names of the modules they come from. -/
structure Export where
  seen : List String
  defs : Fields Json

mutual

/-- Adds a module under its name, then what it imports, last import first. The first module of a
name counts. -/
def addImported : Module → Export → Export
  | ⟨name, imports, decls⟩, e =>
    if e.seen.contains name then e
    else addImports imports ⟨name :: e.seen, addModule (some name) ⟨name, imports, decls⟩ e.defs⟩

def addImports : List (String × Module) → Export → Export
  | [], e => e
  | (_, m) :: ms, e => addImported m (addImports ms e)

end

def definitions (m : Module) : Fields Json :=
  (addImports m.imports ⟨[], addModule none m []⟩).defs

def ofModule (m : Module) : Json :=
  .obj [("$schema", .str draft), ("title", .str m.name), ("$defs", .obj (definitions m))]

def fileName (m : Module) : String := m.name ++ "_schema.json"

end Wireform.Schema
