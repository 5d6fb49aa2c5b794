import Wireform.Module.Draft
import Wireform.Source.Tree

/-!
# From syntax trees to declarations

Names of a declaration are reserved first; its body is resolved against the draft it belongs to
afterwards, when every name it may mention has its slot.
-/

namespace Wireform.Source

def typeCtors : List String := ["Optional", "List", "Object", "Map", "Annot"]

/-- Scalars and type constructors cannot be declared. -/
def checkDeclName (name : String) : Except SourceError Unit :=
  if (Prim.ofName? name).isSome || typeCtors.contains name then
    .error (.parse 0 name .reservedType)
  else .ok ()

def reserveName (d : Draft) (name : String) : Except SourceError Draft := do
  checkDeclName name
  d.reserve name

/-- The names a declaration introduces: its own, and the tags of a sum. -/
def DeclExpr.names : DeclExpr → List String
  | .sum name variants => name :: variants.map Prod.fst
  | decl => [decl.name]

def reserveNames (d : Draft) (decl : DeclExpr) : Except SourceError Draft :=
  decl.names.foldlM reserveName d

mutual

def resolveType (d : Draft) : TypeExpr → Except SourceError Ty
  | .path segments _ =>
    match segments with
    | [name] =>
      match Prim.ofName? name with
      | some p => .ok (.prim p)
      | none => return .ref (← d.resolvePath segments)
    | segments => return .ref (← d.resolvePath segments)
  | .tuple elems => return .tuple (← resolveElems d elems)
  | .record fields => return .record (← resolveFields d [] 0 [] fields)
  | .apply ctor args offset fragment =>
    let bad (why : Complaint) : SourceError := .parse offset fragment why
    match ctor, args with
    | "Optional", [a] => return .optional (← resolveArg d (bad (.takesTypes ctor)) a)
    | "List", [a] => return .list (← resolveArg d (bad (.takesTypes ctor)) a)
    | "Object", [a] => return .object (← resolveArg d (bad (.takesTypes ctor)) a)
    | "Map", [k, v] =>
      return .map (← resolveArg d (bad (.takesTypes ctor)) k)
        (← resolveArg d (bad (.takesTypes ctor)) v)
    | "Annot", [.doc doc, a] => return .annot doc (← resolveArg d (bad (.takesTypes ctor)) a)
    | "Optional", _ | "List", _ | "Object", _ => .error (bad (.takesOneType ctor))
    | "Map", _ => .error (bad .takesKeyAndValue)
    | "Annot", _ => .error (bad .takesTextAndType)
    | _, _ => .error (bad (.unknownCtor ctor))

/-- A type; `isText` is the error if a text stands there. -/
def resolveArg (d : Draft) (isText : SourceError) : TypeArg → Except SourceError Ty
  | .type t => resolveType d t
  | .doc _ => .error isText

def resolveElems (d : Draft) : List TypeExpr → Except SourceError (List Ty)
  | [] => .ok []
  | t :: ts => return (← resolveType d t) :: (← resolveElems d ts)

/-- Fields from position `i` on; their names differ from each other and from those `seen`. -/
def resolveFields (d : Draft) (reserved : List String) (i : Nat) (seen : List String) :
    List (Option String × TypeExpr) → Except SourceError (Fields Ty)
  | [] => .ok []
  | (name?, t) :: fields => do
    let name := name?.getD (ordinalName i)
    if reserved.contains name then throw (.parse 0 name .reservedField)
    if seen.contains name then throw (.duplicate .field name)
    let ty ← resolveType d t
    return (name, ty) :: (← resolveFields d reserved (i + 1) (name :: seen) fields)

end

def resolveVariant (d : Draft) (v : VariantExpr) : Except SourceError Variant := do
  return (v.1, ← resolveFields d [discriminator] 0 [] v.2)

/-! ### Tables -/

/-- A new member name. -/
def claim (seen : List String) (name : String) : Except SourceError (List String) :=
  if name = rowId then .error (.parse 0 name .reservedMember)
  else if seen.contains name then .error (.duplicate .tableMember name)
  else .ok (name :: seen)

/-- The kinds and attribute types of a table; the names of all members are claimed on the way. -/
def resolveKinds (d : Draft) (seen : List String) :
    List TableItem → Except SourceError (List String × Fields Ty)
  | [] => .ok ([], [])
  | .ob names :: items => do
    let (objects, types) ← resolveKinds d (← names.foldlM claim seen) items
    return (names ++ objects, types)
  | .attrType name t :: items => do
    let seen ← claim seen name
    let ty ← resolveType d t
    let (objects, types) ← resolveKinds d seen items
    return (objects, (name, ty) :: types)
  | .hom name _ _ :: items => do resolveKinds d (← claim seen name) items
  | .attr name _ _ :: items => do resolveKinds d (← claim seen name) items

def oneOf (names : List String) (name : String) : Except SourceError Unit :=
  if names.contains name then .ok () else .error (.unresolved name)

/-- Foreign keys join kinds; attributes go from a kind to an attribute type. -/
def resolveArrows (objects types : List String) :
    List TableItem → Except SourceError (List Arrow × List Arrow)
  | [] => .ok ([], [])
  | .hom name dom codom :: items => do
    oneOf objects dom
    oneOf objects codom
    let (homs, attrs) ← resolveArrows objects types items
    return (⟨name, dom, codom⟩ :: homs, attrs)
  | .attr name dom codom :: items => do
    oneOf objects dom
    oneOf types codom
    let (homs, attrs) ← resolveArrows objects types items
    return (homs, ⟨name, dom, codom⟩ :: attrs)
  | _ :: items => resolveArrows objects types items

def resolveTable (d : Draft) (items : List TableItem) : Except SourceError TableSpec := do
  let (objects, types) ← resolveKinds d [] items
  let (homs, attrs) ← resolveArrows objects types.keys items
  return ⟨objects, homs, types, attrs⟩

/-! ### Declarations -/

/-- The bodies that a declaration brings, those of its tags before its own. -/
def resolveDecl (d : Draft) : DeclExpr → Except SourceError (List (String × Decl))
  | .alias name t => return [(name, .alias (← resolveType d t))]
  | .struct name fields => return [(name, .struct (← resolveFields d [] 0 [] fields))]
  | .sum name variants => do
    let resolved ← variants.mapM (resolveVariant d)
    return (resolved.mapIdx fun i v => (v.1, .variant name i)) ++ [(name, .sum resolved)]
  | .table name items => return [(name, .table (← resolveTable d items))]

/-- Fills the slots that the declaration has reserved. -/
def defineDecl (d : Draft) (decl : DeclExpr) : Except SourceError Draft := do
  (← resolveDecl d decl).foldlM (fun d body => d.define body.1 body.2) d

end Wireform.Source
