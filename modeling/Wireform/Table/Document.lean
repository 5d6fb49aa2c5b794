import Wireform.Codec.Basic
import Wireform.Table.Store

/-!
# Table documents

A document has an array of rows per kind and an array of slots per pool. Rows are numbered by
position among the live ones, so removed rows leave no gap; foreign keys and pool references are
such positions. Reading appends to a store.
-/

namespace Wireform

/-- What a cell points at, if its document is exactly a pool reference. -/
def poolVar? : Json → Option Json
  | .obj [(k, j)] => if k = poolVar then some j else none
  | _ => none

namespace Store

/-! ### Writing -/

/-- Position of a row among the live rows of its kind. -/
def position? (s : Store) (kind : String) (row : Nat) : Option Nat := (s.live kind).idxOf? row

def writeForeignKey (s : Store) (kind : String) (row : Nat) (key : Arrow) :
    Except CodecError (String × Json) :=
  match s.cell? kind row key.name with
  | some (.row target) =>
    match s.position? key.codom target with
    | some pos => .ok (key.name, .ofNat pos)
    | none => .error (.badCell kind row key.name (.deadTarget target key.codom))
  | some _ => .error (.badCell kind row key.name .notARow)
  | none => .error (.badCell kind row key.name .unset)

/-- A plain value must not look like a pool reference. -/
def writeAttribute (c : Codec) (s : Store) (kind : String) (row : Nat) (a : Attribute) :
    Except CodecError (String × Json) :=
  match s.cell? kind row a.name with
  | some (.value v) => do
    let j ← c.encodeAs a.ty v
    if (poolVar? j).isSome then throw (.badCell kind row a.name (.looksLikeVar j))
    return (a.name, j)
  | some (.var slot) =>
    match s.position? a.attrType slot with
    | some pos => .ok (a.name, .obj [(poolVar, .ofNat pos)])
    | none => .error (.badCell kind row a.name (.deadSlot slot))
  | some (.row _) => .error (.badCell kind row a.name .rowReference)
  | none => .error (.badCell kind row a.name .unset)

def writeRow (c : Codec) (s : Store) (kind : String) (pos row : Nat) :
    Except CodecError Json := do
  let keys ← (s.foreignKeys kind).mapM (s.writeForeignKey kind row)
  let attrs ← (s.attributes kind).mapM (writeAttribute c s kind row)
  return Codec.object ((rowId, .ofNat pos) :: keys ++ attrs)

def writeKind (c : Codec) (s : Store) (kind : String) : Except CodecError (String × Json) := do
  let rows ← (s.live kind).zipIdx.mapM fun (row, pos) => writeRow c s kind pos row
  return (kind, .arr rows)

def writePool (s : Store) (pool : String) : String × Json :=
  (pool, .arr ((List.range (s.size pool)).map fun pos => .obj [(rowId, .ofNat pos)]))

/-- Attribute types are looked up in the module of the codec, the one that declares the table. -/
def write (c : Codec) (s : Store) : Except CodecError Json := do
  let kinds ← s.objects.mapM (writeKind c s)
  return Codec.object (kinds ++ s.pools.map s.writePool)

/-! ### Reading -/

/-- A failed read keeps what it has stored so far. -/
abbrev Reading := EStateM CodecError Store

def allocating (kind : String) (n : Nat) : Reading (List Nat) := do
  match (← get).allocate kind n with
  | .ok (rows, s) =>
    set s
    return rows
  | .error e => throw e

/-- The `_id`s of the rows of a kind are the positions below their number, in any order. -/
def checkRowIds (kind : String) (count : Nat) :
    Nat → List Nat → List Json → Except CodecError Unit
  | _, _, [] => .ok ()
  | i, seen, row :: rows =>
    match (row.prop? rowId).bind Json.position? with
    | none => .error (.mismatch kind (.noRowId i))
    | some id =>
      if count ≤ id then .error (.mismatch kind (.rowIdOutside id count))
      else if seen.contains id then .error (.mismatch kind (.duplicateRowId id))
      else checkRowIds kind count (i + 1) (id :: seen) rows

def rowsOf (doc : Fields Json) (kind : String) : Except CodecError (List Json) :=
  match doc.get? kind with
  | some (.arr rows) => .ok rows
  | some other => .error (.conversion ("rows of `" ++ kind ++ "`") other)
  | none => .error (.mismatch "table instance" (.missingKind kind))

/-- Checks the rows of a kind and makes room for them. -/
def allocateKind (doc : Fields Json) (kind : String) : Reading (String × List Nat) := do
  let rows ← ofExcept (rowsOf doc kind)
  ofExcept (checkRowIds kind rows.length 0 [] rows)
  let fresh ← allocating kind rows.length
  if fresh.length ≠ rows.length then throw (.shortAllocation fresh.length rows.length kind)
  return (kind, fresh)

def checkSlotIds (pool : String) (count : Nat) :
    List Nat → List Json → Except CodecError Unit
  | _, [] => .ok ()
  | seen, slot :: slots => do
    let props ← Codec.expectRecord slot pool false [rowId]
    let found ← Codec.field props rowId
    match found.position? with
    | some id =>
      if id < count && !seen.contains id then checkSlotIds pool count (id :: seen) slots
      else throw (.mismatch pool (.badPoolId found))
    | none => throw (.mismatch pool (.badPoolId found))

/-- A pool that the document leaves out gains nothing. -/
def allocatePool (doc : Fields Json) (pool : String) : Reading (List (String × List Nat)) := do
  match doc.get? pool with
  | none => return []
  | some (.arr slots) =>
    ofExcept (checkSlotIds pool slots.length [] slots)
    return [(pool, ← allocating pool slots.length)]
  | some other => throw (.conversion ("slots of `" ++ pool ++ "`") other)

/-- The index that a position stands for among freshly handed out ones. -/
def placed? (fresh : Fields (List Nat)) (kind : String) (j : Json) : Option Nat :=
  j.position?.bind fun pos => ((fresh.get? kind).getD [])[pos]?

def readForeignKey (fresh : Fields (List Nat)) (kind : String) (pos : Nat) (props : Fields Json)
    (key : Arrow) : Except CodecError (String × Cell) := do
  let found ← Codec.field props key.name
  match placed? fresh key.codom found with
  | some row => return (key.name, .row row)
  | none => throw (.badCell kind pos key.name (.noRow found key.codom))

def readAttribute (c : Codec) (fresh : Fields (List Nat)) (kind : String) (pos : Nat)
    (props : Fields Json) (a : Attribute) : Except CodecError (String × Cell) := do
  let found ← Codec.field props a.name
  match poolVar? found with
  | some var =>
    match placed? fresh a.attrType var with
    | some slot => return (a.name, .var slot)
    | none => throw (.badCell kind pos a.name (.noSlot var a.attrType))
  | none => return (a.name, .value (← c.decode a.ty found))

/-- The cells of one row, with the row they belong to. -/
def readRow (c : Codec) (fresh : Fields (List Nat)) (kind : String) (keys : List Arrow)
    (attrs : List Attribute) (j : Json) : Except CodecError (List (Nat × String × Cell)) := do
  let names := rowId :: keys.map Arrow.name ++ attrs.map Attribute.name
  let props ← Codec.expectRecord j kind false names
  let id ← Codec.field props rowId
  let pos := id.position?.getD 0
  match ((fresh.get? kind).getD [])[pos]? with
  | none => throw (.badCell kind pos rowId (.noRow id kind))
  | some row =>
    let refs ← keys.mapM (readForeignKey fresh kind pos props)
    let values ← attrs.mapM (readAttribute c fresh kind pos props)
    return (refs ++ values).map fun cell => (row, cell)

def storeCell (kind : String) (cell : Nat × String × Cell) : Reading Unit := do
  match (← get).setCell kind cell.1 cell.2.1 cell.2.2 with
  | .ok s => set s
  | .error e => throw e

/-- Cells are stored when all rows of the kind have been read. -/
def fillKind (c : Codec) (doc : Fields Json) (fresh : Fields (List Nat)) (kind : String) :
    Reading Unit := do
  let s ← get
  let rows ← ofExcept (rowsOf doc kind)
  let cells ← ofExcept (rows.mapM (readRow c fresh kind (s.foreignKeys kind) (s.attributes kind)))
  cells.flatten.forM (storeCell kind)

def checkKinds (s : Store) (doc : Fields Json) : Except CodecError Unit :=
  match doc.keys.find? fun k => !s.objects.contains k && !s.pools.contains k with
  | some kind => .error (.mismatch "table instance" (.unexpectedKind kind))
  | none => .ok ()

/-- Appends the rows of a document. Room is made for all of them first, so that foreign keys can
point forward. -/
def read (c : Codec) (j : Json) : Reading Unit := do
  match j with
  | .obj doc =>
    let s ← get
    ofExcept (checkKinds s doc)
    let kinds ← s.objects.mapM (allocateKind doc)
    let pools ← s.pools.mapM (allocatePool doc)
    let fresh := Fields.ofList (kinds ++ pools.flatten)
    s.objects.forM (fillKind c doc fresh)
  | j => throw (.conversion "table instance" j)

def readText (c : Codec) (text : String) : Reading Unit := do
  read c (← ofExcept (Codec.parse text))

end Store

end Wireform
