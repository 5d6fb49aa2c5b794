import Wireform.Codec.Error
import Wireform.Value.Basic

/-!
# Table stores

A store holds the rows of every kind of a table and the slots of every pool. Indices are handed
out in ascending order and never again, and there is no largest one; removing a row leaves references
to it dangling.
-/

namespace Wireform

/-- Contents of a cell: a row of another kind, a value, or a slot of a pool. -/
inductive Cell where
  | row (index : Nat)
  | value (v : Value)
  | var (slot : Nat)

/-- The rows of one kind, or the slots of one pool. -/
structure Sheet where
  /-- The next index to hand out. -/
  next : Nat
  /-- Indices in use, ascending. -/
  live : List Nat
  cells : List ((Nat × String) × Cell)

namespace Sheet

def empty : Sheet := ⟨0, [], []⟩

/-- The next `n` indices. -/
def fresh (s : Sheet) (n : Nat) : List Nat := List.range' s.next n

def grow (s : Sheet) (n : Nat) : Sheet := ⟨s.next + n, s.live ++ s.fresh n, s.cells⟩

/-- Drops a row and its cells. -/
def remove (s : Sheet) (row : Nat) : Sheet :=
  ⟨s.next, s.live.filter (· != row), s.cells.filter fun c => c.1.1 != row⟩

def cell? (s : Sheet) (row : Nat) (field : String) : Option Cell :=
  (s.cells.find? fun c => c.1 == (row, field)).map Prod.snd

def setCell (s : Sheet) (row : Nat) (field : String) (cell : Cell) : Sheet :=
  { s with cells := ((row, field), cell) :: s.cells.filter fun c => c.1 != (row, field) }

end Sheet

structure Attribute where
  name : String
  attrType : String
  ty : Ty

structure Store where
  spec : TableSpec
  sheets : Fields Sheet
  /-- The most rows of a kind that one allocation hands out; no bound for other kinds. -/
  caps : Fields Nat

namespace Store

def new (spec : TableSpec) (caps : Fields Nat) : Store :=
  ⟨spec, Fields.ofList ((spec.objects ++ spec.attrTypes.keys).map fun k => (k, Sheet.empty)), caps⟩

def objects (s : Store) : List String := s.spec.objects

def pools (s : Store) : List String := s.spec.attrTypes.keys

/-- Foreign keys of a kind. -/
def foreignKeys (s : Store) (kind : String) : List Arrow :=
  if s.objects.contains kind then s.spec.homsFrom kind else []

def attributes (s : Store) (kind : String) : List Attribute :=
  if s.objects.contains kind then
    (s.spec.attrsFrom kind).filterMap fun a =>
      (s.spec.attrType? a.codom).map fun t => ⟨a.name, a.codom, t⟩
  else []

def sheet (s : Store) (kind : String) : Except CodecError Sheet :=
  match s.sheets.get? kind with
  | some sheet => .ok sheet
  | none => .error (.unknownType kind)

def live (s : Store) (kind : String) : List Nat :=
  match s.sheets.get? kind with
  | some sheet => sheet.live
  | none => []

def size (s : Store) (kind : String) : Nat := (s.live kind).length

def cell? (s : Store) (kind : String) (row : Nat) (field : String) : Option Cell :=
  (s.sheets.get? kind).bind fun sheet => sheet.cell? row field

def setSheet (s : Store) (kind : String) (sheet : Sheet) : Store :=
  { s with sheets := s.sheets.insert kind sheet }

/-- Hands out `n` rows, whatever the caps. -/
def grow (s : Store) (kind : String) (n : Nat) : Except CodecError (List Nat × Store) := do
  let sheet ← s.sheet kind
  return (sheet.fresh n, s.setSheet kind (sheet.grow n))

/-- Hands out `n` rows, or as many as the cap of the kind allows. -/
def allocate (s : Store) (kind : String) (n : Nat) : Except CodecError (List Nat × Store) :=
  s.grow kind (match s.caps.get? kind with
    | some cap => min n cap
    | none => n)

/-- Hands out one row, whatever the caps. -/
def add (s : Store) (kind : String) : Except CodecError (Nat × Store) := do
  let sheet ← s.sheet kind
  return (sheet.next, s.setSheet kind (sheet.grow 1))

/-- Removes a row, and tells whether it was there. -/
def remove (s : Store) (kind : String) (row : Nat) : Except CodecError (Bool × Store) := do
  let sheet ← s.sheet kind
  return (sheet.live.contains row, s.setSheet kind (sheet.remove row))

def setCell (s : Store) (kind : String) (row : Nat) (field : String) (cell : Cell) :
    Except CodecError Store := do
  let sheet ← s.sheet kind
  if sheet.live.contains row then return s.setSheet kind (sheet.setCell row field cell)
  else throw (.badCell kind row field .deadRow)

end Store

end Wireform
