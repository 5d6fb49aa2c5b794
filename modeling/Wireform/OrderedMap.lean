import Wireform.Fields

/-!
# Maps in insertion order

Keys of an `OrderedMap` need an equality test only, so any value can be a key, floats included. A
key met again keeps its first position and its first spelling and takes the last value.
`IdentityMap` is the same contract where every key comes with a text that stands for it.
-/

namespace Wireform

structure OrderedMap (κ ν : Type) where
  entries : List (κ × ν)

namespace OrderedMap

variable {κ ν : Type}

def empty : OrderedMap κ ν := ⟨[]⟩

def size (m : OrderedMap κ ν) : Nat := m.entries.length

def keys (m : OrderedMap κ ν) : List κ := m.entries.map Prod.fst

def get? [BEq κ] (m : OrderedMap κ ν) (k : κ) : Option ν :=
  (m.entries.find? (·.1 == k)).map Prod.snd

/-- Replaces the value of the first key equal to `k`, else appends. -/
def insertEntry [BEq κ] (k : κ) (v : ν) : List (κ × ν) → List (κ × ν)
  | [] => [(k, v)]
  | (k', v') :: es => if k' == k then (k', v) :: es else (k', v') :: insertEntry k v es

def insert [BEq κ] (m : OrderedMap κ ν) (k : κ) (v : ν) : OrderedMap κ ν :=
  ⟨insertEntry k v m.entries⟩

def ofList [BEq κ] (l : List (κ × ν)) : OrderedMap κ ν :=
  l.foldl (fun m e => m.insert e.1 e.2) empty

end OrderedMap

/-- A map under construction whose keys are told apart by a text, one per key. -/
structure IdentityMap (κ ν : Type) where
  slots : Fields (κ × ν)

namespace IdentityMap

variable {κ ν : Type}

def empty : IdentityMap κ ν := ⟨[]⟩

/-- The value held under `identity` so far. -/
def get? (m : IdentityMap κ ν) (identity : String) : Option ν :=
  (m.slots.get? identity).map Prod.snd

/-- A known identity keeps its position and its key and takes the new value. -/
def insert (m : IdentityMap κ ν) (identity : String) (k : κ) (v : ν) : IdentityMap κ ν :=
  match m.slots.get? identity with
  | some (k', _) => ⟨m.slots.insert identity (k', v)⟩
  | none => ⟨m.slots ++ [(identity, (k, v))]⟩

def finish (m : IdentityMap κ ν) : OrderedMap κ ν := ⟨m.slots.map Prod.snd⟩

end IdentityMap

end Wireform
