import Wireform.Emit.Item
import Wireform.Emit.Name
import Wireform.Emit.Reach

/-!
# From declarations to items

Every declaration becomes an item, a sum also one per tag. Inline records and sums, which have no
name of their own, become items too: they wait in a queue until the declaration that they stand in
is done. A declaration that holds itself by value is boxed where it is mentioned.
-/

namespace Wireform.Emit

/-- Tuples up to this width stay tuples. -/
def maxTuple : Nat := 6

/-- A record that stays a tuple. -/
def isShortTuple (fields : Fields Ty) : Bool := isTuple fields && fields.length ≤ maxTuple

/-- An inline record or sum that waits for its item. -/
inductive Inline where
  | record (name : String) (fields : Fields Ty) (owner : String)
  | sum (name : String) (variants : List Variant) (owner : String)

mutual

/-- Inline records and sums inside a type. -/
def inlineCount : Ty → Nat
  | .prim _ => 0
  | .ref _ => 0
  | .optional t => inlineCount t
  | .annot _ t => inlineCount t
  | .list t => inlineCount t
  | .object t => inlineCount t
  | .map k v => inlineCount k + inlineCount v
  | .record fields => inlineCountFields fields + 1
  | .sum variants => inlineCountVariants variants + 1

def inlineCountFields : List (String × Ty) → Nat
  | [] => 0
  | (_, t) :: fs => inlineCount t + inlineCountFields fs

def inlineCountVariants : List (String × List (String × Ty)) → Nat
  | [] => 0
  | (_, fs) :: vs => inlineCountFields fs + inlineCountVariants vs

end

/-- The items that come of it, at most. -/
def Inline.weight : Inline → Nat
  | .record _ fields _ => inlineCountFields fields + 1
  | .sum _ variants _ => inlineCountVariants variants + 1

/-- The items that come of a queue, at most. -/
def queueWeight : List Inline → Nat
  | [] => 0
  | inline :: queue => inline.weight + queueWeight queue

/-- Names taken so far, and what waits. -/
structure Plan where
  taken : List String
  queue : List Inline

abbrev Planner := StateM Plan

def takeName (hint : String) : Planner String := do
  let plan ← get
  let name := freshName plan.taken hint
  set { plan with taken := plan.taken ++ [name] }
  return name

def enqueue (inline : Inline) : Planner Unit :=
  modify fun plan => { plan with queue := plan.queue ++ [inline] }

mutual

/-- The type of a position. `owner` is the declaration whose size is at stake, `hint` names what
has no name, and `flat` says that no container stands between the owner and here. -/
def fieldTy (m : Module) (owner : String) : Ty → (hint : String) → (flat : Bool) → Planner FieldTy
  | .prim p, _, _ => return .prim p
  | .annot _ t, hint, flat => fieldTy m owner t hint flat
  | .optional t, hint, flat => return .optional (← fieldTy m owner t hint flat)
  | .list t, hint, _ => return .list (← fieldTy m owner t hint false)
  | .object t, hint, _ => return .object (← fieldTy m owner t hint false)
  | .map k v, hint, _ => do
    let k ← fieldTy m owner k (hint ++ "Key") false
    let v ← fieldTy m owner v (hint ++ "Value") false
    return .map k v
  | .record fields, hint, flat => do
    if isShortTuple fields then return .tuple (← elemTys m owner fields hint flat)
    let name ← takeName hint
    enqueue (.record name fields owner)
    return .auxiliary name
  | .sum variants, hint, _ => do
    let name ← takeName hint
    enqueue (.sum name variants owner)
    return .auxiliary name
  | .ref ⟨some i, name, _⟩, _, _ => return .imported i name
  | .ref ⟨none, name, _⟩, _, flat =>
    return if flat && holds m name owner then .boxed (.declared name) else .declared name

def elemTys (m : Module) (owner : String) :
    List (String × Ty) → (hint : String) → (flat : Bool) → Planner (List FieldTy)
  | [], _, _ => return []
  | (_, t) :: fs, hint, flat => do
    let t ← fieldTy m owner t hint flat
    return t :: (← elemTys m owner fs hint flat)

end

/-- The fields of the item `name`. -/
def planFields (m : Module) (name owner : String) (fields : Fields Ty) : Planner (List Field) :=
  fields.mapM fun (key, t) => do
    return ⟨key, ← fieldTy m owner t (name ++ camel key) true, t.docs⟩

def planRecord (m : Module) (name owner : String) (tag : Option (String × String))
    (docs : List String) (fields : Fields Ty) : Planner Item := do
  return .record name tag docs (← planFields m name owner fields)

/-- One structure per variant, then the sum itself. Variants are given with the names of their
structures; without an `owner` each structure is its own. -/
def planSum (m : Module) (name : String) (variants : List (String × Variant))
    (owner : Option String) (docs : List String) : Planner (List Item) := do
  let records ← variants.mapM fun (item, tag, fields) =>
    planRecord m item (owner.getD item) (some (name, tag)) [] fields
  return records ++ [.enum name docs (variants.map fun (item, tag, _) => (tag, item))]

/-- The structures of variants that no declaration names. -/
def nameVariants (name : String) (variants : List Variant) : Planner (List (String × Variant)) :=
  variants.mapM fun v => return (← takeName (name ++ v.1), v)

/-- An alias of an inline record or sum gives it its name. -/
def planAlias (m : Module) (name : String) (t : Ty) : Planner (List Item) := do
  match t.stripAnnot with
  | .sum variants => planSum m name (← nameVariants name variants) (some name) t.docs
  | .record fields =>
    if isShortTuple fields then planSynonym else return [← planRecord m name name none t.docs fields]
  | _ => planSynonym
where
  planSynonym : Planner (List Item) := do
    if isRecursiveAlias m name then
      return [.wrapper name t.docs (← fieldTy m name t name true)]
    else return [.synonym name t.docs (← fieldTy m name t name false)]

/-- Tags come with the sum they belong to. -/
def planDecl (m : Module) (name : String) : Decl → Planner (List Item)
  | .alias t => planAlias m name t
  | .struct fields => return [← planRecord m name name none [] fields]
  | .sum variants => planSum m name (variants.map fun v => (v.1, v)) none []
  | .variant _ _ => return []
  | .table spec => return [.table name spec]

def planInline (m : Module) : Inline → Planner (List Item)
  | .record name fields owner => return [← planRecord m name owner none [] fields]
  | .sum name variants owner => do
    planSum m name (← nameVariants name variants) (some owner) []

/-- First come, first served. -/
def drain (m : Module) : Nat → Planner (List Item)
  | 0 => return []
  | fuel + 1 => do
    match (← get).queue with
    | [] => return []
    | inline :: rest =>
      modify fun plan => { plan with queue := rest }
      let items ← planInline m inline
      return items ++ (← drain m fuel)

/-- What waits inside what waits is counted too, so that the queue is empty afterwards. -/
def drainAll (m : Module) : Planner (List Item) := do
  drain m (queueWeight (← get).queue)

def planAll (m : Module) : Planner (List Item) := do
  let items ← m.decls.mapM fun (name, decl) => do
    let own ← planDecl m name decl
    return own ++ (← drainAll m)
  return items.flatten

/-- The items of a module, in the order of its declarations. -/
def items (m : Module) : List Item := ((planAll m).run ⟨Fields.keys m.decls, []⟩).1

end Wireform.Emit
