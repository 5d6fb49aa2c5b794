import Wireform.Module.Basic

/-!
# Which declarations hold which

A declaration holds another by value if a value of the first contains one of the second outside
every list, object and map. A declaration that holds itself needs a box somewhere on the way.
-/

namespace Wireform.Emit

/-! ### Reachability by names -/

def newNames (seen names : List String) : List String :=
  (names.filter fun name => !seen.contains name).eraseDups

/-- Names that can be reached, found round by round. `frontier` are those of the last round. -/
def reachedFrom (next : String → List String) : Nat → List String → List String → List String
  | 0, _, seen => seen
  | rounds + 1, frontier, seen =>
    match newNames seen (frontier.flatMap next) with
    | [] => seen
    | fresh => reachedFrom next rounds fresh (seen ++ fresh)

/-- Names that can be reached from `start`, itself included. A path without repetition leaves each
of the `count` declarations once, so that many rounds find everything. -/
def reached (count : Nat) (next : String → List String) (start : List String) : List String :=
  reachedFrom next count start start

/-! ### References in a type -/

mutual

/-- Declarations of the module itself that a type holds by value. -/
def heldBy : Ty → List String
  | .ref ⟨none, name, _⟩ => [name]
  | .optional t => heldBy t
  | .annot _ t => heldBy t
  | .record fields => heldByFields fields
  | .sum variants => heldByVariants variants
  | _ => []

def heldByFields : List (String × Ty) → List String
  | [] => []
  | (_, t) :: fs => heldBy t ++ heldByFields fs

def heldByVariants : List (String × List (String × Ty)) → List String
  | [] => []
  | (_, fs) :: vs => heldByFields fs ++ heldByVariants vs

end

mutual

/-- Declarations of the module itself that a type mentions anywhere. -/
def mentionedBy : Ty → List String
  | .prim _ => []
  | .ref ⟨none, name, _⟩ => [name]
  | .ref ⟨some _, _, _⟩ => []
  | .optional t => mentionedBy t
  | .annot _ t => mentionedBy t
  | .list t => mentionedBy t
  | .object t => mentionedBy t
  | .map k v => mentionedBy k ++ mentionedBy v
  | .record fields => mentionedByFields fields
  | .sum variants => mentionedByVariants variants

def mentionedByFields : List (String × Ty) → List String
  | [] => []
  | (_, t) :: fs => mentionedBy t ++ mentionedByFields fs

def mentionedByVariants : List (String × List (String × Ty)) → List String
  | [] => []
  | (_, fs) :: vs => mentionedByFields fs ++ mentionedByVariants vs

end

/-! ### References in a module -/

def heldByDecl (m : Module) : Decl → List String
  | .alias t => heldBy t
  | .struct fields => heldByFields fields
  | .sum variants => Fields.keys variants
  | .variant parent index =>
    match m.variant? parent index with
    | some (_, fields) => heldByFields fields
    | none => []
  | .table _ => []

def heldByName (m : Module) (name : String) : List String :=
  match m.get? name with
  | some decl => heldByDecl m decl
  | none => []

/-- The declaration `source` is `target` or holds it by value, directly or not. -/
def holds (m : Module) (source target : String) : Bool :=
  (reached m.decls.length (heldByName m) [source]).contains target

def mentionedByAlias (m : Module) (name : String) : List String :=
  match m.get? name with
  | some (.alias t) => mentionedBy t
  | _ => []

/-- An alias that mentions itself through other aliases only. -/
def isRecursiveAlias (m : Module) (name : String) : Bool :=
  (reached m.decls.length (mentionedByAlias m) (mentionedByAlias m name).eraseDups).contains name

end Wireform.Emit
