import Wireform.Codec.Error

/-!
# Depth of a read

Going one level deeper is allowed below the limit. The level outside is not changed by what happens
inside.
-/

namespace Wireform

structure Depth where
  limit : Nat
  level : Nat := 0
deriving DecidableEq

namespace Depth

def deeper (d : Depth) : Except CodecError Depth :=
  if d.level < d.limit then .ok { d with level := d.level + 1 } else .error (.depthLimit d.limit)

/-- The levels entered on the way down, and how the descent ends. -/
def descent : Nat → Depth → List Nat × Except CodecError Unit
  | 0, _ => ([], .ok ())
  | levels + 1, d =>
    match d.deeper with
    | .error e => ([], .error e)
    | .ok d =>
      let (below, result) := descent levels d
      (d.level :: below, result)

end Depth

end Wireform
