import Wireform.Module.Expose
import Wireform.Value.Basic

/-!
# Equality at a type

Two values are equal at a type when both fit it and their parts are equal at the types of the
parts. Like writing, it is defined by recursion on the first value.
-/

namespace Wireform.Codec

/-- How a value is compared, at a type of a module, with another one. -/
abbrev Tester := Module → Ty → Value → Bool

/-- Both have exactly the declared fields, and they are equal field by field. -/
def equalFields (owner : Module) (fields : Fields Ty) (testers : Fields Tester)
    (others : Fields Value) : Bool :=
  testers.length == fields.length && others.length == fields.length &&
    fields.all fun (name, t) =>
      match testers.get? name, others.get? name with
      | some test, some other => test owner t other
      | _, _ => false

mutual

def equalAs : Value → Module → Ty → Value → Bool
  | a, m, ty, b =>
    let e := m.expose ty
    match e.head, a, b with
    | .prim p, a, b => p.admits a && a.same b
    | .optional _, .absent, .absent => true
    | .optional t, .present x, .present y => equalAs x e.owner t y
    | .list t, .list xs, .list ys =>
      xs.length == ys.length &&
        ((itemTesters xs).zip ys).all fun (test, y) => test e.owner t y
    | .object t, .object xs, .object ys =>
      xs.length == ys.length && (fieldTesters xs).all fun (k, test) =>
        match Fields.get? ys k with
        | some y => test e.owner t y
        | none => false
    | .map k v, .map xs, .map ys =>
      xs.length == ys.length && ((entryTesters xs).zip ys).all fun (test, y) =>
        test.1 e.owner k y.1 && test.2 e.owner v y.2
    | .record fields, .record xs, .record ys =>
      equalFields e.owner fields (fieldTesters xs) ys
    | .sum variants, .variant s xs, .variant t ys =>
      s == t && match Fields.get? variants s with
        | some fields => equalFields e.owner fields (fieldTesters xs) ys
        | none => false
    | .tag _ (some (tag, fields)), .variant s xs, .variant t ys =>
      s == t && tag == s && equalFields e.owner fields (fieldTesters xs) ys
    | _, _, _ => false

def itemTesters : List Value → List Tester
  | [] => []
  | v :: vs => equalAs v :: itemTesters vs

def fieldTesters : List (String × Value) → List (String × Tester)
  | [] => []
  | (k, v) :: fs => (k, equalAs v) :: fieldTesters fs

def entryTesters : List (Value × Value) → List (Tester × Tester)
  | [] => []
  | (k, v) :: es => (equalAs k, equalAs v) :: entryTesters es

end

theorem itemTesters_eq (items : List Value) : itemTesters items = items.map equalAs := by
  induction items with
  | nil => rfl
  | cons v items ih => rw [itemTesters, ih]; rfl

theorem fieldTesters_eq (fields : List (String × Value)) :
    fieldTesters fields = fields.map fun f => (f.1, equalAs f.2) := by
  induction fields with
  | nil => rfl
  | cons f fields ih => rw [fieldTesters, ih]; rfl

theorem entryTesters_eq (entries : List (Value × Value)) :
    entryTesters entries = entries.map fun e => (equalAs e.1, equalAs e.2) := by
  induction entries with
  | nil => rfl
  | cons e entries ih => rw [entryTesters, ih]; rfl

/-- A comparison looks at the shape of the type alone. -/
theorem equalAs_congr {m m' : Module} {t t' : Ty} (h : m.expose t = m'.expose t') (a b : Value) :
    equalAs a m t b = equalAs a m' t' b := by
  unfold equalAs
  rw [h]

end Wireform.Codec
