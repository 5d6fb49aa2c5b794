import Mathlib
import Wireform.Proofs.Codec.NormalForm

/-!
# The documents of a type

`OnWire m t j` is a grammar of documents without values and depths: objects with fixed names have
exactly their names, in any order, and 64-bit integers are texts. Everything that is written is on
the wire, and so is everything that can be read and has no bare number in the place of a 64-bit
integer.
-/

namespace Wireform.Codec

/-- Reading `j` at the type `t` of `m` comes to `j'` at the type `t'` of `m'`. -/
inductive Stands : Module → Ty → Json → Module → Ty → Json → Prop
  | here {m : Module} {t : Ty} {j : Json} : Stands m t j m t j
  | annot {m m' : Module} {doc : String} {t t' : Ty} {j j' : Json} :
    Stands m t j m' t' j' → Stands m (.annot doc t) j m' t' j'
  | optional {m m' : Module} {t t' : Ty} {j j' : Json} :
    j ≠ .null → Stands m t j m' t' j' → Stands m (.optional t) j m' t' j'
  | item {m m' : Module} {t t' : Ty} {items : List Json} {j j' : Json} :
    j ∈ items → Stands m t j m' t' j' → Stands m (.list t) (.arr items) m' t' j'
  | prop {m m' : Module} {t t' : Ty} {props : Fields Json} {name : String} {j j' : Json} :
    (name, j) ∈ props → Stands m t j m' t' j' → Stands m (.object t) (.obj props) m' t' j'
  | key {m m' : Module} {k v t' : Ty} {items : List Json} {props : Fields Json} {j j' : Json} :
    .obj props ∈ items → Fields.get? props "key" = some j → Stands m k j m' t' j' →
      Stands m (.map k v) (.arr items) m' t' j'
  | value {m m' : Module} {k v t' : Ty} {items : List Json} {props : Fields Json} {j j' : Json} :
    .obj props ∈ items → Fields.get? props "value" = some j → Stands m v j m' t' j' →
      Stands m (.map k v) (.arr items) m' t' j'
  | alias {m owner m' : Module} {r : Ref} {t t' : Ty} {j j' : Json} :
    m.resolve? r = some (owner, .alias t) → Stands owner t j m' t' j' →
      Stands m (.ref r) j m' t' j'
  | field {m owner m' : Module} {t t' : Ty} {tag : Option String} {fields : Fields Ty}
      {props : Fields Json} {f : String × Ty} {j j' : Json} :
    m.Fieldset t owner tag fields → (∀ s ∈ tag, Fields.get? props discriminator = some (.str s)) →
    f ∈ fields → Fields.get? props f.1 = some j → Stands owner f.2 j m' t' j' →
      Stands m t (.obj props) m' t' j'

/-- No bare number stands where a 64-bit integer should. -/
def WideAsText (m : Module) (t : Ty) (j : Json) : Prop :=
  ∀ m' p n, Stands m t j m' (.prim p) (.num n) → p ≠ .i64 ∧ p ≠ .u64

theorem WideAsText.inner {m m₁ : Module} {t t₁ : Ty} {j j₁ : Json} (h : WideAsText m t j)
    (hs : ∀ {m' t' j'}, Stands m₁ t₁ j₁ m' t' j' → Stands m t j m' t' j') : WideAsText m₁ t₁ j₁ :=
  fun m' p n hn => h m' p n (hs hn)

inductive OnWire : Module → Ty → Json → Prop
  | scalar {m : Module} {p : Prim} {j : Json} {v : Value} :
    readScalar? p j = some v → (∀ n, j = .num n → p ≠ .i64 ∧ p ≠ .u64) → OnWire m (.prim p) j
  | annot {m : Module} {doc : String} {t : Ty} {j : Json} :
    OnWire m t j → OnWire m (.annot doc t) j
  | null {m : Module} {t : Ty} : OnWire m (.optional t) .null
  | optional {m : Module} {t : Ty} {j : Json} : OnWire m t j → OnWire m (.optional t) j
  | list {m : Module} {t : Ty} {items : List Json} :
    (∀ j ∈ items, OnWire m t j) → OnWire m (.list t) (.arr items)
  | object {m : Module} {t : Ty} {props : Fields Json} :
    (∀ p ∈ props, OnWire m t p.2) → OnWire m (.object t) (.obj props)
  | map {m : Module} {k v : Ty} (parts : List ReadPart) :
    (∀ p ∈ parts, hasNames p.props ["key", "value"] = true) →
    (∀ p ∈ parts, Fields.get? p.props "key" = some p.keyDoc) →
    (∀ p ∈ parts, Fields.get? p.props "value" = some p.valueDoc) →
    (∀ p ∈ parts, OnWire m k p.keyDoc) → (∀ p ∈ parts, OnWire m v p.valueDoc) →
      OnWire m (.map k v) (.arr (parts.map fun p => .obj p.props))
  | alias {m owner : Module} {r : Ref} {t : Ty} {j : Json} :
    m.resolve? r = some (owner, .alias t) → OnWire owner t j → OnWire m (.ref r) j
  | fields {m owner : Module} {t : Ty} {tag : Option String} {props : Fields Json}
      (parts : List FieldPart) :
    m.Fieldset t owner tag (parts.map FieldPart.field) → HoldsParts tag parts props →
    (∀ p ∈ parts, OnWire owner p.ty p.doc) → OnWire m t (.obj props)

theorem Reads.onWire {room : Nat} {m : Module} {t : Ty} {j : Json} {v : Value}
    (h : Reads room m t j v) (hw : WideAsText m t j) : OnWire m t j := by
  induction h with
  | scalar h =>
    refine .scalar h fun n hn => ?_
    subst hn
    exact hw _ _ n .here
  | annot _ ih => exact .annot (ih (hw.inner .annot))
  | absent => exact .null
  | present hj _ ih => exact .optional (ih (hw.inner (.optional hj)))
  | list parts _ ih =>
    refine .list (List.forall_mem_map.2 fun p hp => ih p hp (hw.inner (.item ?_)))
    exact List.mem_map_of_mem hp
  | object parts _ ih =>
    refine .object (List.forall_mem_map.2 fun p hp => ih p hp (hw.inner ?_))
    exact .prop (List.mem_map_of_mem (f := fun p => (p.1, p.2.1)) hp)
  | map parts hn hk hv _ _ _ ihk ihv =>
    have hm : ∀ p ∈ parts, Json.obj p.props ∈ parts.map fun p => Json.obj p.props :=
      fun p hp => List.mem_map_of_mem (f := fun p : ReadPart => Json.obj p.props) hp
    exact .map parts hn hk hv (fun p hp => ihk p hp (hw.inner (.key (hm p hp) (hk p hp))))
      fun p hp => ihv p hp (hw.inner (.value (hm p hp) (hv p hp)))
  | «alias» hr _ ih => exact .alias hr (ih (hw.inner (.alias hr)))
  | fields parts hf hp _ ih =>
    refine .fields parts hf hp fun p hm => ih p hm (hw.inner fun hs => ?_)
    exact .field hf hp.tag (List.mem_map_of_mem (f := FieldPart.field) hm) (hp.docs p hm) hs

/-- A 64-bit integer is never written as a number. -/
theorem ne_wide_of_encode {p : Prim} {v : Value} {n : Number} (hp : p.admits v = true)
    (h : encode v = .ok (.num n)) : p ≠ .i64 ∧ p ≠ .u64 := by
  cases v with
  | i64 | u64 => cases h
  | _ => cases p <;> first | cases hp; done | simp

theorem Writes.onWire {m : Module} {t : Ty} {v : Value} {j : Json} (h : Writes m t v j)
    (hm : m.Sound) (ht : t.Proper) : OnWire m t j := by
  induction h with
  | scalar hp he =>
    refine .scalar (readScalar?_encode hp he) fun n hn => ?_
    subst hn
    exact ne_wide_of_encode hp he
  | annot _ ih => exact .annot (ih hm ht)
  | absent => exact .null
  | present _ ih => exact .optional (ih hm ht)
  | list parts _ ih => exact .list (List.forall_mem_map.2 fun p hp => ih p hp hm ht)
  | object parts _ ih => exact .object (List.forall_mem_map.2 fun p hp => ih p hp hm ht)
  | @map m k t parts _ _ ihk ihv =>
    let reads : EntryPart → ReadPart := fun p =>
      { p with props := [("key", p.keyDoc), ("value", p.valueDoc)], written := p.keyDoc }
    have h := @OnWire.map m k t (parts.map reads)
      (List.forall_mem_map.2 fun p _ => by simp [reads, hasNames, Fields.contains])
      (List.forall_mem_map.2 fun p _ => rfl) (List.forall_mem_map.2 fun p _ => rfl)
      (List.forall_mem_map.2 fun p hp => ihk p hp hm ht.1)
      (List.forall_mem_map.2 fun p hp => ihv p hp hm ht.2)
    rw [List.map_map] at h
    exact h
  | «alias» hr _ ih => exact .alias hr (ih (hm.of_resolve? hr) (hm.decl_proper hr))
  | fields parts hf _ _ _ ih =>
    have hp := hf.proper hm ht
    rw [fieldsDoc_eq hp]
    refine .fields parts hf (holdsParts_fieldsDoc hp) fun p hm' => ?_
    exact ih p hm' (hf.sound hm) (hp.types _ (List.mem_map_of_mem hm'))

end Wireform.Codec
