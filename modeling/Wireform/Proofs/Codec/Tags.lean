import Mathlib
import Wireform.Proofs.Codec.Inhabits

/-!
# Sums and their tags

A tag of a declared sum is a name of the module, and so a type of its own. Reading, writing and comparing
treat the sum and the tag in separate ways. What they have in common is the fieldsets: the sum has those
of all its tags, and the tag has one (`Sound.fieldset_sum_iff`). A property of types that only looks at
fieldsets, and can have one tag only, thus holds at the sum exactly if it holds at exactly one of the tags
(`Sound.sum_iff_existsUnique_tag`). All three operations are of this kind.
-/

namespace Wireform

namespace Module

variable {m owner o : Module} {r q : Ref} {variants : List Variant} {tag : String}
  {mark : Option String} {fields : Fields Ty}

/-- The reference to `name` in the module that `r` points into. -/
def beside? (m : Module) (r : Ref) (name : String) : Option Ref :=
  (m.owner? r).bind fun owner => (owner.slotOf? name).map fun slot => ⟨r.via, name, slot⟩

theorem beside?_eq_some (ho : m.owner? r = some owner) {name : String} :
    m.beside? r name = some q ↔
      ∃ slot, owner.slotOf? name = some slot ∧ q = ⟨r.via, name, slot⟩ := by
  rw [beside?, ho, Option.bind_some, Option.map_eq_some_iff]
  simp only [eq_comm]

/-- A tag of a sum is declared beside it, and leads back to its fields. -/
theorem Sound.exists_tag (hm : m.Sound) (hr : m.resolve? r = some (owner, .sum variants))
    (ht : tag ∈ Fields.keys variants) :
    ∃ q index fields, m.beside? r tag = some q ∧ Fields.get? variants tag = some fields ∧
      m.resolve? q = some (owner, .variant r.name index) ∧
      owner.variant? r.name index = some (tag, fields) := by
  obtain ⟨ho, -⟩ := resolve?_eq_some hr
  have hsum := mem_decls_of_resolve? hr
  have horderly := (hm.of_resolve? hr).orderly
  obtain ⟨fields, hfields⟩ := Fields.exists_get?_of_mem_keys ht
  obtain ⟨index, hindex⟩ := List.getElem?_of_mem (Fields.mem_of_get? hfields)
  have hdeclared := horderly.tags r.name variants hsum index _ hindex
  obtain ⟨slot, hslot⟩ := Option.isSome_iff_exists.1 (show (owner.slotOf? tag).isSome by
    rw [slotOf?, Fields.index?_eq, List.findIdx?_isSome, List.any_eq_true]
    exact ⟨tag, Fields.mem_keys_of_mem hdeclared, by simp⟩)
  obtain ⟨decl, hdecl, hget⟩ := Fields.index?_eq_some hslot
  rw [horderly.distinct.get?_eq_some hdeclared, Option.some.injEq] at hget
  refine ⟨⟨r.via, tag, slot⟩, index, fields, (beside?_eq_some ho).2 ⟨slot, hslot, rfl⟩, hfields, ?_, ?_⟩
  · have howner : m.owner? ⟨r.via, tag, slot⟩ = some owner := ho
    rw [resolve?, howner]
    simp only [hdecl, if_true, hget]
  · rw [variant?, get?, horderly.distinct.get?_eq_some hsum]
    exact hindex

/-- The only fieldset of a tag is the one that the sum has for it. -/
theorem Sound.fieldset_tag_iff (hm : m.Sound) (hr : m.resolve? r = some (owner, .sum variants))
    (ht : tag ∈ Fields.keys variants) (hq : m.beside? r tag = some q) :
    m.Fieldset (.ref q) o mark fields ↔ mark = some tag ∧ m.Fieldset (.ref r) o (some tag) fields := by
  obtain ⟨q', index, fs, hq', hg, hv, hvariant⟩ := hm.exists_tag hr ht
  rw [hq, Option.some.injEq] at hq'
  subst hq'
  constructor
  · intro hf
    obtain ⟨rfl, hsome, hfields⟩ := hf.unique (.variant hv hvariant)
    obtain ⟨s, rfl⟩ := Option.isSome_iff_exists.1 hsome
    cases hf with
    | declaredSum hr' _ => rw [hv] at hr'; cases hr'
    | variant hr' hv' =>
      rw [hv] at hr'
      cases hr'
      rw [hvariant] at hv'
      cases hv'
      exact ⟨rfl, .declaredSum hr hg⟩
  · rintro ⟨rfl, hf⟩
    obtain ⟨rfl, -, hfields⟩ := hf.unique (.declaredSum hr hg)
    rw [hfields rfl]
    exact .variant hv hvariant

theorem Sound.fieldset_sum_iff (hm : m.Sound) (hr : m.resolve? r = some (owner, .sum variants)) :
    m.Fieldset (.ref r) o mark fields ↔
      ∃ tag ∈ Fields.keys variants, ∃ q, m.beside? r tag = some q ∧
        m.Fieldset (.ref q) o mark fields := by
  constructor
  · intro hf
    cases hf with
    | struct hr' | variant hr' _ => rw [hr] at hr'; cases hr'
    | @declaredSum _ _ _ tag fields hr' hg =>
      rw [hr] at hr'
      cases hr'
      have ht := Fields.mem_keys_of_mem (Fields.mem_of_get? hg)
      obtain ⟨q, index, fs, hq, -⟩ := hm.exists_tag hr ht
      exact ⟨tag, ht, q, hq, (hm.fieldset_tag_iff hr ht hq).2 ⟨rfl, .declaredSum hr hg⟩⟩
  · rintro ⟨tag, ht, q, hq, hf⟩
    obtain ⟨rfl, hsum⟩ := (hm.fieldset_tag_iff hr ht hq).1 hf
    exact hsum

/-- The property holds at the references that are no aliases exactly if `Q` holds of a fieldset. -/
def SeesFieldsets (m : Module) (P : Ty → Prop) (Q : Module → Option String → Fields Ty → Prop) : Prop :=
  ∀ r, (∀ o t, m.resolve? r ≠ some (o, .alias t)) →
    (P (.ref r) ↔ ∃ o mark fields, m.Fieldset (.ref r) o mark fields ∧ Q o mark fields)

variable {P : Ty → Prop} {Q : Module → Option String → Fields Ty → Prop}

theorem Sound.not_alias_tag (hm : m.Sound) (hr : m.resolve? r = some (owner, .sum variants))
    (ht : tag ∈ Fields.keys variants) (hq : m.beside? r tag = some q) (t : Ty) :
    m.resolve? q ≠ some (o, .alias t) := by
  obtain ⟨q', index, fields, hq', -, hv, -⟩ := hm.exists_tag hr ht
  rw [hq, Option.some.injEq] at hq'
  rw [hq', hv]
  simp

/-- The mark of what holds at a tag is the tag. -/
theorem Sound.mark_of_tag (hm : m.Sound) (hr : m.resolve? r = some (owner, .sum variants))
    (ht : tag ∈ Fields.keys variants) (hq : m.beside? r tag = some q) (hP : m.SeesFieldsets P Q)
    (h : P (.ref q)) : ∃ o fields, Q o (some tag) fields := by
  obtain ⟨o, mark, fields, hf, hQ⟩ := (hP q fun o t => hm.not_alias_tag hr ht hq t).1 h
  obtain ⟨rfl, -⟩ := (hm.fieldset_tag_iff hr ht hq).1 hf
  exact ⟨o, fields, hQ⟩

theorem Sound.sum_iff_existsUnique_tag (hm : m.Sound)
    (hr : m.resolve? r = some (owner, .sum variants)) (hP : m.SeesFieldsets P Q)
    (hone : ∀ o o' mark mark' fields fields', Q o mark fields → Q o' mark' fields' → mark = mark') :
    P (.ref r) ↔
      ∃! tag, tag ∈ Fields.keys variants ∧ ∃ q, m.beside? r tag = some q ∧ P (.ref q) := by
  have hsum := hP r fun o t => by rw [hr]; simp
  constructor
  · intro h
    obtain ⟨o, mark, fields, hf, hQ⟩ := hsum.1 h
    obtain ⟨tag, ht, q, hq, hf⟩ := (hm.fieldset_sum_iff hr).1 hf
    obtain ⟨rfl, -⟩ := (hm.fieldset_tag_iff hr ht hq).1 hf
    have htag := (hP q fun o t => hm.not_alias_tag hr ht hq t).2 ⟨o, _, fields, hf, hQ⟩
    refine ⟨tag, ⟨ht, q, hq, htag⟩, ?_⟩
    rintro tag' ⟨ht', q', hq', h'⟩
    obtain ⟨o', fields', hQ'⟩ := hm.mark_of_tag hr ht' hq' hP h'
    exact Option.some.inj (hone _ _ _ _ _ _ hQ' hQ)
  · rintro ⟨tag, ⟨ht, q, hq, h⟩, -⟩
    obtain ⟨o, mark, fields, hf, hQ⟩ := (hP q fun o t => hm.not_alias_tag hr ht hq t).1 h
    exact hsum.2 ⟨o, mark, fields, (hm.fieldset_sum_iff hr).2 ⟨tag, ht, q, hq, hf⟩, hQ⟩

end Module

namespace Codec

variable {m owner : Module} {r : Ref} {variants : List Variant} {room limit : Nat} {j : Json} {v a b : Value}

theorem fieldsValue_mark {tag tag' : Option String} {xs ys : Fields Value}
    (h : fieldsValue tag xs = fieldsValue tag' ys) : tag = tag' := by
  cases tag <;> cases tag' <;> simp_all [fieldsValue]

/-! ### The operations see fieldsets -/

/-- The document holds the fields under the tag, and the value is made of what is read there. -/
def FieldsRead (room : Nat) (j : Json) (v : Value) (o : Module) (tag : Option String)
    (fields : Fields Ty) : Prop :=
  ∃ props parts, j = .obj props ∧ fields = parts.map FieldPart.field ∧ HoldsParts tag parts props ∧
    (∀ p ∈ parts, Reads room o p.ty p.doc p.value) ∧
    v = fieldsValue tag (Fields.ofList (parts.map FieldPart.named))

theorem reads_seesFieldsets (m : Module) (room : Nat) (j : Json) (v : Value) :
    m.SeesFieldsets (fun t => Reads (room + 1) m t j v) (FieldsRead room j v) := by
  intro r hr
  constructor
  · intro h
    cases h with
    | «alias» hr' _ => exact absurd hr' (hr _ _)
    | fields parts hf hp hread => exact ⟨_, _, _, hf, _, parts, rfl, rfl, hp, hread, rfl⟩
  · rintro ⟨o, tag, fields, hf, props, parts, rfl, rfl, hp, hread, rfl⟩
    exact .fields parts hf hp hread

theorem FieldsRead.mark {room' : Nat} {j' : Json} {o o' : Module} {tag tag' : Option String}
    {fields fields' : Fields Ty} (h : FieldsRead room j v o tag fields)
    (h' : FieldsRead room' j' v o' tag' fields') : tag = tag' := by
  obtain ⟨props, parts, -, -, -, -, rfl⟩ := h
  obtain ⟨props', parts', -, -, -, -, hv⟩ := h'
  exact fieldsValue_mark hv

/-- The value has the fields under the tag, and the document is made of what they are written as. -/
def FieldsWritten (v : Value) (j : Json) (o : Module) (tag : Option String) (fields : Fields Ty) : Prop :=
  ∃ values, v = fieldsValue tag values ∧ writeFields o fields (fieldWriters values) tag = .ok j

theorem writeAs_seesFieldsets (m : Module) (v : Value) (j : Json) :
    m.SeesFieldsets (fun t => writeAs v m t = .ok j) (FieldsWritten v j) := by
  intro r hr
  constructor
  · intro h
    obtain ⟨o, tag, fields, values, hf, rfl⟩ := exists_fieldset_of_writeAs rfl (by simp) (by simp)
      (by simp) (fun r' o t he => by cases he; exact hr o t) h
    rw [writeAs_of_fieldset hf] at h
    exact ⟨o, tag, fields, hf, values, rfl, h⟩
  · rintro ⟨o, tag, fields, hf, values, rfl, h⟩
    show writeAs _ m _ = _
    rw [writeAs_of_fieldset hf, h]

theorem FieldsWritten.mark {j' : Json} {o o' : Module} {tag tag' : Option String}
    {fields fields' : Fields Ty} (h : FieldsWritten v j o tag fields)
    (h' : FieldsWritten v j' o' tag' fields') : tag = tag' := by
  obtain ⟨values, rfl, -⟩ := h
  obtain ⟨values', hv, -⟩ := h'
  exact fieldsValue_mark hv

/-- Both values have the fields under the tag, and they are equal field by field. -/
def FieldsEqual (a b : Value) (o : Module) (tag : Option String) (fields : Fields Ty) : Prop :=
  ∃ xs ys, a = fieldsValue tag xs ∧ b = fieldsValue tag ys ∧
    equalFields o fields (fieldTesters xs) ys = true

theorem equalAs_seesFieldsets (hm : m.Sound) (a b : Value) :
    m.SeesFieldsets (fun t => equalAs a m t b = true) (FieldsEqual a b) := by
  intro r hr
  constructor
  · intro h
    obtain ⟨hi, hs⟩ := inhabits_of_equalAs hm (Ty.Proper.namesDiffer (t := .ref r) trivial) h
    cases hi with
    | «alias» hr' _ => exact absurd hr' (hr _ _)
    | @fields _ o _ tag fields xs hf _ _ =>
      obtain ⟨ys, rfl⟩ := exists_fieldsValue_of_same hs
      exact ⟨o, tag, fields, hf, xs, ys, rfl, rfl, equalFields_iff.2 ((equalAs_fields hf xs ys).1 h)⟩
  · rintro ⟨o, tag, fields, hf, xs, ys, rfl, rfl, h⟩
    exact (equalAs_fields hf xs ys).2 (equalFields_iff.1 h)

theorem FieldsEqual.mark {b' : Value} {o o' : Module} {tag tag' : Option String}
    {fields fields' : Fields Ty} (h : FieldsEqual a b o tag fields)
    (h' : FieldsEqual a b' o' tag' fields') : tag = tag' := by
  obtain ⟨xs, ys, rfl, -, -⟩ := h
  obtain ⟨xs', ys', ha, -, -⟩ := h'
  exact fieldsValue_mark ha

/-! ### The union -/

/-- A tag that the sum does not have is reported with the name of the sum. -/
theorem readWithin_unknownTag (hr : m.resolve? r = some (owner, .sum variants)) {props : Fields Json}
    {tag : String} (hp : Fields.get? props discriminator = some (.str tag))
    (ht : tag ∉ Fields.keys variants) :
    readWithin limit (room + 1) m (.ref r) (.obj props) = .error (.unknownTag r.name tag) := by
  have htag : tagOf (.obj props) r.name = .ok tag := tagOf_eq_ok.2 ⟨props, rfl, hp⟩
  rw [readWithin_succ_of_nested rfl, enter, hr]
  show readSum _ r.name variants _ = _
  rw [readSum, htag, ok_bind, Fields.get?_eq_none_iff.2 ht]
  rfl

/-- A declared sum is the disjoint union of its tags, in reading, writing and comparing alike. -/
theorem sum_disjoint_union {c : Codec} (hm : c.scope.Built) (hd : 1 ≤ c.maxDepth)
    (hr : c.scope.resolve? r = some (owner, .sum variants)) :
    (∀ tag ∈ Fields.keys variants, ∃ q, c.scope.beside? r tag = some q) ∧
    (∀ j v, c.decode (.ref r) j = .ok v ↔
      ∃! tag, tag ∈ Fields.keys variants ∧
        ∃ q, c.scope.beside? r tag = some q ∧ c.decode (.ref q) j = .ok v) ∧
    (∀ tag ∈ Fields.keys variants, ∀ q, c.scope.beside? r tag = some q → ∀ j v,
      c.decode (.ref q) j = .ok v → ∃ fields, v = .variant tag fields) ∧
    (∀ props tag, Fields.get? props discriminator = some (.str tag) → tag ∉ Fields.keys variants →
      c.decode (.ref r) (.obj props) = .error (.unknownTag r.name tag)) ∧
    (∀ a x, c.encodeAs (.ref r) a = .ok x ↔
      ∃! tag, tag ∈ Fields.keys variants ∧
        ∃ q, c.scope.beside? r tag = some q ∧ c.encodeAs (.ref q) a = .ok x) ∧
    (∀ a b, c.equals (.ref r) a b = true ↔
      ∃! tag, tag ∈ Fields.keys variants ∧
        ∃ q, c.scope.beside? r tag = some q ∧ c.equals (.ref q) a b = true) := by
  obtain ⟨scope, depth⟩ := c
  obtain ⟨room, rfl⟩ := Nat.exists_eq_add_of_le' hd
  have hs : scope.Sound := hm.sound
  have hdecode : ∀ t j v, (⟨scope, room + 1⟩ : Codec).decode t j = .ok v ↔ Reads (room + 1) scope t j v :=
    fun t j v => readWithin_eq_ok
  refine ⟨?_, ?_, ?_, ?_, ?_, ?_⟩
  · intro tag ht
    obtain ⟨q, -, -, hq, -⟩ := hs.exists_tag hr ht
    exact ⟨q, hq⟩
  · intro j v
    simp only [hdecode]
    exact hs.sum_iff_existsUnique_tag hr (reads_seesFieldsets scope room j v)
      fun _ _ _ _ _ _ h h' => h.mark h'
  · intro tag ht q hq j v h
    obtain ⟨o, fields, hread⟩ := hs.mark_of_tag hr ht hq (reads_seesFieldsets scope room j v)
      ((hdecode _ _ _).1 h)
    obtain ⟨props, parts, -, -, -, -, hv⟩ := hread
    exact ⟨_, hv⟩
  · intro props tag hp ht
    exact readWithin_unknownTag hr hp ht
  · intro a x
    exact hs.sum_iff_existsUnique_tag hr (writeAs_seesFieldsets scope a x)
      fun _ _ _ _ _ _ h h' => h.mark h'
  · intro a b
    exact hs.sum_iff_existsUnique_tag hr (equalAs_seesFieldsets hs a b)
      fun _ _ _ _ _ _ h h' => h.mark h'

/-- A document of a path, its tag last. -/
def lonePathDoc : Json :=
  .obj [("rest", .arr []), ("first", .obj [("next", .null), ("value", .str "-3")]), ("_type", .str "Path")]

def lonePath : Value :=
  .variant "Path" [("first", .record [("value", .i64 (-3)), ("next", .absent)]), ("rest", .list [])]

/-- The path is read at exactly one of the tags of shapes, and a line at none. -/
theorem sum_disjoint_union_shape :
    ∃ variants, Module.drawings.resolve? ⟨none, "Shape", 0⟩ = some (Module.drawings, .sum variants) ∧
      Fields.keys variants = ["Dot", "Path"] ∧
      (⟨Module.drawings, 3⟩ : Codec).decode (.ref ⟨none, "Shape", 0⟩) lonePathDoc = .ok lonePath ∧
      (∃! tag, tag ∈ Fields.keys variants ∧ ∃ q, Module.drawings.beside? ⟨none, "Shape", 0⟩ tag = some q ∧
        (⟨Module.drawings, 3⟩ : Codec).decode (.ref q) lonePathDoc = .ok lonePath) ∧
      (⟨Module.drawings, 3⟩ : Codec).decode (.ref ⟨none, "Shape", 0⟩) (.obj [("_type", .str "Line")]) =
        .error (.unknownTag "Shape" "Line") ∧
      (∃! tag, tag ∈ Fields.keys variants ∧ ∃ q, Module.drawings.beside? ⟨none, "Shape", 0⟩ tag = some q ∧
        (⟨Module.drawings, 3⟩ : Codec).equals (.ref q) lonePath lonePath = true) := by
  have hr : Module.drawings.resolve? ⟨none, "Shape", 0⟩ = some (Module.drawings, .sum _) := rfl
  obtain ⟨-, hdecode, -, hunknown, -, hequals⟩ :=
    sum_disjoint_union (c := ⟨Module.drawings, 3⟩) Module.drawings_built (by decide) hr
  have hpath : (⟨Module.drawings, 3⟩ : Codec).decode (.ref ⟨none, "Shape", 0⟩) lonePathDoc =
      .ok lonePath := by cbv
  have hequal : (⟨Module.drawings, 3⟩ : Codec).equals (.ref ⟨none, "Shape", 0⟩) lonePath lonePath =
      true := by cbv
  refine ⟨_, hr, rfl, hpath, (hdecode _ _).1 hpath, ?_, (hequals _ _).1 hequal⟩
  exact hunknown _ _ rfl (by decide)

end Codec

end Wireform
