import Mathlib
import Wireform.Proofs.Codec.Wire
import Wireform.Proofs.Schema.Definitions
import Wireform.Proofs.Schema.Optional

/-!
# Documents conform to exported schemas

What is on the wire at a type validates against the schema of the type, with references looked up
among the definitions of the module. The two follow the same types: a variant is told from the
others by its tag, so exactly one schema of a sum accepts it.
-/

namespace Wireform.Schema

open Codec

variable {document : Json}

/-! ### Scalars -/

theorem passes_minimum {low n : Int} (h : low ≤ n) (declared : List String) :
    Passes document declared (.ofInt n) "minimum" (.ofInt low) := by
  refine ⟨0, fun _ _ => ?_⟩
  show some (decide ((low : ℚ) ≤ n)) = some true
  simpa using h

theorem passes_maximum {high n : Int} (h : n ≤ high) (declared : List String) :
    Passes document declared (.ofInt n) "maximum" (.ofInt high) := by
  refine ⟨0, fun _ _ => ?_⟩
  show some (decide ((n : ℚ) ≤ high)) = some true
  simpa using h

theorem passes_pattern {s pattern : String} {q : Pattern} (hq : Pattern.ofText? pattern = some q)
    (hs : q.found s = true) (declared : List String) :
    Passes document declared (.str s) "pattern" (.str pattern) := by
  refine ⟨0, fun _ _ => ?_⟩
  show (Pattern.ofText? pattern).map (fun q => q.found s) = some true
  rw [hq, Option.map_some, hs]

theorem hasType_integer (n : Int) : hasType "integer" (.ofInt n) = some true := by
  show some ((n : ℚ).den == 1) = some true
  simp

theorem eq_ofInt_of_int? {j : Json} {n : Int} (h : j.int? = some n) : j = .ofInt n := by
  unfold Json.int? at h
  split at h
  · exact congrArg Json.ofInt (Option.some.inj h)
  · cases h

theorem passes_integerBetween {low high n : Int} (hl : low ≤ n) (hh : n ≤ high) :
    ∀ e ∈ integerBetween low high, Passes document [] (.ofInt n) e.1 e.2 := by
  simp only [integerBetween, List.forall_mem_cons, List.not_mem_nil, IsEmpty.forall_iff,
    implies_true, and_true]
  exact ⟨passes_type (hasType_integer n), passes_minimum hl _, passes_maximum hh _⟩

theorem passes_numeral {s pattern : String} {q : Pattern} (hq : Pattern.ofText? pattern = some q)
    (hs : q.found s = true) :
    ∀ e ∈ [("type", Json.str "string"), ("pattern", .str pattern)],
      Passes document [] (.str s) e.1 e.2 := by
  simp only [List.forall_mem_cons, List.not_mem_nil, IsEmpty.forall_iff, implies_true, and_true]
  exact ⟨passes_type rfl, passes_pattern hq hs _⟩

theorem validates_scalar_of_passes {p : Prim} {j : Json}
    (h : ∀ e ∈ scalarKeywords p, Passes document [] j e.1 e.2) : Validates document (scalar p) j := by
  have hr : Fields.get? (scalarKeywords p ++ [("$comment", .str p.name)]) "$ref" = none := by
    cases p <;> rfl
  have hn : declaredNames (scalarKeywords p ++ [("$comment", .str p.name)]) = [] := by
    cases p <;> rfl
  rw [scalar, validates_obj hr, hn]
  exact List.forall_mem_append.2 ⟨h, by simpa using passes_remark (by simp [remarks])⟩

/-- What is read as a scalar is a document as its keywords describe it. -/
theorem validates_scalar {p : Prim} {j : Json} {v : Value} (h : readScalar? p j = some v)
    (hw : ∀ n, j = .num n → p ≠ .i64 ∧ p ≠ .u64) : Validates document (scalar p) j := by
  refine validates_scalar_of_passes ?_
  cases p with
  | i32 =>
    obtain ⟨w, hr, -⟩ := Option.map_eq_some_iff.1 h
    obtain ⟨n, hn, hi⟩ := Option.bind_eq_some_iff.1 hr
    obtain rfl := eq_ofInt_of_int? hn
    unfold int32? at hi
    split at hi
    · exact passes_integerBetween (by omega) (by omega)
    · cases hi
  | u32 =>
    obtain ⟨w, hr, -⟩ := Option.map_eq_some_iff.1 h
    obtain ⟨n, hn, hi⟩ := Option.bind_eq_some_iff.1 hr
    obtain rfl := eq_ofInt_of_int? hn
    unfold uint32? at hi
    split at hi
    · exact passes_integerBetween (by omega) (by omega)
    · cases hi
  | i64 =>
    obtain ⟨w, hr, -⟩ := Option.map_eq_some_iff.1 h
    cases j with
    | str s =>
      obtain ⟨n, hn, -⟩ := Option.bind_eq_some_iff.1 hr
      exact passes_numeral ofText?_integer (found_integer hn)
    | num n => exact absurd rfl (hw n rfl).1
    | _ => cases hr
  | u64 =>
    obtain ⟨w, hr, -⟩ := Option.map_eq_some_iff.1 h
    cases j with
    | str s =>
      obtain ⟨n, hn, -⟩ := Option.bind_eq_some_iff.1 hr
      exact passes_numeral ofText?_natural (found_natural hn)
    | num n => exact absurd rfl (hw n rfl).2
    | _ => cases hr
  | f64 =>
    cases j with
    | num n => simpa [scalarKeywords] using passes_type rfl
    | _ => cases h
  | boolean =>
    cases j with
    | bool b => simpa [scalarKeywords] using passes_type rfl
    | _ => cases h
  | str | ident =>
    cases j with
    | str s => simpa [scalarKeywords] using passes_type rfl
    | _ => cases h
  | binary =>
    cases j with
    | str s => simpa [scalarKeywords] using ⟨passes_type rfl, passes_remark (by simp [remarks])⟩
    | _ => cases h

/-! ### Objects with fixed names -/

theorem validates_objectOf {schemas props : Fields Json} (hd : Fields.Distinct schemas)
    (hk : (Fields.keys schemas).Perm (Fields.keys props))
    (h : ∀ s ∈ schemas, ∃ x, Fields.get? props s.1 = some x ∧ Validates document s.2 x) :
    Validates document (objectOf schemas) (.obj props) := by
  have hn : schemas.map (fun p => Json.str p.1) = (Fields.keys schemas).map .str := by
    rw [Fields.keys, List.map_map]
    rfl
  rw [objectOf, validates_obj rfl, Fields.ofList_of_distinct hd, hn]
  simp only [List.forall_mem_cons, List.not_mem_nil, IsEmpty.forall_iff, implies_true, and_true]
  refine ⟨passes_type rfl, passes_properties h, passes_required fun k hm => hk.mem_iff.1 hm,
    passes_additional fun p hp => .inl ?_⟩
  exact hk.mem_iff.2 (Fields.mem_keys_of_mem hp)

/-- Exactly the first keyword beside the type decides. -/
theorem rejects_objectOf {schemas props : Fields Json} (hd : Fields.Distinct schemas)
    {name : String} {schema x : Json} (hs : (name, schema) ∈ schemas)
    (hx : Fields.get? props name = some x) (h : Rejects document schema x) :
    Rejects document (objectOf schemas) (.obj props) := by
  obtain ⟨n, hn⟩ := h
  rw [objectOf, Fields.ofList_of_distinct hd]
  refine rejects_obj rfl (k := ("properties", .obj schemas)) (by simp) (n := n) fun steps hsteps => ?_
  refine Verdict.all_eq_false (List.mem_map.2 ⟨(name, schema), hs, ?_⟩)
  simp only [hx]
  exact hn steps hsteps

theorem ofFields_eq (w : Option String) (fields : Fields Ty) :
    ofFields w fields = fields.map fun f => (f.1, ofTyWithin w f.2) := by
  induction fields with
  | nil => rw [ofFields]; rfl
  | cons f fields ih => rw [ofFields, ih]; rfl

theorem ofVariants_eq (w : Option String) (variants : List Variant) :
    ofVariants w variants = variants.map (ofVariant w) := by
  induction variants with
  | nil => rw [ofVariants]; rfl
  | cons v variants ih => rw [ofVariants, ih]; rfl

/-- The schema of the discriminator. -/
def tagSchemas : Option String → Fields Json
  | none => []
  | some tag => [(discriminator, .obj [("const", .str tag)])]

/-- The schema of an object with fixed names. -/
def fieldsSchema (w tag : Option String) (fields : Fields Ty) : Json :=
  objectOf (tagSchemas tag ++ ofFields w fields)

theorem keys_fieldsSchema (w tag : Option String) (fields : Fields Ty) :
    Fields.keys (tagSchemas tag ++ ofFields w fields) =
      expectedNames tag.isSome (Fields.keys fields) := by
  rw [Fields.keys_append, ofFields_eq]
  cases tag <;> simp [tagSchemas, expectedNames, Fields.keys]

theorem distinct_fieldsSchema {w tag : Option String} {fields : Fields Ty}
    (h : Fields.Proper tag fields) : Fields.Distinct (tagSchemas tag ++ ofFields w fields) := by
  unfold Fields.Distinct
  rw [keys_fieldsSchema]
  cases tag with
  | none => exact h.distinct
  | some tag => exact List.nodup_cons.2 ⟨h.untagged rfl, h.distinct⟩

theorem validates_const (s : String) :
    Validates document (.obj [("const", .str s)]) (.str s) := by
  rw [validates_obj rfl]
  simpa using passes_const

theorem rejects_const {s s' : String} (h : s' ≠ s) :
    Rejects document (.obj [("const", .str s)]) (.str s') := by
  refine rejects_obj rfl (List.mem_singleton_self _) (n := 0) fun _ _ => ?_
  show some ((Json.str s').str? == some s) = some false
  simpa [Json.str?] using h

theorem validates_fieldsSchema {w tag : Option String} {parts : List FieldPart} {props : Fields Json}
    (hp : Fields.Proper tag (parts.map FieldPart.field)) (hh : HoldsParts tag parts props)
    (h : ∀ p ∈ parts, Validates document (ofTyWithin w p.ty) p.doc) :
    Validates document (fieldsSchema w tag (parts.map FieldPart.field)) (.obj props) := by
  have hd := distinct_fieldsSchema (w := w) hp
  have hk := keys_fieldsSchema w tag (parts.map FieldPart.field)
  refine validates_objectOf hd ?_ (List.forall_mem_append.2 ⟨?_, ?_⟩)
  · refine perm_of_hasNames hd ?_
    rw [hk, keys_field]
    exact hh.names
  · cases tag with
    | none => simp [tagSchemas]
    | some s => simpa [tagSchemas] using ⟨_, hh.tag s rfl, validates_const s⟩
  · rw [ofFields_eq, List.map_map, List.forall_mem_map]
    exact fun p hm => ⟨p.doc, hh.docs p hm, h p hm⟩

theorem rejects_fieldsSchema {w : Option String} {s s' : String} {fields : Fields Ty}
    {props : Fields Json} (hp : Fields.Proper (some s) fields)
    (hs : Fields.get? props discriminator = some (.str s')) (hne : s' ≠ s) :
    Rejects document (fieldsSchema w (some s) fields) (.obj props) :=
  rejects_objectOf (distinct_fieldsSchema hp)
    (List.mem_append_left _ (List.mem_singleton_self (discriminator, Json.obj [("const", .str s)])))
    hs (rejects_const hne)

/-! ### Types -/

/-- A sum whose tags differ accepts an object by the variant of its tag alone. -/
theorem validates_oneOf {variants : List Variant} {s : String} {fields : Fields Ty}
    {schema : Variant → Json} {props : Fields Json} (hd : Fields.Distinct variants)
    (hg : Fields.get? variants s = some fields) (hv : Validates document (schema (s, fields)) (.obj props))
    (hr : ∀ v ∈ variants, v.1 ≠ s → Rejects document (schema v) (.obj props)) :
    Validates document (.obj [("oneOf", .arr (variants.map schema))]) (.obj props) := by
  obtain ⟨pre, post, he⟩ := List.append_of_mem (Fields.mem_of_get? hg)
  unfold Fields.Distinct at hd
  rw [he, Fields.keys_append, Fields.keys_cons, List.nodup_append] at hd
  rw [validates_obj rfl, he, List.map_append, List.map_cons]
  simp only [List.forall_mem_singleton]
  refine passes_oneOf hv (List.forall_mem_map.2 fun v hm => ?_) (List.forall_mem_map.2 fun v hm => ?_)
  · refine hr v (by simp [he, hm]) fun hs => ?_
    exact hd.2.2 v.1 (Fields.mem_keys_of_mem hm) s (by simp) hs
  · refine hr v (by simp [he, hm]) fun hs => ?_
    exact (List.nodup_cons.1 hd.2.1).1 (hs ▸ Fields.mem_keys_of_mem hm)

theorem validates_arrayOf {schema : Json} {items : List Json}
    (h : ∀ x ∈ items, Validates document schema x) :
    Validates document (arrayOf schema) (.arr items) := by
  rw [arrayOf, validates_obj rfl]
  simp only [List.forall_mem_cons, List.not_mem_nil, IsEmpty.forall_iff, implies_true, and_true]
  exact ⟨passes_type rfl, passes_items h⟩

theorem validates_anyProps {schema : Json} {props : Fields Json}
    (h : ∀ p ∈ props, Validates document schema p.2) :
    Validates document (.obj [("type", .str "object"), ("additionalProperties", schema)])
      (.obj props) := by
  rw [validates_obj rfl]
  simp only [List.forall_mem_cons, List.not_mem_nil, IsEmpty.forall_iff, implies_true, and_true]
  exact ⟨passes_type rfl, passes_additional fun p hp => .inr (h p hp)⟩

section

variable {root m : Module} {w : Option String}

theorem prop?_ofModule (root : Module) :
    (ofModule root).prop? "$defs" = some (.obj (definitions root)) := rfl

/-- The tags of a declared sum are different, since each is the name of a declaration. -/
theorem distinct_tags (hm : m.Orderly) {name : String} {variants : List Variant}
    (h : (name, Decl.sum variants) ∈ m.decls) : Fields.Distinct variants :=
  Module.distinct_of_tags fun i v hv => hm.distinct.get?_eq_some (hm.tags name variants h i v hv)

/-- A tag of a declared sum is defined as its variant. -/
theorem get?_definitions_tag (hq : Qualified root w m) (hr : root.Sound) (hu : root.Unambiguous)
    {name : String} {variants : List Variant} (h : (name, Decl.sum variants) ∈ m.decls)
    {v : Variant} (hv : v ∈ variants) :
    Fields.get? (definitions root) (localKey w v.1) = some (fieldsSchema w (some v.1) v.2) := by
  have hm := (hq.sound hr).orderly
  obtain ⟨i, hi⟩ := List.getElem?_of_mem hv
  have hvar : m.variant? name i = some v := by
    rw [Module.variant?, Module.get?, hm.distinct.get?_eq_some h]
    exact hi
  have hd := hq.get?_definitions hr hu (hm.tags name variants h i v hi)
  rw [ofDecl, hvar] at hd
  exact hd

/-- What is on the wire at a type validates against the schema of the type. -/
theorem validates_of_onWire (hr : root.Sound) (hu : root.Unambiguous) {t : Ty} {j : Json}
    (h : OnWire m t j) (hq : Qualified root w m) (ht : t.Proper) (hx : t.Exclusive) :
    Validates (ofModule root) (ofTyWithin w t) j := by
  induction h generalizing w with
  | scalar h hw =>
    rw [ofTyWithin]
    exact validates_scalar h hw
  | @annot m doc t j _ ih =>
    obtain ⟨keywords, he, hex⟩ := exported_ofTyWithin w t
    rw [ofTyWithin, he]
    exact hex.validates_describe doc (he ▸ ih hq ht hx)
  | @null m t =>
    obtain ⟨keywords, he, hex⟩ := exported_ofTyWithin w t
    rw [ofTyWithin, he]
    exact hex.validates_null
  | @optional m t j _ ih =>
    obtain ⟨keywords, he, hex⟩ := exported_ofTyWithin w t
    rw [ofTyWithin, he]
    exact hex.validates_nullable_iff.2 (.inr (he ▸ ih hq ht hx))
  | list _ ih =>
    rw [ofTyWithin]
    exact validates_arrayOf fun x hx' => ih x hx' hq ht hx
  | object _ ih =>
    rw [ofTyWithin]
    exact validates_anyProps fun p hp => ih p hp hq ht hx
  | map parts hn hk hv _ _ ihk ihv =>
    rw [ofTyWithin]
    refine validates_arrayOf (List.forall_mem_map.2 fun p hp => ?_)
    refine validates_objectOf (by simp [Fields.Distinct, Fields.keys])
      (perm_of_hasNames (by simp) (hn p hp)) ?_
    simp only [List.forall_mem_cons, List.not_mem_nil, IsEmpty.forall_iff, implies_true, and_true]
    exact ⟨⟨p.keyDoc, hk p hp, ihk p hp hq ht.1 hx.1⟩, ⟨p.valueDoc, hv p hp, ihv p hp hq ht.2 hx.2⟩⟩
  | «alias» hd _ ih =>
    obtain ⟨w', hq', hkey⟩ := hq.refKey_eq hr hd
    rw [ofTyWithin, hkey]
    have hm := hq.sound hr
    exact validates_ref (prop?_ofModule root)
      (hq'.get?_definitions hr hu (Module.mem_decls_of_resolve? hd))
      (ih hq' (hm.decl_proper hd) (hm.decl_exclusive hd))
  | @fields m owner t tag props parts hf hh _ ih =>
    have hm := hq.sound hr
    have hp := hf.proper hm ht
    have hxs := hf.exclusive hm hx
    have hfields : ∀ {w'}, Qualified root w' owner →
        Validates (ofModule root) (fieldsSchema w' tag (parts.map FieldPart.field)) (.obj props) :=
      fun hq' => validates_fieldsSchema hp hh fun p hm =>
        ih p hm hq' (hp.types _ (List.mem_map_of_mem hm)) (hxs _ (List.mem_map_of_mem hm))
    have hrejects : ∀ {w'} {v : Variant}, Fields.Proper (some v.1) v.2 → (∃ s ∈ tag, v.1 ≠ s) →
        Rejects (ofModule root) (fieldsSchema w' (some v.1) v.2) (.obj props) := by
      rintro w' v hp ⟨s, hs, hne⟩
      exact rejects_fieldsSchema hp (hh.tag s hs) (Ne.symm hne)
    cases hf with
    | record =>
      rw [ofTyWithin]
      exact hfields hq
    | sum hg =>
      rw [ofTyWithin, ofVariants_eq]
      exact validates_oneOf (Ty.exclusive_sum.1 hx).1 hg (hfields hq) fun v hv hne =>
        hrejects (Ty.proper_sum.1 ht v hv) ⟨_, rfl, hne⟩
    | struct hd =>
      obtain ⟨w', hq', hkey⟩ := hq.refKey_eq hr hd
      rw [ofTyWithin, hkey]
      exact validates_ref (prop?_ofModule root)
        (hq'.get?_definitions hr hu (Module.mem_decls_of_resolve? hd)) (hfields hq')
    | declaredSum hd hg =>
      obtain ⟨w', hq', hkey⟩ := hq.refKey_eq hr hd
      have hmem := Module.mem_decls_of_resolve? hd
      have htag := fun {v} => get?_definitions_tag hq' hr hu hmem (v := v)
      rw [ofTyWithin, hkey]
      refine validates_ref (prop?_ofModule root) (hq'.get?_definitions hr hu hmem) ?_
      refine validates_oneOf (distinct_tags (hq'.sound hr).orderly hmem) hg ?_ fun v hv hne => ?_
      · exact validates_ref (prop?_ofModule root) (htag (Fields.mem_of_get? hg)) (hfields hq')
      · exact rejects_ref (prop?_ofModule root) (htag hv)
          (hrejects (hm.decl_proper hd v hv) ⟨_, rfl, hne⟩)
    | variant hd hv =>
      obtain ⟨w', hq', hkey⟩ := hq.refKey_eq hr hd
      have hdef := hq'.get?_definitions hr hu (Module.mem_decls_of_resolve? hd)
      rw [ofDecl, hv] at hdef
      rw [ofTyWithin, hkey]
      exact validates_ref (prop?_ofModule root) hdef (hfields hq')

end

/-- A place, if something was found there. -/
def placeTy : Ty := .sum [("Missing", []), ("Found", [("at", .optional (.prim .i64))])]

def place : Value := .variant "Found" [("at", .present (.i64 (-5)))]

def placeDoc : Json := .obj [("_type", .str "Found"), ("at", .str "-5")]

end Wireform.Schema
