import Mathlib
import Wireform.Compiled.Basic
import Wireform.Proofs.Codec.Reads
import Wireform.Proofs.Source.Resolve

/-!
# Compiled types beside declared ones

A reader of a compiled type looks at the shape of a document and then counts a level, a reader at a
declared type does it the other way round, so they differ only where the second has come to its limit.
`Agrees` says this of two outcomes. It passes from the parts of a type to the type, so two types that
are built alike, down to declarations that are built alike, are read alike (`Models.agrees`).
-/

namespace Wireform

namespace Compiled

/-! ### Outcomes -/

/-- What a compiled reader gives beside what a reader at a declared type gives: the same value, or two
errors that `R` relates, unless the second is that the limit is reached. -/
inductive Agrees (R : CodecError → CodecError → Prop) {α : Type} :
    Except CodecError α → Except CodecError α → Prop
  | ok (a : α) : Agrees R (.ok a) (.ok a)
  | limit (e : CodecError) (n : Nat) : Agrees R (.error e) (.error (.depthLimit n))
  | error {e e' : CodecError} : R e e' → Agrees R (.error e) (.error e')

namespace Agrees

variable {R : CodecError → CodecError → Prop} {α β γ δ : Type}

theorem refl (hR : ∀ e, R e e) (x : Except CodecError α) : Agrees R x x := by
  cases x with
  | ok a => exact .ok a
  | error e => exact .error (hR e)

theorem eq_ok_iff {x y : Except CodecError α} (h : Agrees R x y) (a : α) : x = .ok a ↔ y = .ok a := by
  cases h with
  | ok b => exact Iff.rfl
  | limit e n => simp
  | error he => simp

/-- What the errors have to do with each other, where the second is not that of the limit. -/
theorem related {x y : Except CodecError α} (h : Agrees R x y) {e e' : CodecError} (hx : x = .error e)
    (hy : y = .error e') (hl : ∀ n, e' ≠ .depthLimit n) : R e e' := by
  cases h with
  | ok a => cases hx
  | limit d n =>
    cases hy
    exact absurd rfl (hl n)
  | error he =>
    cases hx
    cases hy
    exact he

theorem bind {x y : Except CodecError α} {f g : α → Except CodecError β} (h : Agrees R x y)
    (hf : ∀ a, y = .ok a → Agrees R (f a) (g a)) : Agrees R (x >>= f) (y >>= g) := by
  cases h with
  | ok a => exact hf a rfl
  | limit e n => exact .limit e n
  | error he => exact .error he

theorem map {x y : Except CodecError α} (f : α → β) (h : Agrees R x y) :
    Agrees R (do return f (← x)) (do return f (← y)) :=
  h.bind fun a _ => .ok (f a)

theorem mapM {f : γ → Except CodecError α} {g : δ → Except CodecError α} {l : List γ} {l' : List δ}
    (h : List.Forall₂ (fun x y => Agrees R (f x) (g y)) l l') :
    Agrees R (l.mapM f) (l'.mapM g) := by
  induction h with
  | nil => exact .ok []
  | cons hx _ ih =>
    rw [List.mapM_cons, List.mapM_cons]
    exact hx.bind fun a _ => ih.bind fun as _ => .ok (a :: as)

end Agrees

/-- Errors that differ in their context only are related. -/
structure Alike (R : CodecError → CodecError → Prop) (a b : String) : Prop where
  conversion : ∀ j, R (.conversion a j) (.conversion b j)
  mismatch : ∀ why, R (.mismatch a why) (.mismatch b why)
  unknownTag : ∀ tag, R (.unknownTag a tag) (.unknownTag b tag)

/-! ### Types that are built alike -/

/-- A compiled type and a type are built alike; where that comes to an end, `leaf` relates them. -/
inductive Models (leaf : CTy → Ty → Prop) : CTy → Ty → Prop
  | prim (p : Prim) : Models leaf (.prim p) (.prim p)
  | optional {c : CTy} {t : Ty} : Models leaf c t → Models leaf (.optional c) (.optional t)
  | list {c : CTy} {t : Ty} : Models leaf c t → Models leaf (.list c) (.list t)
  | object {c : CTy} {t : Ty} : Models leaf c t → Models leaf (.object c) (.object t)
  | map {c d : CTy} {k t : Ty} : Models leaf c k → Models leaf d t → Models leaf (.map c d) (.map k t)
  | tuple (parts : List (CTy × Ty)) : parts ≠ [] → (∀ p ∈ parts, Models leaf p.1 p.2) →
    Models leaf (.tuple (parts.map Prod.fst)) (.tuple (parts.map Prod.snd))
  | leaf {c : CTy} {t : Ty} : leaf c t → Models leaf c t

/-- The same names in the same order, each once, and types that are built alike. -/
structure FieldsModel (leaf : CTy → Ty → Prop) (compiled : Fields CTy) (fields : Fields Ty) : Prop where
  distinct : Fields.Distinct fields
  types : List.Forall₂ (fun f g => f.1 = g.1 ∧ Models leaf f.2 g.2) compiled fields

/-- The type `t` of `m` is that of an object without a tag, and this is what messages call it. -/
inductive RecordType (m : Module) : Ty → String → Module → Fields Ty → Prop
  | inline {fields : Fields Ty} : RecordType m (.record fields) (Ty.record fields).render m fields
  | struct {r : Ref} {owner : Module} {fields : Fields Ty} :
    m.resolve? r = some (owner, .struct fields) → RecordType m (.ref r) r.name owner fields

/-- How a compiled type and a type of a module come to be related where they are not of the same form:
one of them is documented, or both stand for declarations that are built alike. -/
inductive Backed (env : Env) (R : CodecError → CodecError → Prop)
    (leaf : Module → CTy → Ty → Prop) : Module → CTy → Ty → Prop
  | annot {c : CTy} {m : Module} {doc : String} {t : Ty} :
    Models (leaf m) c t → Backed env R leaf m c (.annot doc t)
  | record {path name context : String} {m owner : Module} {t : Ty} {compiled : Fields CTy}
      {fields : Fields Ty} : env.get? path = some (.struct name compiled) →
    RecordType m t context owner fields → FieldsModel (leaf owner) compiled fields →
    Alike R name context → Backed env R leaf m (.named path) t
  | variant {path parent parent' tag : String} {m owner : Module} {r : Ref} {index : Nat}
      {compiled : Fields CTy} {fields : Fields Ty} :
    env.get? path = some (.variant parent tag compiled) →
    m.resolve? r = some (owner, .variant parent' index) →
    owner.variant? parent' index = some (tag, fields) → FieldsModel (leaf owner) compiled fields →
    Alike R parent parent' → Backed env R leaf m (.named path) (.ref r)
  | sum {path name : String} {m owner : Module} {r : Ref} {compiled : Fields (Fields CTy)}
      {variants : List Variant} : env.get? path = some (.sum name compiled) →
    m.resolve? r = some (owner, .sum variants) →
    List.Forall₂ (fun v w => v.1 = w.1 ∧ FieldsModel (leaf owner) v.2 w.2) compiled variants →
    Alike R name r.name → Backed env R leaf m (.named path) (.ref r)
  | wrapper {path name : String} {m owner : Module} {r : Ref} {c : CTy} {t : Ty} :
    env.get? path = some (.wrapper name c) → m.resolve? r = some (owner, .alias t) →
    Models (leaf owner) c t → Backed env R leaf m (.named path) (.ref r)

/-! ### Without a level left -/

/-- The result is some error. -/
def Fails {α : Type} (x : Except CodecError α) : Prop := ∃ e, x = .error e

namespace Fails

variable {α β : Type} {x : Except CodecError α} {f : α → Except CodecError β}

theorem error (e : CodecError) : Fails (.error e : Except CodecError α) := ⟨e, rfl⟩

theorem bind (h : ∀ a, Fails (f a)) : Fails (x >>= f) := by
  cases x with
  | error e => exact .error e
  | ok a => exact h a

theorem bind_left (h : Fails x) : Fails (x >>= f) := by
  obtain ⟨e, rfl⟩ := h
  exact .error e

end Fails

section

variable (e : CodecError)

theorem readRecord_fails (context : String) (tagged : Bool) (fields : Fields CTy) (j : Json) :
    Fails (readRecord (.error e) context tagged fields j) :=
  .bind fun _ => .error e

theorem readVariant_fails (parent tag : String) (fields : Fields CTy) (j : Json) :
    Fails (readVariant (.error e) parent tag fields j) :=
  .bind fun _ => (readRecord_fails e tag true fields j).bind_left

theorem readDecl_fails (decl : CDecl) (j : Json) : Fails (readDecl (.error e) decl j) := by
  cases decl with
  | struct name fields => exact (readRecord_fails e name false fields j).bind_left
  | variant parent tag fields => exact readVariant_fails e parent tag fields j
  | sum name variants =>
    refine .bind fun tag => ?_
    cases Fields.get? variants tag with
    | some fields => exact readVariant_fails e name tag fields j
    | none => exact .error _
  | wrapper name t => exact .error e

/-- What takes a level of its own cannot be read where there is none. -/
theorem descend_fails (env : Env) {c : CTy} (hp : ∀ p, c ≠ .prim p) (ho : ∀ d, c ≠ .optional d) (j : Json) :
    Fails (descend env (.error e) c j) := by
  unfold descend
  split
  · exact absurd rfl (hp _)
  · exact absurd rfl (ho _)
  · exact absurd rfl (ho _)
  · exact .error e
  · exact .error e
  · exact .error e
  · exact (readRecord_fails e _ false _ j).bind_left
  · split
    · exact readDecl_fails e _ j
    · exact .error _
  · exact .error _

end

/-! ### Objects -/

section

variable {R : CodecError → CodecError → Prop} {a b : String}

theorem tagOf_agrees (hR : ∀ e, R e e) (h : Alike R a b) (j : Json) :
    Agrees R (Codec.tagOf j a) (Codec.tagOf j b) := by
  unfold Codec.tagOf
  split
  · split
    · exact .ok _
    · exact .error (hR _)
    · exact .error (h.mismatch _)
  · exact .error (h.conversion _)

theorem expectTag_agrees (hR : ∀ e, R e e) (h : Alike R a b) (j : Json) (tag : String) :
    Agrees R (Codec.expectTag j a tag) (Codec.expectTag j b tag) := by
  refine (Agrees.refl hR _).bind fun found _ => ?_
  split
  · exact .ok ()
  · exact .error (h.unknownTag found)

theorem expectRecord_agrees (h : Alike R a b) (j : Json) (tagged : Bool) (names : List String) :
    Agrees R (Codec.expectRecord j a tagged names) (Codec.expectRecord j b tagged names) := by
  unfold Codec.expectRecord
  split
  · simp only
    split
    · exact .ok _
    · exact .error (h.mismatch _)
  · exact .error (h.conversion _)

theorem FieldsModel.keys_eq {leaf : CTy → Ty → Prop} {compiled : Fields CTy} {fields : Fields Ty}
    (h : FieldsModel leaf compiled fields) :
    Fields.keys compiled = Fields.keys fields := by
  obtain ⟨-, h⟩ := h
  induction h with
  | nil => rfl
  | cons hf _ ih => rw [Fields.keys_cons, Fields.keys_cons, hf.1, ih]

/-- The fields of two tuples with elements that are built alike. -/
theorem FieldsModel.tuple {leaf : CTy → Ty → Prop} (parts : List (CTy × Ty))
    (h : ∀ p ∈ parts, Models leaf p.1 p.2) :
    FieldsModel leaf ((parts.map Prod.fst).mapIdx fun i c => (ordinalName i, c))
      ((parts.map Prod.snd).mapIdx fun i t => (ordinalName i, t)) where
  distinct := distinct_ordinals _
  types := by
    rw [List.forall₂_iff_get]
    refine ⟨by simp, fun i hi _ => ?_⟩
    simp only [List.length_mapIdx, List.length_map] at hi
    simpa using h _ (List.getElem_mem hi)

theorem get?_of_forall₂ {α β : Type} {P : α → β → Prop} {l : Fields α} {l' : Fields β}
    (h : List.Forall₂ (fun v w => v.1 = w.1 ∧ P v.2 w.2) l l') (k : String) :
    (Fields.get? l k = none ∧ Fields.get? l' k = none) ∨
      ∃ x y, Fields.get? l k = some x ∧ Fields.get? l' k = some y ∧ P x y := by
  induction h with
  | nil => exact .inl ⟨rfl, rfl⟩
  | @cons v w l l' hv _ ih =>
    rw [Fields.get?_cons, Fields.get?_cons, hv.1]
    by_cases hk : k = w.1
    · rw [if_pos hk, if_pos hk]
      exact .inr ⟨v.2, w.2, rfl, rfl, hv.2⟩
    · rw [if_neg hk, if_neg hk]
      exact ih

end

/-! ### One level -/

section

variable {env : Env} {R : CodecError → CodecError → Prop} {leaf : Module → CTy → Ty → Prop}
  {below : Reader} {read : Codec.Reader}

theorem readRecord_agrees (hR : ∀ e, R e e)
    (hread : ∀ c m t j, Models (leaf m) c t → Agrees R (below c j) (read m t j))
    {m : Module} {compiled : Fields CTy} {fields : Fields Ty} (hf : FieldsModel (leaf m) compiled fields)
    {a b : String} (h : Alike R a b) (tagged : Bool) (j : Json) :
    Agrees R (readRecord (.ok below) a tagged compiled j)
      (Codec.readFields (read m) b fields tagged j) := by
  unfold readRecord Codec.readFields
  rw [hf.keys_eq]
  refine (expectRecord_agrees h j tagged _).bind fun props _ => ?_
  have hfields : Agrees R (readFields below compiled props)
      (fields.mapM fun f => do return (f.1, ← read m f.2 (← Codec.field props f.1))) := by
    refine .mapM (hf.types.imp ?_)
    rintro ⟨name, c⟩ ⟨_, t⟩ ⟨rfl, hc⟩
    refine (Agrees.refl hR _).bind fun doc _ => ?_
    exact (hread _ _ _ doc hc).map (Prod.mk name)
  rw [ok_bind, ← bind_pure (readFields below compiled props)]
  refine hfields.bind fun values hv => ?_
  -- The values have the names of the fields, each of them once.
  have hkeys : Fields.keys values = Fields.keys fields := by
    obtain ⟨parts, rfl, rfl, hp⟩ := exists_parts_of_mapM hv
    rw [Fields.keys, Fields.keys, List.map_map, List.map_map]
    refine List.map_congr_left fun p hm => ?_
    obtain ⟨doc, -, hn, -⟩ := Codec.readField_eq_ok.1 (hp p hm)
    exact hn
  rw [Fields.ofList_of_distinct (hf.distinct.congr hkeys)]
  exact .ok values

theorem readEntry_agrees (hR : ∀ e, R e e)
    (hread : ∀ c m t j, Models (leaf m) c t → Agrees R (below c j) (read m t j))
    (hwrite : ∀ m t j v, read m t j = .ok v → ∃ w, Codec.encode v = .ok w)
    {m : Module} {c d : CTy} {k t : Ty} (hk : Models (leaf m) c k) (ht : Models (leaf m) d t) (j : Json) :
    Agrees R (readEntry below c d j) (Codec.readEntry (read m k) (read m t) j) := by
  unfold readEntry Codec.readEntry
  refine (Agrees.refl hR _).bind fun props _ => (Agrees.refl hR _).bind fun doc _ => ?_
  refine (hread _ _ _ doc hk).bind fun key hkey => ?_
  -- A key that was read can be written, so it does not matter when that is done.
  obtain ⟨w, hw⟩ := hwrite _ _ _ _ hkey
  simp only [hw, ok_bind]
  refine (Agrees.refl hR _).bind fun doc _ => ?_
  exact (hread _ _ _ doc ht).map fun value => (Codec.keyIdentity w, key, value)

theorem readVariant_agrees (hR : ∀ e, R e e)
    (hread : ∀ c m t j, Models (leaf m) c t → Agrees R (below c j) (read m t j))
    {m : Module} {compiled : Fields CTy} {fields : Fields Ty} (hf : FieldsModel (leaf m) compiled fields)
    {a b : String} (h : Alike R a b) (tag : String) (j : Json) :
    Agrees R (readVariant (.ok below) a tag compiled j) (do
      Codec.expectTag j b tag
      return .variant tag (← Codec.readFields (read m) tag fields true j)) := by
  refine (expectTag_agrees hR h j tag).bind fun _ _ => ?_
  have htag : Alike R tag tag := ⟨fun _ => hR _, fun _ => hR _, fun _ => hR _⟩
  exact (readRecord_agrees hR hread hf htag true j).map (Value.variant tag)

/-- Where a level was entered, both readers make the same checks in the same order. -/
theorem Backed.agrees (hR : ∀ e, R e e)
    (hread : ∀ c m t j, Models (leaf m) c t → Agrees R (below c j) (read m t j))
    {c : CTy} {m : Module} {t : Ty} (ht : Codec.isNested t = true) (h : Backed env R leaf m c t)
    (j : Json) : Agrees R (descend env (.ok below) c j) (Codec.enter read m t j) := by
  cases h with
  | annot _ => cases ht
  | @record path name context m owner t compiled fields hp hm hf ha =>
    have hrecord := (readRecord_agrees hR hread hf ha false j).map Value.record
    rw [descend, hp]
    cases hm with
    | inline => rwa [Codec.enter]
    | struct hr => rwa [Codec.enter, hr]
  | @variant path parent parent' tag m owner r index compiled fields hp hr hv hf ha =>
    rw [descend, hp, Codec.enter, hr]
    simp only [Codec.readDecl, hv]
    exact readVariant_agrees hR hread hf ha tag j
  | @sum path name m owner r compiled variants hp hr hvs ha =>
    rw [descend, hp, Codec.enter, hr]
    refine (tagOf_agrees hR ha j).bind fun tag htag => ?_
    rcases get?_of_forall₂ hvs tag with ⟨hc, hv⟩ | ⟨cs, fields, hc, hv, hf⟩
    · rw [hc, hv]
      exact .error (ha.unknownTag tag)
    · rw [hc, hv]
      have htag : Codec.expectTag j r.name tag = .ok () :=
        Codec.expectTag_eq_ok.2 (Codec.tagOf_eq_ok.1 htag)
      simpa only [htag, ok_bind] using readVariant_agrees hR hread hf ha tag j
  | @wrapper path name m owner r c t hp hr hc =>
    rw [descend, hp, Codec.enter, hr]
    exact hread _ _ _ j hc

/-- The same for types of the same form, where messages call them alike. -/
theorem Models.agrees_nested (hR : ∀ e, R e e)
    (hread : ∀ c m t j, Models (leaf m) c t → Agrees R (below c j) (read m t j))
    (hwrite : ∀ m t j v, read m t j = .ok v → ∃ w, Codec.encode v = .ok w)
    (hleaf : ∀ m c t, leaf m c t → Backed env R leaf m c t)
    (hcall : ∀ m c t, Models (leaf m) c t → Alike R (c.expected env) t.render)
    {c : CTy} {m : Module} {t : Ty} (ht : Codec.isNested t = true) (h : Models (leaf m) c t)
    (j : Json) : Agrees R (descend env (.ok below) c j) (Codec.enter read m t j) := by
  have ha := hcall m c t h
  cases h with
  | prim | optional => cases ht
  | list hc =>
    cases j with
    | arr items =>
      rw [descend, Codec.enter]
      refine Agrees.map Value.list (.mapM (List.forall₂_same.2 fun i _ => hread _ _ _ i hc))
    | _ => exact .error (ha.conversion _)
  | object hc =>
    cases j with
    | obj props =>
      rw [descend, Codec.enter]
      refine Agrees.map Value.object (.mapM (List.forall₂_same.2 fun p _ => ?_))
      exact (hread _ _ _ p.2 hc).map (Prod.mk p.1)
    | _ => exact .error (ha.conversion _)
  | map hk hv =>
    cases j with
    | arr items =>
      rw [descend, Codec.enter]
      refine Agrees.map (fun entries => Value.map (Codec.collectEntries entries)) (.mapM ?_)
      exact List.forall₂_same.2 fun i _ => readEntry_agrees hR hread hwrite hk hv i
    | _ => exact .error (ha.conversion _)
  | tuple parts hn hp =>
    have hf := FieldsModel.tuple parts hp
    rw [descend, Ty.tuple, Codec.enter]
    exact (readRecord_agrees hR hread hf ha false j).map Value.record
  | leaf h => exact (hleaf _ _ _ h).agrees hR hread ht j

end

/-! ### All levels -/

section

variable {env : Env} {R : CodecError → CodecError → Prop} {leaf : Module → CTy → Ty → Prop}
  {limit limit' room : Nat}

/-- Agreement on the types that take a level gives agreement on those that take none. -/
theorem Models.agrees_of_nested (hR : ∀ e, R e e)
    (hleaf : ∀ m c t, leaf m c t → Backed env R leaf m c t)
    (hnested : ∀ c m t j, Codec.isNested t = true → Models (leaf m) c t →
      Agrees R (readWithin env limit room c j) (Codec.readWithin limit' room m t j))
    {c : CTy} {m : Module} {t : Ty} (h : Models (leaf m) c t) (j : Json) :
    Agrees R (readWithin env limit room c j) (Codec.readWithin limit' room m t j) := by
  induction hn : sizeOf t using Nat.strong_induction_on generalizing c t with
  | _ n ih =>
    subst hn
    by_cases ht : Codec.isNested t = true
    · exact hnested c m t j ht h
    cases h with
    | prim p =>
      rw [readWithin_prim, Codec.readWithin_prim]
      exact .refl hR _
    | @optional c t hc =>
      by_cases hj : j = .null
      · rw [hj, readWithin_null, Codec.readWithin_null]
        exact .ok _
      · rw [readWithin_optional _ _ _ _ hj, Codec.readWithin_optional _ _ _ _ hj]
        exact (ih _ (by simp) hc rfl).map Value.present
    | leaf hl =>
      cases hleaf _ _ _ hl with
      | annot hc =>
        rw [Codec.readWithin_annot]
        exact ih _ (by simp) hc rfl
      | record _ hr => cases hr <;> exact absurd rfl ht
      | variant | sum | wrapper => exact absurd rfl ht
    | list | object | map | tuple => exact absurd rfl ht

/-- Types that are built alike are read alike, at every depth. -/
theorem Models.agrees (hR : ∀ e, R e e) (hleaf : ∀ m c t, leaf m c t → Backed env R leaf m c t)
    (hcall : ∀ m c t, Models (leaf m) c t → Alike R (c.expected env) t.render)
    {c : CTy} {m : Module} {t : Ty} (h : Models (leaf m) c t) (j : Json) :
    Agrees R (readWithin env limit room c j) (Codec.readWithin limit' room m t j) := by
  induction room generalizing c m t j with
  | zero =>
    refine Models.agrees_of_nested hR hleaf (fun c m t j ht h => ?_) h j
    rw [Codec.readWithin_zero_of_nested ht]
    have hp : ∀ p, c ≠ .prim p := by
      rintro p rfl
      cases h with
      | prim => cases ht
      | leaf hc => cases hleaf _ _ _ hc; cases ht
    have ho : ∀ d, c ≠ .optional d := by
      rintro d rfl
      cases h with
      | optional => cases ht
      | leaf hc => cases hleaf _ _ _ hc; cases ht
    obtain ⟨e, he⟩ := descend_fails (.depthLimit limit) env hp ho j
    rw [readWithin, he]
    exact .limit e limit'
  | succ room ih =>
    refine Models.agrees_of_nested hR hleaf (fun c m t j ht h => ?_) h j
    rw [Codec.readWithin_succ_of_nested ht, readWithin]
    refine h.agrees_nested hR (fun c m t j h => ih h j) (fun m t j v hv => ?_) hleaf hcall ht j
    exact Codec.exists_encode (Codec.reads_of_readWithin hv)

end

end Compiled

end Wireform
