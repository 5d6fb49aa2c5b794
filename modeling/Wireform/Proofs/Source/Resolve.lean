import Mathlib
import Wireform.Source.Resolve
import Wireform.Proofs.Sequence
import Wireform.Proofs.Source.Names
import Wireform.Proofs.Text.Integer
import Wireform.Proofs.Ty

/-!
# What a source can spell

Fields are resolved one after the other, with the names met so far at hand, and so are the members of
a table: what comes out has each name once and none of the reserved ones. No source spells a sum
inside a type, and a reference is made only to a slot that is there. `Ty.Spelled` says so of a type and
`Decl.Spelled` of the body of a declaration.
-/

namespace Wireform

theorem ordinalName_injective : Function.Injective ordinalName := by
  intro i j h
  have h' := congrArg String.toList h
  simp only [ordinalName, String.toList_append, List.append_cancel_left_eq] at h'
  have := Text.ofNat_injective (String.toList_injective h')
  omega

/-- The names of the elements of a tuple. -/
theorem keys_ordinals {α : Type} (elems : List α) :
    Fields.keys (elems.mapIdx fun i a => (ordinalName i, a)) =
      (List.range elems.length).map ordinalName := by
  apply List.ext_getElem <;> simp [Fields.keys]

theorem distinct_ordinals {α : Type} (elems : List α) :
    Fields.Distinct (elems.mapIdx fun i a => (ordinalName i, a)) := by
  unfold Fields.Distinct
  rw [keys_ordinals]
  exact List.nodup_range.map ordinalName_injective

theorem ordinalName_identifier (i : Nat) : Source.Identifier (ordinalName i) := by
  refine ⟨'_', Nat.toDigits 10 (i + 1), by simp [ordinalName, Text.ofNat], by decide, fun c hc => ?_⟩
  have hd := Text.isDigit_of_mem_toDigits hc
  rw [Text.isDigit] at hd
  rw [Source.isIdentContinue, hd, Bool.or_true]

/-- A type as a source spells it, with references of a certain kind: no sum stands in it, and the
fields of a record have different names, which are identifiers. -/
inductive Ty.Spelled (refs : Ref → Prop) : Ty → Prop
  | prim (p : Prim) : Spelled refs (.prim p)
  | optional {t : Ty} : Spelled refs t → Spelled refs (.optional t)
  | list {t : Ty} : Spelled refs t → Spelled refs (.list t)
  | object {t : Ty} : Spelled refs t → Spelled refs (.object t)
  | map {k v : Ty} : Spelled refs k → Spelled refs v → Spelled refs (.map k v)
  | record {fields : Fields Ty} : Fields.Distinct fields → (∀ f ∈ fields, Source.Identifier f.1) →
    (∀ f ∈ fields, Spelled refs f.2) → Spelled refs (.record fields)
  | annot (doc : String) {t : Ty} : Spelled refs t → Spelled refs (.annot doc t)
  | ref {r : Ref} : refs r → Spelled refs (.ref r)

namespace Ty.Spelled

variable {refs refs' : Ref → Prop} {t s : Ty}

theorem clear (h : t.Spelled refs) : t.Clear := by
  induction h with
  | prim _ | ref _ => exact ⟨trivial, trivial⟩
  | optional _ ih | list _ ih | object _ ih | annot _ _ ih => exact ih
  | map _ _ ihk ihv => exact ⟨⟨ihk.1, ihv.1⟩, ihk.2, ihv.2⟩
  | record hd _ _ ih => exact Ty.clear_record hd ih

theorem mono (hr : ∀ r, refs r → refs' r) (h : t.Spelled refs) : t.Spelled refs' := by
  induction h with
  | prim p => exact .prim p
  | optional _ ih => exact .optional ih
  | list _ ih => exact .list ih
  | object _ ih => exact .object ih
  | map _ _ ihk ihv => exact .map ihk ihv
  | record hd hn _ ih => exact .record hd hn ih
  | annot doc _ ih => exact .annot doc ih
  | ref h => exact .ref (hr _ h)

theorem part (h : t.Spelled refs) (hs : s ∈ t.parts) : s.Spelled refs := by
  cases h with
  | prim _ | ref _ => cases hs
  | optional h | list h | object h | annot _ h => exact List.mem_singleton.1 hs ▸ h
  | map hk hv =>
    rcases List.mem_cons.1 hs with rfl | hs
    · exact hk
    · exact List.mem_singleton.1 hs ▸ hv
  | record _ _ h =>
    obtain ⟨f, hf, rfl⟩ := List.mem_map.1 hs
    exact h f hf

theorem of_within (h : t.Spelled refs) (hw : t.Within s) : s.Spelled refs := by
  induction hw with
  | refl => exact h
  | tail _ hs ih => exact ih.part hs

/-- Every reference in the type is of the kind. -/
theorem refs_of_within (h : t.Spelled refs) {r : Ref} (hw : t.Within (.ref r)) : refs r := by
  cases h.of_within hw with
  | ref h => exact h

theorem tuple {ts : List Ty} (h : ∀ t ∈ ts, t.Spelled refs) : (Ty.tuple ts).Spelled refs := by
  refine .record (distinct_ordinals ts) ?_ ?_
  · intro f hf
    obtain ⟨i, hi, rfl⟩ := List.mem_mapIdx.1 hf
    exact ordinalName_identifier i
  · intro f hf
    obtain ⟨i, hi, rfl⟩ := List.mem_mapIdx.1 hf
    exact h _ (List.getElem_mem hi)

end Ty.Spelled

/-- The reference points at a slot of the draft itself or of an import, and the slot has its name. -/
def Draft.Resolves (d : Draft) (r : Ref) : Prop :=
  match r.via with
  | none => Fields.index? d.slots r.name = some r.slot
  | some i => ∃ m, Fields.get? d.imports i = some m ∧ m.slotOf? r.name = some r.slot

theorem Draft.resolvePath_resolves {d : Draft} {segments : List String} {r : Ref}
    (h : d.resolvePath segments = .ok r) : d.Resolves r := by
  unfold resolvePath at h
  split at h
  · split at h
    · rename_i slot hs
      cases h
      exact hs
    · cases h
  · split at h
    · rename_i slot hs
      cases h
      exact Option.bind_eq_some_iff.1 hs
    · cases h
  · cases h

namespace Source

/-- Fields with different identifiers as names, none of them reserved or seen before, of spelled
types. -/
structure NewFields (refs : Ref → Prop) (reserved seen : List String) (fields : Fields Ty) : Prop where
  distinct : Fields.Distinct fields
  identifiers : ∀ f ∈ fields, Identifier f.1
  unseen : ∀ name ∈ Fields.keys fields, name ∉ seen
  allowed : ∀ name ∈ Fields.keys fields, name ∉ reserved
  types : ∀ f ∈ fields, f.2.Spelled refs

namespace NewFields

variable {refs refs' : Ref → Prop} {reserved seen : List String} {name : String} {t : Ty}
  {fields : Fields Ty}

theorem nil (refs : Ref → Prop) (reserved seen : List String) : NewFields refs reserved seen [] :=
  ⟨List.nodup_nil, by simp, by simp, by simp, by simp⟩

theorem cons (hi : Identifier name) (hr : name ∉ reserved) (hs : name ∉ seen) (ht : t.Spelled refs)
    (h : NewFields refs reserved (name :: seen) fields) :
    NewFields refs reserved seen ((name, t) :: fields) where
  distinct := List.nodup_cons.2 ⟨fun hm => h.unseen name hm (by simp), h.distinct⟩
  identifiers := List.forall_mem_cons.2 ⟨hi, h.identifiers⟩
  unseen := List.forall_mem_cons.2 ⟨hs, fun k hk hm => h.unseen k hk (by simp [hm])⟩
  allowed := List.forall_mem_cons.2 ⟨hr, h.allowed⟩
  types := List.forall_mem_cons.2 ⟨ht, h.types⟩

theorem mono (hr : ∀ r, refs r → refs' r) (h : NewFields refs reserved seen fields) :
    NewFields refs' reserved seen fields :=
  ⟨h.distinct, h.identifiers, h.unseen, h.allowed, fun f hf => (h.types f hf).mono hr⟩

theorem proper {tag : Option String} (h : NewFields refs reserved seen fields)
    (ht : tag.isSome → discriminator ∈ reserved) : Fields.Proper tag fields :=
  ⟨h.distinct, fun hs hm => h.allowed _ hm (ht hs), fun f hf => (h.types f hf).clear.1⟩

theorem exclusive (h : NewFields refs reserved seen fields) : ∀ f ∈ fields, f.2.Exclusive :=
  fun f hf => (h.types f hf).clear.2

end NewFields

variable {d : Draft} {refs : Ref → Prop}

theorem resolveArg_eq_ok {a : TypeArg} {e : SourceError} {t : Ty} (h : resolveArg d e a = .ok t) :
    ∃ x, a = .type x ∧ resolveType d x = .ok t := by
  cases a with
  | type x => exact ⟨x, rfl, by rwa [resolveArg] at h⟩
  | doc _ => rw [resolveArg] at h; cases h

theorem resolveElems_mem {es : List TypeExpr} {ts : List Ty} (h : resolveElems d es = .ok ts) :
    ∀ t ∈ ts, ∃ e ∈ es, resolveType d e = .ok t := by
  induction es generalizing ts with
  | nil =>
    rw [resolveElems] at h
    cases h
    simp
  | cons e es ih =>
    rw [resolveElems] at h
    obtain ⟨t, ht, h⟩ := bind_eq_ok.1 h
    obtain ⟨rest, hrest, h⟩ := bind_eq_ok.1 h
    cases h
    refine List.forall_mem_cons.2 ⟨⟨e, by simp, ht⟩, fun s hs => ?_⟩
    obtain ⟨x, hx, hxs⟩ := ih hrest s hs
    exact ⟨x, by simp [hx], hxs⟩

theorem resolveFields_cons_eq_ok {name? : Option String} {e : TypeExpr} {fields : List FieldExpr}
    {reserved seen : List String} {i : Nat} {fs : Fields Ty}
    (h : resolveFields d reserved i seen ((name?, e) :: fields) = .ok fs) :
    ∃ name t rest, name = name?.getD (ordinalName i) ∧ fs = (name, t) :: rest ∧ name ∉ reserved ∧ name ∉ seen ∧
      resolveType d e = .ok t ∧ resolveFields d reserved (i + 1) (name :: seen) fields = .ok rest := by
  rw [resolveFields] at h
  simp only at h
  split at h
  · cases h
  rename_i hr
  split at h
  · cases h
  rename_i hs
  obtain ⟨t, ht, h⟩ := bind_eq_ok.1 h
  obtain ⟨rest, hrest, h⟩ := bind_eq_ok.1 h
  cases h
  exact ⟨_, t, rest, rfl, rfl, by simpa using hr, by simpa using hs, ht, hrest⟩

theorem resolveFields_mem {fields : List FieldExpr} {reserved seen : List String} {i : Nat} {fs : Fields Ty}
    (h : resolveFields d reserved i seen fields = .ok fs) :
    ∀ f ∈ fs, ∃ g ∈ fields, resolveType d g.2 = .ok f.2 := by
  induction fields generalizing i seen fs with
  | nil =>
    rw [resolveFields] at h
    cases h
    simp
  | cons g fields ih =>
    obtain ⟨name, t, rest, -, rfl, -, -, ht, hrest⟩ := resolveFields_cons_eq_ok h
    refine List.forall_mem_cons.2 ⟨⟨g, by simp, ht⟩, fun f hf => ?_⟩
    obtain ⟨g', hg, hgf⟩ := ih hrest f hf
    exact ⟨g', by simp [hg], hgf⟩

theorem resolveFields_new {fields : List FieldExpr} {reserved : List String} {i : Nat}
    {seen : List String} {fs : Fields Ty} (hn : ∀ f ∈ fields, ∀ name ∈ f.1, Identifier name)
    (ht : ∀ f ∈ fields, ∀ t, resolveType d f.2 = .ok t → t.Spelled refs)
    (h : resolveFields d reserved i seen fields = .ok fs) : NewFields refs reserved seen fs := by
  induction fields generalizing i seen fs with
  | nil =>
    rw [resolveFields] at h
    cases h
    exact .nil _ _ _
  | cons f fields ih =>
    obtain ⟨name?, e⟩ := f
    obtain ⟨name, ty, rest, hname, rfl, hr, hs, hty, hrest⟩ := resolveFields_cons_eq_ok h
    have hi : Identifier name := by
      rw [hname]
      cases name? with
      | none => exact ordinalName_identifier i
      | some name => exact hn (some name, e) (by simp) name rfl
    refine .cons hi hr hs (ht (name?, e) (by simp) ty hty) ?_
    exact ih (fun f hf => hn f (by simp [hf])) (fun f hf => ht f (by simp [hf])) hrest

theorem resolveType_path_eq_ok {segments : List String} {offset : Nat} {t : Ty}
    (h : resolveType d (.path segments offset) = .ok t) :
    (∃ p, t = .prim p) ∨ ∃ r, d.resolvePath segments = .ok r ∧ t = .ref r := by
  unfold resolveType at h
  split at h
  · split at h
    · cases h
      exact .inl ⟨_, rfl⟩
    · obtain ⟨r, hr, h⟩ := bind_eq_ok.1 h
      cases h
      exact .inr ⟨r, hr, rfl⟩
  · obtain ⟨r, hr, h⟩ := bind_eq_ok.1 h
    cases h
    exact .inr ⟨r, hr, rfl⟩

/-- A type with identifiers in it resolves to one whose references are of any kind that paths of
identifiers resolve to. -/
theorem resolveType_spelled_of
    (hrefs : ∀ segments offset r, (∀ s ∈ segments, Identifier s) →
      resolveType d (.path segments offset) = .ok (.ref r) → refs r)
    {e : TypeExpr} {t : Ty} (he : e.Named) (h : resolveType d e = .ok t) : t.Spelled refs := by
  induction he generalizing t with
  | path hs =>
    rcases resolveType_path_eq_ok h with ⟨p, rfl⟩ | ⟨r, -, rfl⟩
    · exact .prim p
    · exact .ref (hrefs _ _ r hs h)
  | tuple _ ih =>
    rw [resolveType] at h
    obtain ⟨ts, hts, h⟩ := bind_eq_ok.1 h
    cases h
    refine .tuple fun t hm => ?_
    obtain ⟨e, he, hr⟩ := resolveElems_mem hts t hm
    exact ih e he hr
  | record hn _ ih =>
    rw [resolveType] at h
    obtain ⟨fs, hfs, h⟩ := bind_eq_ok.1 h
    cases h
    have hnew := resolveFields_new hn (fun f hf t => ih f hf) hfs
    exact .record hnew.distinct hnew.identifiers hnew.types
  | @apply ctor args offset fragment _ ih =>
    have harg : ∀ a ∈ args, ∀ {e : SourceError} {t : Ty}, resolveArg d e a = .ok t → t.Spelled refs := by
      intro a ha e t h
      obtain ⟨x, rfl, h⟩ := resolveArg_eq_ok h
      exact ih x ha h
    unfold resolveType at h
    simp only at h
    split at h
    · obtain ⟨s, hs, h⟩ := bind_eq_ok.1 h
      cases h
      exact .optional (harg _ (by simp) hs)
    · obtain ⟨s, hs, h⟩ := bind_eq_ok.1 h
      cases h
      exact .list (harg _ (by simp) hs)
    · obtain ⟨s, hs, h⟩ := bind_eq_ok.1 h
      cases h
      exact .object (harg _ (by simp) hs)
    · obtain ⟨k, hk, h⟩ := bind_eq_ok.1 h
      obtain ⟨v, hv, h⟩ := bind_eq_ok.1 h
      cases h
      exact .map (harg _ (by simp) hk) (harg _ (by simp) hv)
    · obtain ⟨s, hs, h⟩ := bind_eq_ok.1 h
      cases h
      exact .annot _ (harg _ (by simp) hs)
    all_goals cases h

/-- A type with identifiers in it resolves to one whose references the draft resolves. -/
theorem resolveType_spelled {e : TypeExpr} {t : Ty} (he : e.Named) (h : resolveType d e = .ok t) :
    t.Spelled d.Resolves := by
  refine resolveType_spelled_of (fun segments offset r _ hr => ?_) he h
  rcases resolveType_path_eq_ok hr with ⟨p, hp⟩ | ⟨r', hr', hp⟩
  · cases hp
  · cases hp
    exact Draft.resolvePath_resolves hr'

/-- The fields of a declaration, all at once. -/
theorem resolveFields_spelled {fields : List FieldExpr} {reserved : List String} {fs : Fields Ty}
    (hn : ∀ f ∈ fields, FieldExpr.Named f) (h : resolveFields d reserved 0 [] fields = .ok fs) :
    NewFields d.Resolves reserved [] fs :=
  resolveFields_new (fun f hf => (hn f hf).1) (fun f hf _ => resolveType_spelled (hn f hf).2) h

/-! ### Tables -/

/-- Names that are new, different from each other and not reserved for row positions. -/
structure NewMembers (seen names : List String) : Prop where
  distinct : names.Nodup
  unseen : ∀ name ∈ names, name ∉ seen
  allowed : rowId ∉ names

theorem NewMembers.append {seen seen' names names' : List String} (h : NewMembers seen names)
    (hs : ∀ name, name ∈ seen' ↔ name ∈ seen ∨ name ∈ names) (h' : NewMembers seen' names') :
    NewMembers seen (names ++ names') where
  distinct := List.nodup_append.2 ⟨h.distinct, h'.distinct, fun a ha b hb he =>
    h'.unseen b hb ((hs b).2 (.inr (he ▸ ha)))⟩
  unseen := List.forall_mem_append.2 ⟨h.unseen, fun name hn hm => h'.unseen name hn ((hs name).2 (.inl hm))⟩
  allowed := by
    rw [List.mem_append, not_or]
    exact ⟨h.allowed, h'.allowed⟩

theorem claim_eq_ok {seen seen' : List String} {name : String} (h : claim seen name = .ok seen') :
    NewMembers seen [name] ∧ ∀ k, k ∈ seen' ↔ k ∈ seen ∨ k ∈ [name] := by
  unfold claim at h
  split at h
  · cases h
  rename_i hr
  split at h
  · cases h
  rename_i hs
  cases h
  refine ⟨⟨by simp, by simpa using hs, by simpa using Ne.symm hr⟩, fun k => ?_⟩
  simp [or_comm]

theorem foldlM_claim_eq_ok {seen seen' names : List String}
    (h : names.foldlM claim seen = .ok seen') :
    NewMembers seen names ∧ ∀ k, k ∈ seen' ↔ k ∈ seen ∨ k ∈ names := by
  induction names generalizing seen with
  | nil =>
    cases h
    exact ⟨⟨by simp, by simp, by simp⟩, by simp⟩
  | cons name names ih =>
    rw [List.foldlM_cons] at h
    obtain ⟨mid, hm, h⟩ := bind_eq_ok.1 h
    obtain ⟨hn, hmid⟩ := claim_eq_ok hm
    obtain ⟨hns, hseen⟩ := ih h
    refine ⟨hn.append hmid hns, fun k => ?_⟩
    rw [hseen, hmid, List.mem_singleton, List.mem_cons, or_assoc]

theorem oneOf_eq_ok {names : List String} {name : String} (h : oneOf names name = .ok ()) :
    name ∈ names := by
  unfold oneOf at h
  split at h
  · rename_i hn
    simpa using hn
  · cases h

/-- What resolving some items adds to a table with these kinds and attribute types. -/
structure Members (refs : Ref → Prop) (kinds types names : List String) (spec : TableSpec) :
    Prop where
  names : (spec.objects ++ spec.attrTypes.keys ++ spec.homs.map Arrow.name ++
    spec.attrs.map Arrow.name).Perm names
  homs : ∀ a ∈ spec.homs, a.dom ∈ kinds ∧ a.codom ∈ kinds
  attrs : ∀ a ∈ spec.attrs, a.dom ∈ kinds ∧ a.codom ∈ types
  types : ∀ a ∈ spec.attrTypes, a.2.Spelled refs

theorem resolveKinds_eq_ok {seen : List String} {items : List TableItem} {objects : List String}
    {attrTypes : Fields Ty} {kinds types : List String} {homs attrs : List Arrow}
    (hi : ∀ item ∈ items, item.Named)
    (hk : resolveKinds d seen items = .ok (objects, attrTypes))
    (ha : resolveArrows kinds types items = .ok (homs, attrs)) :
    NewMembers seen (items.flatMap TableItem.names) ∧
      Members d.Resolves kinds types (items.flatMap TableItem.names) ⟨objects, homs, attrTypes, attrs⟩ := by
  induction items generalizing seen objects attrTypes homs attrs with
  | nil =>
    rw [resolveKinds] at hk
    rw [resolveArrows] at ha
    cases hk
    cases ha
    exact ⟨⟨by simp, by simp, by simp⟩, ⟨by simp [Fields.keys], by simp, by simp, by simp⟩⟩
  | cons item items ih =>
    rw [List.flatMap_cons]
    have hrest : ∀ item ∈ items, item.Named := fun item h => hi item (by simp [h])
    cases item with
    | ob names =>
      rw [resolveKinds] at hk
      change resolveArrows kinds types items = _ at ha
      obtain ⟨mid, hm, hk⟩ := bind_eq_ok.1 hk
      obtain ⟨⟨objects', types'⟩, hk', hk⟩ := bind_eq_ok.1 hk
      cases hk
      obtain ⟨hn, hseen⟩ := foldlM_claim_eq_ok hm
      obtain ⟨hnew, hmem⟩ := ih hrest hk' ha
      refine ⟨hn.append hseen hnew, ?_, hmem.homs, hmem.attrs, hmem.types⟩
      simpa [TableItem.names] using hmem.names.append_left names
    | attrType name t =>
      rw [resolveKinds] at hk
      change resolveArrows kinds types items = _ at ha
      obtain ⟨mid, hm, hk⟩ := bind_eq_ok.1 hk
      obtain ⟨ty, hty, hk⟩ := bind_eq_ok.1 hk
      obtain ⟨⟨objects', types'⟩, hk', hk⟩ := bind_eq_ok.1 hk
      cases hk
      obtain ⟨hn, hseen⟩ := claim_eq_ok hm
      obtain ⟨hnew, hmem⟩ := ih hrest hk' ha
      refine ⟨hn.append hseen hnew, ?_, hmem.homs, hmem.attrs,
        List.forall_mem_cons.2
          ⟨resolveType_spelled ((hi (.attrType name t) (by simp)).types name t rfl) hty, hmem.types⟩⟩
      exact ((List.perm_middle.append_right _).append_right _).trans (hmem.names.cons name)
    | hom name dom codom =>
      rw [resolveKinds] at hk
      rw [resolveArrows] at ha
      obtain ⟨mid, hm, hk⟩ := bind_eq_ok.1 hk
      obtain ⟨⟨⟩, hdom, ha⟩ := bind_eq_ok.1 ha
      obtain ⟨⟨⟩, hcod, ha⟩ := bind_eq_ok.1 ha
      obtain ⟨⟨homs', attrs'⟩, ha', ha⟩ := bind_eq_ok.1 ha
      cases ha
      obtain ⟨hn, hseen⟩ := claim_eq_ok hm
      obtain ⟨hnew, hmem⟩ := ih hrest hk ha'
      refine ⟨hn.append hseen hnew, ?_, List.forall_mem_cons.2
        ⟨⟨oneOf_eq_ok hdom, oneOf_eq_ok hcod⟩, hmem.homs⟩, hmem.attrs, hmem.types⟩
      exact (List.perm_middle.append_right _).trans (hmem.names.cons name)
    | attr name dom codom =>
      rw [resolveKinds] at hk
      rw [resolveArrows] at ha
      obtain ⟨mid, hm, hk⟩ := bind_eq_ok.1 hk
      obtain ⟨⟨⟩, hdom, ha⟩ := bind_eq_ok.1 ha
      obtain ⟨⟨⟩, hcod, ha⟩ := bind_eq_ok.1 ha
      obtain ⟨⟨homs', attrs'⟩, ha', ha⟩ := bind_eq_ok.1 ha
      cases ha
      obtain ⟨hn, hseen⟩ := claim_eq_ok hm
      obtain ⟨hnew, hmem⟩ := ih hrest hk ha'
      refine ⟨hn.append hseen hnew, ?_, hmem.homs, List.forall_mem_cons.2
        ⟨⟨oneOf_eq_ok hdom, oneOf_eq_ok hcod⟩, hmem.attrs⟩, hmem.types⟩
      exact List.perm_middle.trans (hmem.names.cons name)

end Source

/-- A proper table whose members are identifiers and whose types are spelled. -/
structure TableSpec.Spelled (refs : Ref → Prop) (spec : TableSpec) : Prop where
  proper : spec.Proper
  members : ∀ name ∈ spec.objects ++ spec.attrTypes.keys ++ spec.homs.map Arrow.name ++
    spec.attrs.map Arrow.name, Source.Identifier name
  types : ∀ a ∈ spec.attrTypes, a.2.Spelled refs

theorem Source.resolveTable_spelled {d : Draft} {items : List TableItem} {spec : TableSpec}
    (hi : ∀ item ∈ items, item.Named) (h : resolveTable d items = .ok spec) :
    spec.Spelled d.Resolves := by
  obtain ⟨⟨objects, types⟩, hk, h⟩ := bind_eq_ok.1 h
  obtain ⟨⟨homs, attrs⟩, ha, h⟩ := bind_eq_ok.1 h
  cases h
  obtain ⟨hnew, hmem⟩ := resolveKinds_eq_ok hi hk ha
  refine ⟨⟨hmem.names.nodup_iff.2 hnew.distinct, ?_, hmem.homs, hmem.attrs, ?_⟩, ?_, hmem.types⟩
  · exact fun hm => hnew.allowed (hmem.names.mem_iff.1 hm)
  · exact fun a ha => (hmem.types a ha).clear.1
  · intro name hn
    obtain ⟨item, hitem, hn⟩ := List.mem_flatMap.1 (hmem.names.mem_iff.1 hn)
    exact (hi item hitem).names name hn

/-! ### Declarations -/

/-- The body of a declaration as a source spells it. -/
def Decl.Spelled (refs : Ref → Prop) : Decl → Prop
  | .alias t => t.Spelled refs
  | .struct fields => Source.NewFields refs [] [] fields
  | .sum variants => ∀ v ∈ variants, Source.NewFields refs [discriminator] [] v.2
  | .variant _ _ => True
  | .table spec => spec.Spelled refs

namespace Decl.Spelled

variable {refs refs' : Ref → Prop} {decl : Decl}

theorem proper (h : decl.Spelled refs) : decl.Proper := by
  cases decl with
  | «alias» t => exact Ty.Spelled.clear h |>.1
  | struct fields => exact Source.NewFields.proper h (by simp)
  | sum variants => exact fun v hv => (h v hv).proper (by simp)
  | variant _ _ => trivial
  | table spec => exact TableSpec.Spelled.proper h

theorem exclusive (h : decl.Spelled refs) : decl.Exclusive := by
  cases decl with
  | «alias» t => exact Ty.Spelled.clear h |>.2
  | struct fields => exact Source.NewFields.exclusive h
  | sum variants => exact fun v hv => (h v hv).exclusive
  | variant _ _ => trivial
  | table spec => trivial

theorem mono (hr : ∀ r, refs r → refs' r) (h : decl.Spelled refs) : decl.Spelled refs' := by
  cases decl with
  | «alias» t => exact Ty.Spelled.mono hr h
  | struct fields => exact Source.NewFields.mono hr h
  | sum variants => exact fun v hv => (h v hv).mono hr
  | variant _ _ => trivial
  | table spec =>
    have h : spec.Spelled refs := h
    exact ⟨h.proper, h.members, fun a ha => (h.types a ha).mono hr⟩

end Decl.Spelled

end Wireform
