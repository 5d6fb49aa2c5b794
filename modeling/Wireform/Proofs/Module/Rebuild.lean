import Mathlib
import Wireform.Module.Expose
import Wireform.Proofs.Module.Expose

/-!
# Types with other documentation and other references

`rebuild wrap ρ` goes through a type, puts `wrap` in the place of documentation and `ρ r` in the place
of a reference `r`, and keeps all else. To drop the documentation is to rebuild with a `wrap` that
ignores its text; to renumber slots is to rebuild with a `ρ` that changes nothing but the slot.
-/

namespace Wireform

namespace Fields

variable {α β : Type}

/-- The same names with other things. -/
def mapVal (f : α → β) (fs : Fields α) : Fields β := fs.map fun e => (e.1, f e.2)

@[simp] theorem mapVal_nil (f : α → β) : mapVal f [] = [] := rfl

@[simp] theorem mapVal_cons (f : α → β) (e : String × α) (fs : Fields α) :
    mapVal f (e :: fs) = (e.1, f e.2) :: mapVal f fs := rfl

theorem mapVal_append (f : α → β) (fs gs : Fields α) : mapVal f (fs ++ gs) = mapVal f fs ++ mapVal f gs :=
  List.map_append

@[simp] theorem length_mapVal (f : α → β) (fs : Fields α) : (mapVal f fs).length = fs.length := by
  simp [mapVal]

@[simp] theorem keys_mapVal (f : α → β) (fs : Fields α) : keys (mapVal f fs) = keys fs := by
  simp [keys, mapVal]

@[simp] theorem get?_mapVal (f : α → β) (fs : Fields α) (k : String) :
    get? (mapVal f fs) k = (get? fs k).map f :=
  get?_map (fun e => f e.2) fs k

@[simp] theorem index?_mapVal (f : α → β) (fs : Fields α) (k : String) :
    index? (mapVal f fs) k = index? fs k := index?_congr (keys_mapVal f fs) k

theorem getElem?_mapVal (f : α → β) (fs : Fields α) (i : Nat) :
    (mapVal f fs)[i]? = fs[i]?.map fun e => (e.1, f e.2) := by
  simp [mapVal]

theorem mapVal_congr {f g : α → β} {fs : Fields α} (h : ∀ e ∈ fs, f e.2 = g e.2) :
    mapVal f fs = mapVal g fs :=
  List.map_congr_left fun e he => by rw [h e he]

theorem mapVal_id' {f : α → α} {fs : Fields α} (h : ∀ e ∈ fs, f e.2 = e.2) : mapVal f fs = fs := by
  have := mapVal_congr (g := id) h
  rw [this]
  simp [mapVal]

end Fields

/-- Nothing but slots is changed. -/
structure Ref.Renumbers (ρ : Ref → Ref) : Prop where
  via : ∀ r, (ρ r).via = r.via
  name : ∀ r, (ρ r).name = r.name

theorem Ref.Renumbers.path {ρ : Ref → Ref} (h : Renumbers ρ) (r : Ref) : (ρ r).path = r.path := by
  rw [Ref.path, Ref.path, h.via, h.name]

theorem Ref.Renumbers.id : Renumbers id := ⟨fun _ => rfl, fun _ => rfl⟩

namespace Ty

mutual

def rebuild (wrap : String → Ty → Ty) (ρ : Ref → Ref) : Ty → Ty
  | .prim p => .prim p
  | .optional t => .optional (t.rebuild wrap ρ)
  | .list t => .list (t.rebuild wrap ρ)
  | .object t => .object (t.rebuild wrap ρ)
  | .map k v => .map (k.rebuild wrap ρ) (v.rebuild wrap ρ)
  | .record fields => .record (rebuildFields wrap ρ fields)
  | .sum variants => .sum (rebuildVariants wrap ρ variants)
  | .annot doc t => wrap doc (t.rebuild wrap ρ)
  | .ref r => .ref (ρ r)

def rebuildFields (wrap : String → Ty → Ty) (ρ : Ref → Ref) : List (String × Ty) → List (String × Ty)
  | [] => []
  | (k, t) :: fields => (k, t.rebuild wrap ρ) :: rebuildFields wrap ρ fields

def rebuildVariants (wrap : String → Ty → Ty) (ρ : Ref → Ref) :
    List (String × List (String × Ty)) → List (String × List (String × Ty))
  | [] => []
  | (tag, fields) :: variants => (tag, rebuildFields wrap ρ fields) :: rebuildVariants wrap ρ variants

end

variable {wrap : String → Ty → Ty} {ρ : Ref → Ref}

theorem rebuildFields_eq (fields : List (String × Ty)) :
    rebuildFields wrap ρ fields = Fields.mapVal (rebuild wrap ρ) fields := by
  induction fields with
  | nil => rfl
  | cons f fields ih => rw [rebuildFields, ih]; rfl

theorem rebuildVariants_eq (variants : List (String × List (String × Ty))) :
    rebuildVariants wrap ρ variants = Fields.mapVal (Fields.mapVal (rebuild wrap ρ)) variants := by
  induction variants with
  | nil => rfl
  | cons v variants ih => rw [rebuildVariants, rebuildFields_eq, ih]; rfl

@[simp] theorem rebuild_record (fields : Fields Ty) :
    (record fields).rebuild wrap ρ = .record (Fields.mapVal (rebuild wrap ρ) fields) := by
  rw [rebuild, rebuildFields_eq]

@[simp] theorem rebuild_sum (variants : List Variant) :
    (sum variants).rebuild wrap ρ = .sum (Fields.mapVal (Fields.mapVal (rebuild wrap ρ)) variants) := by
  rw [rebuild, rebuildVariants_eq]

/-- What is under the documentation does not depend on what becomes of that. -/
theorem stripAnnot_rebuild (hw : ∀ doc t, (wrap doc t).stripAnnot = t.stripAnnot) (t : Ty) :
    (t.rebuild wrap ρ).stripAnnot = t.stripAnnot.rebuild wrap ρ := by
  fun_induction stripAnnot t with
  | case1 doc t ih => rw [rebuild, hw, ih]
  | case2 t h =>
    cases t with
    | annot doc t => exact absurd rfl (h doc t)
    | _ => rfl

/-- A type with its documentation and its references is the type. -/
theorem rebuild_annot_id (t : Ty) : t.rebuild .annot id = t := by
  induction t using parts_induction with
  | step t ih =>
    cases t with
    | prim p => rfl
    | ref r => rfl
    | optional t | list t | object t | annot doc t => rw [rebuild, ih t (by simp [parts])]
    | map k v => rw [rebuild, ih k (by simp [parts]), ih v (by simp [parts])]
    | record fields =>
      rw [rebuild_record, Fields.mapVal_id' fun f hf => ih f.2 (List.mem_map_of_mem hf)]
    | sum variants =>
      rw [rebuild_sum, Fields.mapVal_id' fun v hv => Fields.mapVal_id' fun f hf => ih f.2 ?_]
      exact List.mem_flatMap.2 ⟨v, hv, List.mem_map_of_mem hf⟩

end Ty

def TableSpec.rebuild (wrap : String → Ty → Ty) (ρ : Ref → Ref) (spec : TableSpec) : TableSpec :=
  { spec with attrTypes := spec.attrTypes.mapVal (Ty.rebuild wrap ρ) }

namespace Decl

def rebuild (wrap : String → Ty → Ty) (ρ : Ref → Ref) : Decl → Decl
  | .alias t => .alias (t.rebuild wrap ρ)
  | .struct fields => .struct (fields.mapVal (Ty.rebuild wrap ρ))
  | .sum variants => .sum (Fields.mapVal (Fields.mapVal (Ty.rebuild wrap ρ)) variants)
  | .variant parent index => .variant parent index
  | .table spec => .table (spec.rebuild wrap ρ)

theorem rebuild_annot_id (decl : Decl) : decl.rebuild .annot id = decl := by
  have hfields : ∀ fields : Fields Ty, fields.mapVal (Ty.rebuild .annot id) = fields := fun fields =>
    Fields.mapVal_id' fun f _ => f.2.rebuild_annot_id
  cases decl with
  | «alias» t => rw [rebuild, Ty.rebuild_annot_id]
  | struct fields => rw [rebuild, hfields]
  | sum variants => rw [rebuild, Fields.mapVal_id' fun v _ => hfields v.2]
  | variant parent index => rfl
  | table spec => rw [rebuild, TableSpec.rebuild, hfields]

end Decl

namespace Head

def rebuild (wrap : String → Ty → Ty) (ρ : Ref → Ref) : Head → Head
  | .prim p => .prim p
  | .optional t => .optional (t.rebuild wrap ρ)
  | .list t => .list (t.rebuild wrap ρ)
  | .object t => .object (t.rebuild wrap ρ)
  | .map k v => .map (k.rebuild wrap ρ) (v.rebuild wrap ρ)
  | .record fields => .record (fields.mapVal (Ty.rebuild wrap ρ))
  | .sum variants => .sum (Fields.mapVal (Fields.mapVal (Ty.rebuild wrap ρ)) variants)
  | .tag parent variant =>
    .tag parent (variant.map fun v => (v.1, Fields.mapVal (Ty.rebuild wrap ρ) v.2))
  | .table => .table
  | .unresolved path => .unresolved path
  | .endless => .endless

end Head

namespace Module

variable {m m' owner : Module} {wrap : String → Ty → Ty} {ρ : Ref → Ref}

theorem sizeOf_lt_of_mem_imports {i : String × Module} (h : i ∈ m.imports) : sizeOf i.2 < sizeOf m := by
  obtain ⟨name, imports, decls⟩ := m
  have hi := List.sizeOf_lt_of_mem (show i ∈ imports from h)
  have h' : sizeOf i = 1 + sizeOf i.1 + sizeOf i.2 := by cases i; rfl
  simp only [mk.sizeOf_spec]
  omega

theorem variant?_rebuild
    (h : ∀ name, m'.get? name = (m.get? name).map (Decl.rebuild wrap ρ)) (parent : String) (index : Nat) :
    m'.variant? parent index =
      (m.variant? parent index).map fun v => (v.1, Fields.mapVal (Ty.rebuild wrap ρ) v.2) := by
  unfold variant?
  rw [h]
  cases m.get? parent with
  | none => rfl
  | some decl =>
    cases decl with
    | sum variants => simp only [Option.map_some, Decl.rebuild, Fields.getElem?_mapVal]
    | _ => rfl

theorem exposeInline_rebuild (hρ : Ref.Renumbers ρ) {t : Ty} (ha : ∀ doc s, t ≠ .annot doc s) :
    (m'.exposeInline (t.rebuild wrap ρ)).head = (m.exposeInline t).head.rebuild wrap ρ := by
  cases t with
  | annot doc t => exact absurd rfl (ha doc t)
  | ref r => simp only [Ty.rebuild, exposeInline, Head.rebuild, hρ.path]
  | record fields => rw [Ty.rebuild_record]; rfl
  | sum variants => rw [Ty.rebuild_sum]; rfl
  | _ => rfl

theorem exposeDecl_rebuild (h : ∀ name, m'.get? name = (m.get? name).map (Decl.rebuild wrap ρ))
    (name : String) (decl : Decl) :
    (m'.exposeDecl name (decl.rebuild wrap ρ)).head = (m.exposeDecl name decl).head.rebuild wrap ρ := by
  cases decl with
  | variant parent index => simp only [Decl.rebuild, exposeDecl, Head.rebuild, variant?_rebuild h]
  | _ => rfl

end Module

namespace Draft

variable {decls decls' : Fields Decl} {wrap : String → Ty → Ty} {ρ : Ref → Ref}

theorem aliasStep?_ref (decls : Fields Decl) (r : Ref) :
    aliasStep? decls (.ref r) = match r.via, decls.get? r.name with
      | none, some (.alias next) => some next
      | _, _ => none := by
  obtain ⟨via, name, slot⟩ := r
  cases via with
  | some i => rfl
  | none =>
    simp only [aliasStep?, Ty.stripAnnot_ref]
    cases decls.get? name with
    | none => rfl
    | some decl => cases decl <;> rfl

theorem aliasStep?_rebuild (hw : ∀ doc t, (wrap doc t).stripAnnot = t.stripAnnot) (hρ : Ref.Renumbers ρ)
    (h : ∀ name, decls'.get? name = (decls.get? name).map (Decl.rebuild wrap ρ)) (t : Ty) :
    aliasStep? decls' (t.rebuild wrap ρ) = (aliasStep? decls t).map (Ty.rebuild wrap ρ) := by
  rw [← Module.aliasStep?_stripAnnot, ← Module.aliasStep?_stripAnnot _ t, Ty.stripAnnot_rebuild hw]
  cases hs : t.stripAnnot with
  | annot doc s => exact absurd hs (Module.stripAnnot_ne_annot t doc s)
  | ref r =>
    rw [Ty.rebuild, aliasStep?_ref, aliasStep?_ref, hρ.via, hρ.name, h]
    cases r.via with
    | some i => rfl
    | none =>
      cases decls.get? r.name with
      | none => rfl
      | some decl => cases decl <;> rfl
  | _ => rfl

theorem aliasesOutlast_rebuild (hw : ∀ doc t, (wrap doc t).stripAnnot = t.stripAnnot)
    (hρ : Ref.Renumbers ρ)
    (h : ∀ name, decls'.get? name = (decls.get? name).map (Decl.rebuild wrap ρ)) (n : Nat) (t : Ty) :
    aliasesOutlast decls' n (t.rebuild wrap ρ) = aliasesOutlast decls n t := by
  induction n generalizing t with
  | zero => rw [aliasesOutlast, aliasesOutlast, aliasStep?_rebuild hw hρ h, Option.isSome_map]
  | succ n ih =>
    rw [aliasesOutlast, aliasesOutlast, aliasStep?_rebuild hw hρ h]
    cases aliasStep? decls t with
    | none => rfl
    | some next => exact ih next

end Draft

end Wireform
