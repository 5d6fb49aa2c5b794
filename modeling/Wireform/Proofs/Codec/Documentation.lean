import Mathlib
import Wireform.Proofs.Codec.Likeness

/-!
# Documentation does not show

`bare` removes all documentation from a type, from the declarations of a module and from those of its
imports. A document is read, a value is written and two values are compared at a type exactly as at the
bare type in the bare module: the messages of errors may differ, since they quote types, but not their
kinds. A draft can be finished exactly if the bare draft can.
-/

namespace Wireform

/-- The type without its documentation, however deep. -/
def Ty.bare : Ty → Ty := Ty.rebuild (fun _ t => t) id

def Decl.bare : Decl → Decl := Decl.rebuild (fun _ t => t) id

namespace Ty

theorem bare_ne_annot (t : Ty) (doc : String) (s : Ty) : t.bare ≠ .annot doc s := by
  induction t using parts_induction with
  | step t ih =>
    cases t with
    | annot _ t => exact ih t (by simp [parts])
    | _ => simp [bare, rebuild]

theorem exists_bare_of_mem_parts {t s : Ty} (h : s ∈ t.bare.parts) : ∃ u : Ty, s = u.bare := by
  induction t using parts_induction with
  | step t ih =>
    cases t with
    | prim p => cases h
    | ref r => cases h
    | optional t | list t | object t => exact ⟨t, List.mem_singleton.1 h⟩
    | annot doc t => exact ih t (by simp [parts]) h
    | map k v =>
      rcases List.mem_pair.1 h with rfl | rfl
      · exact ⟨k, rfl⟩
      · exact ⟨v, rfl⟩
    | record fields =>
      rw [bare, rebuild_record] at h
      simp only [parts, Fields.mapVal, List.map_map, List.mem_map] at h
      obtain ⟨f, -, rfl⟩ := h
      exact ⟨f.2, rfl⟩
    | sum variants =>
      rw [bare, rebuild_sum] at h
      simp only [parts, Fields.mapVal, List.flatMap_map, List.map_map, List.mem_flatMap, List.mem_map] at h
      obtain ⟨v, -, f, -, rfl⟩ := h
      exact ⟨f.2, rfl⟩

/-- No documentation is left anywhere in a bare type. -/
theorem ne_annot_of_within_bare {t s : Ty} (h : t.bare.Within s) (doc : String) (u : Ty) :
    s ≠ .annot doc u := by
  have hs : ∃ v : Ty, s = v.bare := by
    induction h with
    | refl => exact ⟨t, rfl⟩
    | tail _ hs ih =>
      obtain ⟨v, rfl⟩ := ih
      exact exists_bare_of_mem_parts hs
  obtain ⟨v, rfl⟩ := hs
  exact v.bare_ne_annot doc u

end Ty

namespace Module

mutual

/-- The module and its imports without documentation. -/
def bare : Module → Module
  | ⟨name, imports, decls⟩ => ⟨name, bareImports imports, Fields.mapVal Decl.bare decls⟩

def bareImports : List (String × Module) → List (String × Module)
  | [] => []
  | (i, m) :: imports => (i, m.bare) :: bareImports imports

end

theorem bareImports_eq (imports : Fields Module) : bareImports imports = imports.mapVal bare := by
  induction imports with
  | nil => rfl
  | cons i imports ih => rw [bareImports, ih]; rfl

@[simp] theorem bare_decls (m : Module) : m.bare.decls = Fields.mapVal Decl.bare m.decls := by
  cases m
  rw [bare]

@[simp] theorem bare_imports (m : Module) : m.bare.imports = Fields.mapVal bare m.imports := by
  cases m
  rw [bare, bareImports_eq]

theorem bare_get? (m : Module) (name : String) : m.bare.get? name = (m.get? name).map Decl.bare := by
  rw [get?, bare_decls, Fields.get?_mapVal]
  rfl

theorem bare_owner? (m : Module) (r : Ref) : m.bare.owner? r = (m.owner? r).map bare := by
  unfold owner? import?
  cases r.via with
  | none => rfl
  | some i => simp only [bare_imports, Fields.get?_mapVal]

theorem bare_resolve? (m : Module) (r : Ref) :
    m.bare.resolve? r = (m.resolve? r).map fun found => (found.1.bare, found.2.bare) := by
  unfold resolve?
  rw [bare_owner?]
  cases m.owner? r with
  | none => rfl
  | some owner =>
    simp only [Option.map_some, bare_decls, Fields.getElem?_mapVal]
    cases owner.decls[r.slot]? with
    | none => rfl
    | some found =>
      simp only [Option.map_some]
      split <;> rfl

end Module

/-- The draft and its imports without documentation. -/
def Draft.bare (d : Draft) : Draft where
  name := d.name
  imports := d.imports.mapVal Module.bare
  slots := d.slots.mapVal (Option.map Decl.bare)

namespace Draft

theorem bodies_bare (slots : Fields (Option Decl)) :
    bodies (slots.mapVal (Option.map Decl.bare)) = (bodies slots).map (Fields.mapVal Decl.bare) := by
  induction slots with
  | nil => rfl
  | cons s slots ih =>
    obtain ⟨name, decl⟩ := s
    cases decl with
    | none => rfl
    | some decl =>
      simp only [Fields.mapVal_cons, Option.map_some, bodies, ih]
      cases bodies slots <;> rfl

theorem aliasCycle?_bare (decls : Fields Decl) :
    aliasCycle? (decls.mapVal Decl.bare) = aliasCycle? decls := by
  have hget : ∀ name, Fields.get? (decls.mapVal Decl.bare) name =
      (decls.get? name).map (Decl.rebuild (fun _ t => t) id) := Fields.get?_mapVal _ _
  unfold aliasCycle?
  rw [Fields.length_mapVal]
  conv_lhs => rw [Fields.mapVal, List.find?_map, Option.map_map]
  refine congrArg₂ Option.map rfl (congrArg (List.find? · decls) (funext fun e => ?_))
  obtain ⟨name, decl⟩ := e
  cases decl with
  | «alias» t => exact aliasesOutlast_rebuild (fun _ _ => rfl) Ref.Renumbers.id hget _ t
  | _ => rfl

theorem finish_bare (d : Draft) : d.bare.finish = d.finish.map Module.bare := by
  unfold finish
  rw [bare, bodies_bare]
  cases bodies d.slots with
  | error e => rfl
  | ok decls =>
    simp only [Except.map, ok_bind, aliasCycle?_bare]
    cases aliasCycle? decls with
    | some name => rfl
    | none => exact congrArg Except.ok (by rw [Module.bare, Module.bareImports_eq])

end Draft

namespace Codec

/-- Errors of the same kind. -/
def SameKind (e e' : CodecError) : Prop := e.kind = e'.kind

theorem bare_rebuilds :
    Rebuilds SameKind (fun _ t => t) fun m ρ m' => ρ = id ∧ m' = m.bare where
  refl _ := rfl
  strip _ _ := rfl
  render _ _ := fun f hf => hf _ _
  renumbers := by
    rintro m ρ m' ⟨rfl, rfl⟩
    exact Ref.Renumbers.id
  length := by
    rintro m ρ m' ⟨rfl, rfl⟩
    simp
  get := by
    rintro m ρ m' ⟨rfl, rfl⟩ name
    exact m.bare_get? name
  unresolved := by
    rintro m ρ m' ⟨rfl, rfl⟩ r hr
    rw [id, Module.bare_resolve?, hr, Option.map_none]
  resolved := by
    rintro m ρ m' ⟨rfl, rfl⟩ r owner decl hr
    refine ⟨id, owner.bare, ⟨rfl, rfl⟩, ?_⟩
    rw [id, Module.bare_resolve?, hr, Option.map_some]
    rfl

theorem Same.mapError_kind {α : Type} {x y : Except CodecError α} (h : Same SameKind x y) :
    x.mapError CodecError.kind = y.mapError CodecError.kind := by
  cases h with
  | ok a => rfl
  | error he => exact congrArg Except.error he

/-- Documentation has no part in what is read, written, compared and finished. -/
theorem documentation_neutral (c : Codec) (t : Ty) :
    (∀ j, (c.decode t j).mapError CodecError.kind =
      ({ c with scope := c.scope.bare }.decode t.bare j).mapError CodecError.kind) ∧
    (∀ v, (c.encodeAs t v).mapError CodecError.kind =
      ({ c with scope := c.scope.bare }.encodeAs t.bare v).mapError CodecError.kind) ∧
    (∀ a b, c.equals t a b = { c with scope := c.scope.bare }.equals t.bare a b) ∧
    ∀ d : Draft, d.bare.finish = d.finish.map Module.bare := by
  refine ⟨fun j => ?_, fun v => ?_, fun a b => ?_, Draft.finish_bare⟩
  · exact (bare_rebuilds.readWithin c.maxDepth c.maxDepth ⟨rfl, rfl⟩ t j).mapError_kind
  · exact (bare_rebuilds.writeAs v ⟨rfl, rfl⟩ t).mapError_kind
  · exact bare_rebuilds.equalAs (a, b) ⟨rfl, rfl⟩ t

end Codec

end Wireform
