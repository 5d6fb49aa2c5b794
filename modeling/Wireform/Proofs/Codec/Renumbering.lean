import Mathlib
import Wireform.Proofs.Codec.Likeness

/-!
# Modules with other slots

Slots are numbers for the declarations of a module, and references inside it are kept as such numbers. Two
modules that differ by a renumbering of slots (`Renumbered`) read, write and compare alike at every type that
has a name, down to the texts of errors.
-/

namespace Wireform

/-- References inside the module get another slot. -/
def Ref.renumber (σ : Nat → Nat) (r : Ref) : Ref :=
  match r.via with
  | none => { r with slot := σ r.slot }
  | some _ => r

theorem Ref.renumber_of_local {r : Ref} (σ : Nat → Nat) (h : r.via = none) :
    r.renumber σ = { r with slot := σ r.slot } := by
  rw [renumber, h]

theorem Ref.renumber_of_via {r : Ref} {i : String} (σ : Nat → Nat) (h : r.via = some i) : r.renumber σ = r := by
  rw [renumber, h]

theorem Ref.renumber_renumbers (σ : Nat → Nat) : Renumbers (Ref.renumber σ) := by
  constructor
  · intro r
    cases h : r.via with
    | none => rw [renumber_of_local σ h, h]
    | some i => rw [renumber_of_via σ h, h]
  · intro r
    cases h : r.via with
    | none => rw [renumber_of_local σ h]
    | some i => rw [renumber_of_via σ h]

namespace Ty

variable {ρ : Ref → Ref}

theorem isTuple_rebuildFields (wrap : String → Ty → Ty) (fields : List (String × Ty)) :
    isTuple (rebuildFields wrap ρ fields) = isTuple fields := by
  rw [rebuildFields_eq, isTuple, isTuple, Fields.keys_mapVal, Fields.length_mapVal]
  cases fields <;> rfl

mutual

/-- The text of a type shows no slots. -/
theorem render_rebuild (hρ : Ref.Renumbers ρ) : (t : Ty) → (t.rebuild .annot ρ).render = t.render
  | .prim p => rfl
  | .optional t | .list t | .object t => by rw [rebuild, render, render_rebuild hρ t, render]
  | .map k v => by rw [rebuild, render, render_rebuild hρ k, render_rebuild hρ v, render]
  | .record fields => by
    rw [rebuild, render, isTuple_rebuildFields, renderElems_rebuild hρ fields, renderFields_rebuild hρ fields,
      render]
  | .sum variants => by rw [rebuild, render, renderVariants_rebuild hρ variants, render]
  | .annot doc t => by rw [rebuild, render, render_rebuild hρ t, render]
  | .ref r => by rw [rebuild, render, hρ.path, render]

theorem renderElems_rebuild (hρ : Ref.Renumbers ρ) : (fields : List (String × Ty)) →
    renderElems (rebuildFields .annot ρ fields) = renderElems fields
  | [] => rfl
  | (k, t) :: fields => by
    rw [rebuildFields, renderElems, render_rebuild hρ t, renderElems_rebuild hρ fields, renderElems]

theorem renderFields_rebuild (hρ : Ref.Renumbers ρ) : (fields : List (String × Ty)) →
    renderFields (rebuildFields .annot ρ fields) = renderFields fields
  | [] => rfl
  | (k, t) :: fields => by
    rw [rebuildFields, renderFields, render_rebuild hρ t, renderFields_rebuild hρ fields, renderFields]

theorem renderVariants_rebuild (hρ : Ref.Renumbers ρ) : (variants : List (String × List (String × Ty))) →
    renderVariants (rebuildVariants .annot ρ variants) = renderVariants variants
  | [] => rfl
  | (tag, fields) :: variants => by
    have hempty : (rebuildFields .annot ρ fields).isEmpty = fields.isEmpty := by
      cases fields <;> rfl
    rw [rebuildVariants, renderVariants, hempty, renderFields_rebuild hρ fields,
      renderVariants_rebuild hρ variants, renderVariants]

end

end Ty

theorem Fields.Distinct.index?_eq_some {α : Type} {fs : Fields α} (hd : Fields.Distinct fs) {i : Nat}
    {k : String} {a : α} (h : fs[i]? = some (k, a)) : fs.index? k = some i := by
  obtain ⟨hlt, hi⟩ := List.getElem?_eq_some_iff.1 h
  have hkey : ∀ j (hj : j < fs.length), (Fields.keys fs)[j]? = some fs[j].1 := by
    intro j hj
    simp [Fields.keys, hj]
  cases hj : fs.index? k with
  | none =>
    rw [Fields.index?_eq, List.findIdx?_eq_none_iff] at hj
    have := hj k (Fields.mem_keys_of_mem (List.mem_of_getElem? h))
    simp at this
  | some j =>
    obtain ⟨b, hb, -⟩ := Fields.index?_eq_some hj
    obtain ⟨hlt', hb⟩ := List.getElem?_eq_some_iff.1 hb
    have hsame : (Fields.keys fs)[j]? = (Fields.keys fs)[i]? := by rw [hkey j hlt', hkey i hlt, hb, hi]
    rw [(List.getElem?_inj (by simpa using hlt') hd).1 hsame]

/-- The place in `names'` of the name at place `i` of `names`. -/
def moveSlot (names names' : List String) (i : Nat) : Nat :=
  (names[i]?.bind fun n => names'.findIdx? (· == n)).getD i

section

variable {names names' : List String}

theorem findIdx?_moveSlot (h : names'.Perm names) (n : String) :
    names'.findIdx? (· == n) = (names.findIdx? (· == n)).map (moveSlot names names') := by
  cases hi : names.findIdx? (· == n) with
  | none =>
    rw [List.findIdx?_eq_none_iff] at hi
    rw [Option.map_none, List.findIdx?_eq_none_iff]
    exact fun x hx => hi x (h.subset hx)
  | some i =>
    obtain ⟨hlt, hn, -⟩ := List.findIdx?_eq_some_iff_getElem.1 hi
    obtain rfl : names[i] = n := by simpa using hn
    have hmem : names[i] ∈ names' := h.symm.subset (List.getElem_mem hlt)
    cases hj : names'.findIdx? (· == names[i]) with
    | none =>
      have := List.findIdx?_eq_none_iff.1 hj _ hmem
      simp at this
    | some j => simp [moveSlot, hlt, hj]

theorem moveSlot_of_le {i : Nat} (h : names.length ≤ i) : moveSlot names names' i = i := by
  simp [moveSlot, List.getElem?_eq_none h]

end

namespace Module

/-- `m'` has the declarations of `m`, each of them in the slot that `σ` says. -/
structure Renumbered (σ : Nat → Nat) (m m' : Module) : Prop where
  name : m'.name = m.name
  imports : m'.imports = m.imports
  names : (Fields.keys m'.decls).Perm (Fields.keys m.decls)
  slots : ∀ i, m'.decls[σ i]? = m.decls[i]?.map fun e => (e.1, e.2.rebuild .annot (Ref.renumber σ))
  slotOf : ∀ name, m'.slotOf? name = (m.slotOf? name).map σ
  get : ∀ name, m'.get? name = (m.get? name).map (Decl.rebuild .annot (Ref.renumber σ))

namespace Renumbered

variable {σ : Nat → Nat} {m m' : Module}

/-- It is enough that each name has the same declaration, with references moved as the names are. -/
theorem of_get (hname : m'.name = m.name) (himports : m'.imports = m.imports) (hd : Fields.Distinct m.decls)
    (hp : (Fields.keys m'.decls).Perm (Fields.keys m.decls))
    (hσ : σ = moveSlot (Fields.keys m.decls) (Fields.keys m'.decls))
    (hget : ∀ name, m'.get? name = (m.get? name).map (Decl.rebuild .annot (Ref.renumber σ))) :
    Renumbered σ m m' := by
  have hslot : ∀ name, m'.slotOf? name = (m.slotOf? name).map σ := by
    intro name
    rw [slotOf?, slotOf?, Fields.index?_eq, Fields.index?_eq, hσ, findIdx?_moveSlot hp]
  refine ⟨hname, himports, hp, fun i => ?_, hslot, hget⟩
  cases hi : m.decls[i]? with
  | none =>
    have hle := List.getElem?_eq_none_iff.1 hi
    have hlength := hp.length_eq
    rw [Fields.length_keys, Fields.length_keys] at hlength
    rw [hσ, moveSlot_of_le (by rwa [Fields.length_keys]), Option.map_none, List.getElem?_eq_none_iff]
    omega
  | some e =>
    obtain ⟨name, decl⟩ := e
    have hm : m.slotOf? name = some i := hd.index?_eq_some hi
    have hm' : m'.slotOf? name = some (σ i) := by rw [hslot, hm, Option.map_some]
    obtain ⟨decl', hat, hdecl'⟩ := Fields.index?_eq_some hm'
    have hdecl : m.get? name = some decl := hd.get?_eq_some (List.mem_of_getElem? hi)
    have hsame := hget name
    rw [get?, hdecl', hdecl, Option.map_some, Option.some.injEq] at hsame
    rw [hat, hsame, Option.map_some]

theorem length (h : Renumbered σ m m') : m'.decls.length = m.decls.length := by
  have := h.names.length_eq
  rwa [Fields.length_keys, Fields.length_keys] at this

theorem lookup? (h : Renumbered σ m m') (path : String) :
    m'.lookup? path = (m.lookup? path).map (Ref.renumber σ) := by
  unfold Module.lookup?
  generalize splitPath path = split
  obtain ⟨via, name⟩ := split
  cases via with
  | none =>
    simp only [h.slotOf, Option.map_map]
    rfl
  | some i =>
    simp only [import?, h.imports]
    cases Fields.get? m.imports i with
    | none => rfl
    | some owner =>
      simp only [Option.map_map]
      rfl

theorem resolve?_local (h : Renumbered σ m m') {r : Ref} (hr : r.via = none) :
    m'.resolve? (r.renumber σ) =
      (m.resolve? r).map fun found => (m', found.2.rebuild .annot (Ref.renumber σ)) := by
  rw [Ref.renumber_of_local σ hr]
  simp only [resolve?, owner?, hr, h.slots]
  cases m.decls[r.slot]? with
  | none => rfl
  | some e =>
    simp only [Option.map_some]
    split <;> rfl

theorem resolve?_via (h : Renumbered σ m m') {r : Ref} {i : String} (hr : r.via = some i) :
    m'.resolve? (r.renumber σ) = m.resolve? r := by
  rw [Ref.renumber_of_via σ hr]
  simp only [resolve?, owner?, import?, hr, h.imports]

end Renumbered

end Module

namespace Codec

variable {σ : Nat → Nat} {m m' : Module}

/-- The two modules, and every other one with itself. -/
def Beside (σ : Nat → Nat) (m m' a : Module) (ρ : Ref → Ref) (b : Module) : Prop :=
  (a = m ∧ ρ = Ref.renumber σ ∧ b = m') ∨ (ρ = id ∧ b = a)

theorem renumbered_rebuilds (h : m.Renumbered σ m') : Rebuilds Eq .annot (Beside σ m m') where
  refl _ := rfl
  strip _ _ := rfl
  renumbers := by
    rintro a ρ b (⟨rfl, rfl, rfl⟩ | ⟨rfl, rfl⟩)
    · exact Ref.renumber_renumbers σ
    · exact Ref.Renumbers.id
  render := by
    rintro a ρ b (⟨rfl, rfl, rfl⟩ | ⟨rfl, rfl⟩) t
    · rw [Ty.render_rebuild (Ref.renumber_renumbers σ)]
      exact Interchangeable.refl (fun _ => rfl) _
    · rw [Ty.rebuild_annot_id]
      exact Interchangeable.refl (fun _ => rfl) _
  length := by
    rintro a ρ b (⟨rfl, rfl, rfl⟩ | ⟨rfl, rfl⟩)
    · exact h.length
    · rfl
  get := by
    rintro a ρ b (⟨rfl, rfl, rfl⟩ | ⟨rfl, rfl⟩) name
    · exact h.get name
    · cases b.get? name with
      | none => rfl
      | some decl => rw [Option.map_some, Decl.rebuild_annot_id]
  unresolved := by
    rintro a ρ b (⟨rfl, rfl, rfl⟩ | ⟨rfl, rfl⟩) r hr
    · cases hv : r.via with
      | none => rw [h.resolve?_local hv, hr, Option.map_none]
      | some i => rw [h.resolve?_via hv, hr]
    · exact hr
  resolved := by
    rintro a ρ b (⟨rfl, rfl, rfl⟩ | ⟨rfl, rfl⟩) r owner decl hr
    · cases hv : r.via with
      | none =>
        obtain ⟨ho, -⟩ := Module.resolve?_eq_some hr
        rw [Module.owner?, hv, Option.some.injEq] at ho
        refine ⟨_, b, .inl ⟨ho.symm, rfl, rfl⟩, ?_⟩
        rw [h.resolve?_local hv, hr, Option.map_some]
      | some i =>
        refine ⟨id, owner, .inr ⟨rfl, rfl⟩, ?_⟩
        rw [h.resolve?_via hv, hr, Decl.rebuild_annot_id]
    · exact ⟨id, owner, .inr ⟨rfl, rfl⟩, by rw [id, hr, Decl.rebuild_annot_id]⟩

theorem Same.eq {α : Type} {x y : Except CodecError α} (h : Same Eq x y) : x = y := by
  cases h with
  | ok a => rfl
  | error he => rw [he]

theorem named_renumbered (h : m.Renumbered σ m') (depth : Nat) (path : String) :
    (Codec.mk m' depth).named path = (Ty.rebuild .annot (Ref.renumber σ) <$> (Codec.mk m depth).named path) := by
  unfold named
  rw [h.lookup?]
  cases m.lookup? path with
  | none => rfl
  | some r => rfl

/-- At a type with a name the modules cannot be told apart. -/
theorem agree_of_renumbered (h : m.Renumbered σ m') (depth : Nat) (path : String) :
    (∀ j, (Codec.mk m' depth).decodeNamed path j = (Codec.mk m depth).decodeNamed path j) ∧
    (∀ v, (do (Codec.mk m' depth).encodeAs (← (Codec.mk m' depth).named path) v) =
      do (Codec.mk m depth).encodeAs (← (Codec.mk m depth).named path) v) ∧
    ∀ a b, (do return (Codec.mk m' depth).equals (← (Codec.mk m' depth).named path) a b) =
      (do return (Codec.mk m depth).equals (← (Codec.mk m depth).named path) a b) := by
  have hr := renumbered_rebuilds h
  have hm : Beside σ m m' m (Ref.renumber σ) m' := .inl ⟨rfl, rfl, rfl⟩
  simp only [decodeNamed, named_renumbered h]
  cases (Codec.mk m depth).named path with
  | error e => exact ⟨fun _ => rfl, fun _ => rfl, fun _ _ => rfl⟩
  | ok t =>
    refine ⟨fun j => ?_, fun v => ?_, fun a b => ?_⟩
    · exact (hr.readWithin depth depth hm t j).eq.symm
    · exact (hr.writeAs v hm t).eq.symm
    · exact congrArg Except.ok (hr.equalAs (a, b) hm t).symm

end Codec

end Wireform
