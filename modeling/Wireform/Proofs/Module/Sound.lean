import Mathlib
import Wireform.Module.Draft
import Wireform.Proofs.Ty

/-!
# Sound modules

`Module.Orderly` is what compiling a module leaves behind: names without repetition and without
points, proper declarations, a name for every tag of a sum, aliases that come to an end, and imports
kept under their own names. A module is `Sound` if it and all modules below it are orderly.
-/

namespace Wireform

namespace Module

structure Orderly (m : Module) : Prop where
  distinct : Fields.Distinct m.decls
  plain : ∀ d ∈ m.decls, '.' ∉ d.1.toList
  proper : ∀ d ∈ m.decls, d.2.Proper
  exclusive : ∀ d ∈ m.decls, d.2.Exclusive
  /-- The tag at each position of a sum is declared as such. -/
  tags : ∀ name variants, (name, Decl.sum variants) ∈ m.decls →
    ∀ i v, variants[i]? = some v → (v.1, Decl.variant name i) ∈ m.decls
  aliasesEnd : Draft.aliasCycle? m.decls = none
  imported : ∀ i ∈ m.imports, i.1 = i.2.name

/-- The tags of a sum are different if each is declared with its position. -/
theorem distinct_of_tags {variants : List Variant} {name : String} {get : String → Option Decl}
    (h : ∀ i v, variants[i]? = some v → get v.1 = some (.variant name i)) : Fields.Distinct variants := by
  unfold Fields.Distinct
  rw [List.nodup_iff_getElem?_ne_getElem?]
  intro i k hik hk he
  have hk' : k < variants.length := by simpa using hk
  have hi' : i < variants.length := by omega
  have htag : (variants[i]).1 = (variants[k]).1 := by simpa [Fields.keys, hi', hk'] using he
  have h₁ := h i _ (List.getElem?_eq_getElem hi')
  have h₂ := h k _ (List.getElem?_eq_getElem hk')
  rw [htag, h₂, Option.some.injEq, Decl.variant.injEq] at h₁
  omega

inductive Sound : Module → Prop
  | intro {m : Module} : m.Orderly → (∀ i ∈ m.imports, i.2.Sound) → m.Sound

namespace Sound

variable {m owner : Module} {r : Ref} {decl : Decl}

theorem orderly (h : m.Sound) : m.Orderly := by
  cases h with
  | intro h _ => exact h

theorem imports (h : m.Sound) : ∀ i ∈ m.imports, i.2.Sound := by
  cases h with
  | intro _ h => exact h

end Sound

variable {m owner : Module} {r : Ref} {decl : Decl}

/-- A reference points at a declaration of its name in the module itself or in an import. -/
theorem resolve?_eq_some (h : m.resolve? r = some (owner, decl)) :
    m.owner? r = some owner ∧ owner.decls[r.slot]? = some (r.name, decl) := by
  unfold resolve? at h
  split at h
  · simp at h
  · rename_i o ho
    split at h
    · simp at h
    · rename_i name d hd
      split at h
      · rename_i hn
        obtain ⟨rfl, rfl⟩ := Prod.mk.inj (Option.some.inj h)
        exact ⟨ho, hn ▸ hd⟩
      · simp at h

theorem mem_decls_of_resolve? (h : m.resolve? r = some (owner, decl)) :
    (r.name, decl) ∈ owner.decls :=
  List.mem_of_getElem? (resolve?_eq_some h).2

theorem owner?_eq_some (h : m.owner? r = some owner) :
    (r.via = none ∧ owner = m) ∨ ∃ i, r.via = some i ∧ (i, owner) ∈ m.imports := by
  unfold owner? at h
  split at h
  · rename_i hv
    exact .inl ⟨hv, (Option.some.inj h).symm⟩
  · rename_i i hv
    exact .inr ⟨i, hv, Fields.mem_of_get? h⟩

namespace Sound

theorem of_resolve? (hm : m.Sound) (h : m.resolve? r = some (owner, decl)) : owner.Sound := by
  rcases owner?_eq_some (resolve?_eq_some h).1 with ⟨-, rfl⟩ | ⟨i, -, hi⟩
  · exact hm
  · exact hm.imports _ hi

theorem decl_proper (hm : m.Sound) (h : m.resolve? r = some (owner, decl)) : decl.Proper :=
  (hm.of_resolve? h).orderly.proper _ (mem_decls_of_resolve? h)

theorem decl_exclusive (hm : m.Sound) (h : m.resolve? r = some (owner, decl)) : decl.Exclusive :=
  (hm.of_resolve? h).orderly.exclusive _ (mem_decls_of_resolve? h)

end Sound

theorem variant?_eq_some {parent : String} {index : Nat} {v : Variant}
    (h : m.variant? parent index = some v) :
    ∃ variants, m.get? parent = some (.sum variants) ∧ variants[index]? = some v := by
  unfold variant? at h
  split at h
  · rename_i variants hs
    exact ⟨variants, hs, h⟩
  · simp at h

theorem Orderly.variant_proper (hm : m.Orderly) {parent : String} {index : Nat} {v : Variant}
    (h : m.variant? parent index = some v) : Fields.Proper (some v.1) v.2 := by
  obtain ⟨variants, hs, hv⟩ := variant?_eq_some h
  exact hm.proper _ (Fields.mem_of_get? hs) v (List.mem_of_getElem? hv)

theorem Orderly.variant_exclusive (hm : m.Orderly) {parent : String} {index : Nat} {v : Variant}
    (h : m.variant? parent index = some v) : ∀ f ∈ v.2, f.2.Exclusive := by
  obtain ⟨variants, hs, hv⟩ := variant?_eq_some h
  exact hm.exclusive _ (Fields.mem_of_get? hs) v (List.mem_of_getElem? hv)

end Module

end Wireform
