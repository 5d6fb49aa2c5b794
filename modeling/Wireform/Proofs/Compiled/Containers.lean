import Mathlib
import Wireform.Proofs.Codec.NormalForm
import Wireform.Proofs.Compiled.Agreement

/-!
# Compiled containers

A type that is made of scalars, optionals, lists, objects, maps and tuples alone has a compiled type of
the same make. Messages call the two alike, so that their readers agree to the letter where neither has
come to its limit. No module has a part in such a type: what is written at it is the same in all of them.
-/

namespace Wireform.Compiled

/-- The compiled type of a type that refers to no declaration: scalars, and optionals, lists, objects,
maps and tuples of at least one element, nested in any way. -/
abbrev Spells : CTy → Ty → Prop := Models fun _ _ => False

variable {c : CTy} {t : Ty}

/-! ### What messages call them -/

theorem isTuple_ordinals {α : Type} {elems : List α} (h : elems ≠ []) :
    isTuple (elems.mapIdx fun i a => (ordinalName i, a)) = true := by
  rw [isTuple, keys_ordinals, List.length_mapIdx, beq_self_eq_true, Bool.and_true]
  simpa using h

theorem renderElems_eq (fields : Fields Ty) :
    Ty.renderElems fields = fields.map fun f => f.2.render := by
  induction fields with
  | nil => rfl
  | cons f fields ih => rw [Ty.renderElems, ih]; rfl

theorem expectedAll_eq (env : Env) (elems : List CTy) :
    expectedAll env elems = elems.map (CTy.expected env) := by
  induction elems with
  | nil => rfl
  | cons c elems ih => rw [expectedAll, ih]; rfl

theorem render_tuple {ts : List Ty} (h : ts ≠ []) :
    (Ty.tuple ts).render = "(" ++ ", ".intercalate (ts.map Ty.render) ++ ")" := by
  have hmap : (ts.mapIdx fun i t => (ordinalName i, t)).map (fun f => f.2.render) =
      ts.map Ty.render := by
    apply List.ext_getElem <;> simp
  rw [Ty.tuple, Ty.render, if_pos (isTuple_ordinals h), renderElems_eq, hmap]

theorem expected_eq_render (env : Env) (h : Spells c t) : c.expected env = t.render := by
  induction h with
  | prim p => rfl
  | optional _ ih | list _ ih | object _ ih => rw [CTy.expected, Ty.render, ih]
  | map _ _ ihk ihv => rw [CTy.expected, Ty.render, ihk, ihv]
  | tuple parts hn _ ih =>
    have hmap : (parts.map Prod.fst).map (CTy.expected env) = (parts.map Prod.snd).map Ty.render := by
      rw [List.map_map, List.map_map]
      exact List.map_congr_left ih
    rw [CTy.expected, expectedAll_eq, hmap, render_tuple (by simpa using hn)]
  | leaf h => exact h.elim

/-- Readers of such types give the same value or the same error, unless the limit is reached. -/
theorem Spells.agrees (h : Spells c t) (env : Env) (limit limit' room : Nat) (m : Module) (j : Json) :
    Agrees Eq (readWithin env limit room c j) (Codec.readWithin limit' room m t j) := by
  let leaf : Module → CTy → Ty → Prop := fun _ _ _ => False
  have hleaf : ∀ m c t, leaf m c t → Backed env Eq leaf m c t := fun _ _ _ h => h.elim
  refine Models.agrees (fun _ => rfl) hleaf (fun _ c t h => ?_) h j
  rw [expected_eq_render env h]
  exact ⟨fun _ => rfl, fun _ => rfl, fun _ => rfl⟩

/-! ### What is written -/

theorem Spells.proper (h : Spells c t) : t.Proper := by
  induction h with
  | prim p => trivial
  | optional _ ih | list _ ih | object _ ih => exact ih
  | map _ _ ihk ihv => exact ⟨ihk, ihv⟩
  | tuple parts _ _ ih =>
    refine Ty.proper_record.2 ⟨distinct_ordinals _, by simp, fun f hf => ?_⟩
    obtain ⟨i, hi, rfl⟩ := List.mem_mapIdx.1 hf
    exact List.forall_mem_map.2 ih _ (List.getElem_mem hi)
  | leaf h => exact h.elim

/-- A type without references is written alike in all modules. -/
theorem Spells.writeAs_eq (h : Spells c t) (m m' : Module) (v : Value) :
    Codec.writeAs v m t = Codec.writeAs v m' t := by
  induction h generalizing v
  case leaf h => exact h.elim
  all_goals
    unfold Codec.writeAs
    rw [Module.expose_inline m (by simp [Ty.tuple]) (by simp [Ty.tuple]),
      Module.expose_inline m' (by simp [Ty.tuple]) (by simp [Ty.tuple])]
  case prim p => rfl
  case optional ih =>
    cases v with
    | present v => exact ih v
    | _ => rfl
  case list ih =>
    cases v with
    | list items =>
      simp only [Module.exposeInline, Codec.itemWriters_eq, mapM_map]
      rw [mapM_congr fun v _ => ih v]
    | _ => rfl
  case object ih =>
    cases v with
    | object props =>
      simp only [Module.exposeInline, Codec.fieldWriters_eq, mapM_map]
      rw [mapM_congr fun p _ => by rw [ih p.2]]
    | _ => rfl
  case map ihk ihv =>
    cases v with
    | map entries =>
      simp only [Module.exposeInline, Codec.entryWriters_eq, mapM_map]
      rw [mapM_congr fun e _ => by rw [ihk e.1, ihv e.2]]
    | _ => rfl
  case tuple parts _ _ ih =>
    cases v with
    | record values =>
      refine Codec.writeFields_congr rfl (fun f hf => ?_) none
      obtain ⟨i, hi, rfl⟩ := List.mem_mapIdx.1 hf
      obtain ⟨p, hp, he⟩ := List.mem_map.1 (List.getElem_mem hi)
      rw [Codec.fieldWriters_get?, Option.map_map, Option.map_map, ← he]
      exact congrFun (congrArg Option.map (funext (ih p hp))) _
    | _ => rfl

/-- The module without declarations. -/
def blank : Module := ⟨"", [], []⟩

theorem blank_sound : blank.Sound :=
  Module.Built.sound (.finish (.new "") rfl)

/-- Prices by name: an amount, and a history if there is one. -/
def prices : Ty := .map (.prim .str) (.tuple [.prim .i64, .optional (.list (.prim .u32))])

def compiledPrices : CTy :=
  .map (.prim .str) (.tuple [.prim .i64, .optional (.list (.prim .u32))])

/-- A name that stands twice, an amount that is a bare number, properties out of order. -/
def pricesDoc : Json :=
  .arr [.obj [("key", .str "tea"), ("value", .obj [("_2", .null), ("_1", .str "40")])],
    .obj [("value", .obj [("_1", .ofInt 45), ("_2", .arr [.ofInt 40])]), ("key", .str "tea")]]

/-- The first place and the last value. -/
def pricesValue : Value :=
  .map [(.str "tea", .record [("_1", .i64 45), ("_2", .present (.list [.u32 40]))])]

theorem spells_prices : Spells compiledPrices prices :=
  .map (.prim _) (.tuple [(.prim .i64, .prim .i64),
    (.optional (.list (.prim .u32)), .optional (.list (.prim .u32)))] (by simp) (by
      simpa using ⟨.prim _, .optional (.list (.prim _))⟩))

end Wireform.Compiled
