import Mathlib
import Wireform.Proofs.Emit.Plan

/-!
# The layout of a module

Every item of a module has a role: a declared name is its own owner, and what is made for an inline type
belongs to the declaration that the type stands in. Roles are numbered in the order in which their names
are taken. `Fits` says of an item how the items that it contains by value lie around it, and
`exists_planned` that all items of a built module fit one list of roles, with an item for each role.
-/

namespace Wireform.Emit

variable {m : Module}

/-! ### Items that fit -/

/-- The role of a declared name. -/
def declaredRole (m : Module) (name : String) : Role := ⟨name, name, heldByName m name⟩

def declaredRoles (m : Module) : List Role := (Fields.keys m.decls).map (declaredRole m)

/-- The declared roles come first, and every role belongs to a declaration. -/
structure Rooted (m : Module) (roles : List Role) : Prop where
  declared : declaredRoles m <+: roles
  owners : ∀ r ∈ roles, r.owner ∈ Fields.keys m.decls

/-- The name of a role beyond the declared ones. -/
def Extra (m : Module) (roles : List Role) (name : String) : Prop :=
  ∃ j r, m.decls.length ≤ j ∧ roles[j]? = some r ∧ r.name = name

/-- The name of such a role after position `i`, with the same owner and with no more held. -/
def After (m : Module) (roles : List Role) (i : Nat) (role : Role) (name : String) : Prop :=
  ∃ j r, i < j ∧ m.decls.length ≤ j ∧ roles[j]? = some r ∧ r.name = name ∧ r.owner = role.owner ∧
    r.held ⊆ role.held

/-- What the item at position `i` is to hold is contained by value or boxed, or it is left to an item that
is contained by value and comes later. -/
def Passes (roles : List Role) (i : Nat) (item : Item) (name : String) : Prop :=
  name ∈ item.embedded ∨ name ∈ item.boxes ∨
    ∃ j r, i < j ∧ roles[j]? = some r ∧ r.name ∈ item.embedded ∧ name ∈ r.held

inductive Fits (m : Module) (roles : List Role) : Item → Prop
  /-- What is contained by value does not hold the owner, or it was made for the item. -/
  | own {item : Item} {i : Nat} {role : Role} : roles[i]? = some role → role.name = item.name →
    (∀ name docs t, item ≠ .synonym name docs t) →
    (∀ n ∈ item.embedded, (n ∈ role.held ∧ n ∈ Fields.keys m.decls ∧ ¬ Holds m n role.owner) ∨
      After m roles i role n) → (∀ n ∈ role.held, Passes roles i item n) → Fits m roles item
  /-- A declared sum contains its tags. -/
  | tags {name : String} {docs : List String} {arms : List (String × String)} {variants : List Variant} :
    m.get? name = some (.sum variants) → arms.map Prod.snd = Fields.keys variants →
    Fits m roles (.enum name docs arms)
  /-- A synonym is an alias that does not come back to itself; what it contains may hold it. -/
  | synonym {name : String} {docs : List String} {t : FieldTy} {s : Ty} {i : Nat} :
    m.get? name = some (.alias s) → ¬ Mentions m name name →
    roles[i]? = some (declaredRole m name) →
    (∀ n ∈ t.embedded, (n ∈ heldByName m name ∧ n ∈ Fields.keys m.decls) ∨
      After m roles i (declaredRole m name) n) →
    (∀ n ∈ t.mentioned, n ∈ mentionedByAlias m name ∨ Extra m roles n) →
    (∀ n ∈ heldByName m name, Passes roles i (.synonym name docs t) n) →
    Fits m roles (.synonym name docs t)

theorem getElem?_append_of_some {α : Type} {l : List α} {i : Nat} {a : α} (h : l[i]? = some a)
    (l' : List α) : (l ++ l')[i]? = some a := by
  obtain ⟨hi, -⟩ := List.getElem?_eq_some_iff.1 h
  rw [List.getElem?_append_left hi, h]

namespace Rooted

variable {roles added : List Role} {name : String}

theorem append (h : Rooted m roles) (ha : ∀ r ∈ added, r.owner ∈ Fields.keys m.decls) :
    Rooted m (roles ++ added) :=
  ⟨h.declared.trans (List.prefix_append _ _), List.forall_mem_append.2 ⟨h.owners, ha⟩⟩

theorem length_le (h : Rooted m roles) : m.decls.length ≤ roles.length := by
  simpa [declaredRoles, Fields.keys] using h.declared.length_le

theorem mem_roles (h : Rooted m roles) (hn : name ∈ Fields.keys m.decls) : declaredRole m name ∈ roles :=
  h.declared.subset (List.mem_map_of_mem hn)

theorem exists_declared (h : Rooted m roles) (hn : name ∈ Fields.keys m.decls) :
    ∃ i : Nat, roles[i]? = some (declaredRole m name) :=
  List.mem_iff_getElem?.1 (h.mem_roles hn)

/-- What is declared has a role from the start. -/
theorem mem_names (h : Rooted m roles) (hn : name ∈ Fields.keys m.decls) : name ∈ roles.map Role.name :=
  List.mem_map.2 ⟨_, h.mem_roles hn, rfl⟩

end Rooted

section

variable {roles added : List Role} {i : Nat} {role r : Role} {n : String}

theorem Extra.append (h : Extra m roles n) (added : List Role) : Extra m (roles ++ added) n := by
  obtain ⟨j, r, hj, hr, hn⟩ := h
  exact ⟨j, r, hj, getElem?_append_of_some hr added, hn⟩

theorem After.append (h : After m roles i role n) (added : List Role) :
    After m (roles ++ added) i role n := by
  obtain ⟨j, r, hi, hj, hr, h⟩ := h
  exact ⟨j, r, hi, hj, getElem?_append_of_some hr added, h⟩

theorem Passes.append {item : Item} (h : Passes roles i item n) (added : List Role) :
    Passes (roles ++ added) i item n := by
  rcases h with hin | hin | ⟨j, r, hj, hr, h⟩
  · exact .inl hin
  · exact .inr (.inl hin)
  · exact .inr (.inr ⟨j, r, hj, getElem?_append_of_some hr added, h⟩)

theorem Fits.append {item : Item} (h : Fits m roles item) (added : List Role) :
    Fits m (roles ++ added) item := by
  cases h with
  | own hi hn hs he hp =>
    refine .own (getElem?_append_of_some hi added) hn hs (fun n hn => ?_) fun n hn => (hp n hn).append added
    exact (he n hn).imp_right fun h => h.append added
  | tags hv ha => exact .tags hv ha
  | synonym hg hc hi he hm hp =>
    refine .synonym hg hc (getElem?_append_of_some hi added) (fun n hn => ?_) (fun n hn => ?_)
      fun n hn => (hp n hn).append added
    · exact (he n hn).imp_right fun h => h.append added
    · exact (hm n hn).imp_right fun h => h.append added

/-- Added roles come after those that are there. -/
theorem exists_getElem?_of_mem_added (hr : r ∈ added) :
    ∃ j, roles.length ≤ j ∧ (roles ++ added)[j]? = some r := by
  obtain ⟨k, hk⟩ := List.mem_iff_getElem?.1 hr
  refine ⟨roles.length + k, Nat.le_add_right _ _, ?_⟩
  rw [List.getElem?_append_right (Nat.le_add_right _ _), Nat.add_sub_cancel_left, hk]

theorem after_of_mem_added (h : Rooted m roles) (hi : roles[i]? = some role) (hr : r ∈ added)
    (ho : r.owner = role.owner) (hh : r.held ⊆ role.held) : After m (roles ++ added) i role r.name := by
  obtain ⟨j, hj, hget⟩ := exists_getElem?_of_mem_added hr
  obtain ⟨hlt, -⟩ := List.getElem?_eq_some_iff.1 hi
  exact ⟨j, r, by omega, h.length_le.trans hj, hget, rfl, ho, hh⟩

theorem extra_of_mem_added (h : Rooted m roles) (hn : n ∈ added.map Role.name) :
    Extra m (roles ++ added) n := by
  obtain ⟨r, hr, rfl⟩ := List.mem_map.1 hn
  obtain ⟨j, hj, hget⟩ := exists_getElem?_of_mem_added hr
  exact ⟨j, r, h.length_le.trans hj, hget, rfl⟩

theorem Kept.passes {held : List String} {item : Item} (h : Kept held added item.embedded item.boxes)
    (hi : i < roles.length) : ∀ n ∈ held, Passes (roles ++ added) i item n := by
  intro n hn
  rcases h n hn with hin | hin | ⟨r, hr, hin, hh⟩
  · exact .inl hin
  · exact .inr (.inl hin)
  · obtain ⟨j, hj, hget⟩ := exists_getElem?_of_mem_added hr
    exact .inr (.inr ⟨j, r, by omega, hget, hin, hh⟩)

/-- An item whose positions were formed for its role. -/
theorem Formed.fits {held mentioned : List String} {item : Item} (hr : Rooted m roles)
    (hi : roles[i]? = some role) (hn : role.name = item.name)
    (hs : ∀ name docs t, item ≠ .synonym name docs t) (hh : role.held = held)
    (hd : held ⊆ Fields.keys m.decls)
    (h : Formed m role.owner true held mentioned added item.embedded item.mentioned)
    (hk : Kept held added item.embedded item.boxes) : Fits m (roles ++ added) item := by
  subst hh
  refine .own (getElem?_append_of_some hi added) hn hs (fun n hin => ?_)
    (hk.passes (List.getElem?_eq_some_iff.1 hi).1)
  rcases h.embeds n hin with ⟨hin, hno⟩ | ⟨r, hmem, rfl, ho, hsub⟩
  · exact .inl ⟨hin, hd hin, hno rfl⟩
  · exact .inr (after_of_mem_added hr hi hmem ho hsub)

end

/-! ### Batches of items -/

structure Emitted (m : Module) (roles : List Role) (items : List Item) : Prop where
  fits : ∀ item ∈ items, Fits m roles item
  known : ∀ item ∈ items, ∀ n ∈ item.mentioned, n ∈ roles.map Role.name

/-- Items that were made together, with the roles and the inline types that they brought. A new role has
its item, or it waits. -/
structure Batch (m : Module) (roles added : List Role) (new : List Inline) (items : List Item) :
    Prop where
  emitted : Emitted m (roles ++ added) items
  owners : ∀ r ∈ added, r.owner ∈ Fields.keys m.decls
  queued : ∀ i ∈ new, i.role ∈ added ∧ i.mentioned ⊆ Fields.keys m.decls
  made : ∀ r ∈ added, r.name ∈ items.map Item.name ∨ ∃ i ∈ new, i.role = r

section

variable {roles added : List Role} {i : Nat} {role : Role}

theorem Emitted.append {items : List Item} (h : Emitted m roles items) (added : List Role) :
    Emitted m (roles ++ added) items where
  fits item hi := (h.fits item hi).append added
  known item hi n hn := by
    rw [List.map_append]
    exact List.mem_append_left _ (h.known item hi n hn)

theorem Emitted.concat {items items' : List Item} (h : Emitted m roles items)
    (h' : Emitted m roles items') : Emitted m roles (items ++ items') :=
  ⟨List.forall_mem_append.2 ⟨h.fits, h'.fits⟩, List.forall_mem_append.2 ⟨h.known, h'.known⟩⟩

theorem Formed.known {owner : String} {flat : Bool} {held mentioned embeds names : List String}
    (h : Formed m owner flat held mentioned added embeds names) (hr : Rooted m roles)
    (hk : mentioned ⊆ Fields.keys m.decls) : ∀ n ∈ names, n ∈ (roles ++ added).map Role.name := by
  intro n hn
  rw [List.map_append]
  rcases h.names n hn with hin | hin
  · exact List.mem_append_left _ (hr.mem_names (hk hin))
  · exact List.mem_append_right _ hin

theorem Waits.owners_added {mentioned : List String} {weight : Nat} {new : List Inline}
    (h : Waits m mentioned weight added new) : ∀ r ∈ added, r.owner ∈ Fields.keys m.decls := by
  rw [h.roles]
  exact List.forall_mem_map.2 h.owners

/-- One item, and what waits inside it. -/
theorem Waits.batch {mentioned : List String} {weight : Nat} {new : List Inline} {item : Item}
    (hw : Waits m mentioned weight added new) (hk : mentioned ⊆ Fields.keys m.decls)
    (hf : Fits m (roles ++ added) item) (hn : ∀ n ∈ item.mentioned, n ∈ (roles ++ added).map Role.name) :
    Batch m roles added new [item] where
  emitted := ⟨by simpa using hf, by simpa using hn⟩
  owners := hw.owners_added
  queued i hi := by
    refine ⟨?_, List.Subset.trans (hw.mentioned i hi) hk⟩
    rw [hw.roles]
    exact List.mem_map_of_mem hi
  made r hr := by
    rw [hw.roles] at hr
    obtain ⟨i, hi, rfl⟩ := List.mem_map.1 hr
    exact .inr ⟨i, hi, rfl⟩

/-- The record of a role. -/
theorem record_makes (hr : Rooted m roles) (hi : roles[i]? = some role) {fields : Fields Ty}
    (hh : role.held = heldByFields fields) (hk : mentionedByFields fields ⊆ Fields.keys m.decls)
    (tag : Option (String × String)) (docs : List String) :
    Makes (do return [← planRecord m role.name role.owner tag docs fields]) fun added new items =>
      Batch m roles added new items ∧ role.name ∈ items.map Item.name ∧
        queueWeight new ≤ inlineCountFields fields := by
  have ho := hr.owners role (List.mem_of_getElem? hi)
  refine (planRecord_makes ho _ _ _ _).bind ?_
  rintro item added new ⟨hw, ⟨tag, docs, fs, he⟩, hf, hp⟩
  refine .pure ?_
  rw [List.append_nil, List.append_nil]
  subst he
  have hheld := List.Subset.trans (heldByFields_subset_mentionedByFields fields) hk
  exact ⟨hw.batch hk (hf.fits hr hi rfl (by simp) hh hheld hp) (hf.known hr hk),
    List.mem_singleton_self _, hw.weight⟩

theorem inlineCountVariants_eq (variants : List Variant) :
    inlineCountVariants variants = (variants.map fun v => inlineCountFields v.2).sum := by
  induction variants with
  | nil => rfl
  | cons v variants ih => rw [inlineCountVariants, ih, List.map_cons, List.sum_cons]

/-- A sum whose variants have their roles. -/
theorem sum_makes {variants : List (String × Variant)} (owner : Option String) (hr : Rooted m roles)
    (hv : ∀ v ∈ variants, ∃ r ∈ roles, r.name = v.1 ∧ r.owner = owner.getD v.1 ∧
      r.held = heldByFields v.2.2)
    (hk : ∀ v ∈ variants, mentionedByFields v.2.2 ⊆ Fields.keys m.decls) {name : String}
    {docs : List String} (he : Fits m roles (.enum name docs (variants.map fun v => (v.2.1, v.1)))) :
    Makes (planSum m name variants owner docs) fun added new items =>
      Batch m roles added new items ∧ name :: variants.map Prod.fst ⊆ items.map Item.name ∧
        queueWeight new ≤ (variants.map fun v => inlineCountFields v.2.2).sum := by
  have hown : ∀ v ∈ variants, owner.getD v.1 ∈ Fields.keys m.decls := by
    intro v hin
    obtain ⟨r, hmem, -, hro, -⟩ := hv v hin
    exact hro ▸ hr.owners r hmem
  refine (planSum_makes hown name docs).mono ?_
  rintro added new items ⟨hw, records, hi, hn, hrec⟩
  subst hi
  have hrecord : ∀ item ∈ records, Fits m (roles ++ added) item ∧
      ∀ n ∈ item.mentioned, n ∈ (roles ++ added).map Role.name := by
    intro item hitem
    obtain ⟨v, hin, ⟨tag, docs, fs, rfl⟩, hf, hp⟩ := hrec item hitem
    obtain ⟨r, hmem, hrn, hro, hrh⟩ := hv v hin
    obtain ⟨i, hi⟩ := List.mem_iff_getElem?.1 hmem
    rw [← hro] at hf
    have hheld := List.Subset.trans (heldByFields_subset_mentionedByFields v.2.2) (hk v hin)
    exact ⟨hf.fits hr hi hrn (by simp) hrh hheld hp, hf.known hr (hk v hin)⟩
  have henum : ∀ n ∈ (Item.enum name docs (variants.map fun v => (v.2.1, v.1))).mentioned,
      n ∈ (roles ++ added).map Role.name := by
    intro n hn
    simp only [Item.mentioned, List.map_map, List.mem_map, Function.comp_apply] at hn
    obtain ⟨v, hin, rfl⟩ := hn
    obtain ⟨r, hmem, hrn, -⟩ := hv v hin
    exact hrn ▸ List.mem_map_of_mem (List.mem_append_left _ hmem)
  have hb : Batch m roles added new [.enum name docs (variants.map fun v => (v.2.1, v.1))] := by
    refine hw.batch (fun n hn => ?_) (he.append added) henum
    obtain ⟨v, hin, hn⟩ := List.mem_flatMap.1 hn
    exact hk v hin hn
  refine ⟨⟨⟨?_, ?_⟩, hb.owners, hb.queued, fun r hr => ?_⟩, ?_, hw.weight⟩
  · exact List.forall_mem_append.2 ⟨fun item hin => (hrecord item hin).1, hb.emitted.fits⟩
  · exact List.forall_mem_append.2 ⟨fun item hin => (hrecord item hin).2, hb.emitted.known⟩
  · exact (hb.made r hr).imp_left fun h => List.map_subset _ (List.subset_append_right _ _) h
  · rw [List.map_append, hn]
    simp [Item.name]

/-- A sum leaves all that it holds to the structures of its variants. -/
theorem enum_fits (hr : Rooted m roles) (hi : roles[i]? = some role) {named : List (String × Variant)}
    (hh : role.held = named.flatMap fun v => heldByFields v.2.2) (docs : List String) :
    Fits m (roles ++ named.map (variantRole role.owner))
      (.enum role.name docs (named.map fun v => (v.2.1, v.1))) := by
  refine .own (getElem?_append_of_some hi _) rfl (by simp) (fun n hn => .inr ?_)
    (Kept.passes (fun n hn => .inr (.inr ?_)) (List.getElem?_eq_some_iff.1 hi).1)
  · simp only [Item.embedded, List.map_map, List.mem_map, Function.comp_apply] at hn
    obtain ⟨v, hv, rfl⟩ := hn
    refine after_of_mem_added hr hi (List.mem_map_of_mem hv) rfl fun n hn => ?_
    rw [hh]
    exact List.mem_flatMap.2 ⟨v, hv, hn⟩
  · rw [hh] at hn
    obtain ⟨v, hv, hn⟩ := List.mem_flatMap.1 hn
    refine ⟨_, List.mem_map_of_mem hv, ?_, hn⟩
    simp only [Item.embedded, List.map_map]
    exact List.mem_map.2 ⟨v, hv, rfl⟩

/-- A sum for whose variants names are taken. -/
theorem named_sum_makes (hr : Rooted m roles) (hi : roles[i]? = some role) {variants : List Variant}
    (hh : role.held = heldByVariants variants)
    (hk : mentionedByVariants variants ⊆ Fields.keys m.decls) (docs : List String) :
    Makes (do planSum m role.name (← nameVariants role.name variants) (some role.owner) docs)
      fun added new items => Batch m roles added new items ∧ role.name ∈ items.map Item.name ∧
        queueWeight new ≤ inlineCountVariants variants := by
  refine (nameVariants_makes role.name role.owner variants).bind ?_
  rintro named added new ⟨hn, hv, ha⟩
  subst hn hv ha
  rw [heldByVariants_eq, List.flatMap_map] at hh
  rw [mentionedByVariants_eq, List.flatMap_map] at hk
  have howners : ∀ r ∈ named.map (variantRole role.owner), r.owner ∈ Fields.keys m.decls :=
    List.forall_mem_map.2 fun _ _ => hr.owners role (List.mem_of_getElem? hi)
  refine (sum_makes (some role.owner) (hr.append howners) (fun v hv => ⟨variantRole role.owner v, ?_, rfl,
    rfl, rfl⟩) (fun v hv n hn => hk (List.mem_flatMap.2 ⟨v, hv, hn⟩)) (enum_fits hr hi hh docs)).mono ?_
  · exact List.mem_append_right _ (List.mem_map_of_mem hv)
  · rintro added' new' items ⟨hb, hin, hw⟩
    refine ⟨⟨?_, ?_, ?_, ?_⟩, hin List.mem_cons_self, ?_⟩
    · rw [← List.append_assoc]
      exact hb.emitted
    · exact List.forall_mem_append.2 ⟨howners, hb.owners⟩
    · exact fun i hi => ⟨List.mem_append_right _ (hb.queued i hi).1, (hb.queued i hi).2⟩
    · refine List.forall_mem_append.2 ⟨List.forall_mem_map.2 fun v hv => .inl ?_, hb.made⟩
      exact hin (List.mem_cons_of_mem _ (List.mem_map_of_mem hv))
    · rw [inlineCountVariants_eq, List.map_map]
      exact hw

theorem planInline_makes (hr : Rooted m roles) {inline : Inline} (hi : inline.role ∈ roles)
    (hk : inline.mentioned ⊆ Fields.keys m.decls) :
    Makes (planInline m inline) fun added new items =>
      Batch m roles added new items ∧ inline.role.name ∈ items.map Item.name ∧
        queueWeight new + 1 ≤ inline.weight := by
  obtain ⟨i, hi⟩ := List.mem_iff_getElem?.1 hi
  cases inline with
  | record name fields owner =>
    refine (record_makes hr hi rfl hk none []).mono ?_
    rintro added new items ⟨hb, hin, hw⟩
    exact ⟨hb, hin, Nat.succ_le_succ hw⟩
  | sum name variants owner =>
    refine (named_sum_makes hr hi rfl hk []).mono ?_
    rintro added new items ⟨hb, hin, hw⟩
    exact ⟨hb, hin, Nat.succ_le_succ hw⟩

end

/-! ### Declarations -/

section

variable {roles : List Role} {name : String}

theorem heldBy_stripAnnot (t : Ty) : heldBy t.stripAnnot = heldBy t := by
  fun_induction Ty.stripAnnot t with
  | case1 doc t ih => rw [ih, heldBy]
  | case2 t => rfl

theorem mentionedBy_stripAnnot (t : Ty) : mentionedBy t.stripAnnot = mentionedBy t := by
  fun_induction Ty.stripAnnot t with
  | case1 doc t ih => rw [ih, mentionedBy]
  | case2 t => rfl

theorem held_declaredRole {decl : Decl} (h : m.get? name = some decl) :
    (declaredRole m name).held = heldByDecl m decl := by
  rw [declaredRole, heldByName, h]

/-- An alias that keeps its name for another type: a synonym, or a wrapper if it comes back to itself. -/
theorem planSynonym_makes (hr : Rooted m roles) {t : Ty} (ht : m.get? name = some (.alias t))
    (hk : mentionedBy t ⊆ Fields.keys m.decls) :
    Makes (planAlias.planSynonym m name t) fun added new items =>
      Batch m roles added new items ∧ name ∈ items.map Item.name := by
  have hkey := Fields.mem_keys_of_mem (Fields.mem_of_get? ht)
  obtain ⟨i, hi⟩ := hr.exists_declared hkey
  have hheld : (declaredRole m name).held = heldBy t := held_declaredRole ht
  have hheldk := List.Subset.trans (heldBy_subset_mentionedBy t) hk
  rw [planAlias.planSynonym]
  split
  · refine (fieldTy_makes hkey t name true).bind ?_
    rintro τ added new ⟨hw, hf, hp⟩
    refine .pure ?_
    rw [List.append_nil, List.append_nil]
    have hfits : Fits m (roles ++ added) (.wrapper name t.docs τ) :=
      Formed.fits hr hi rfl (by simp) hheld hheldk hf hp
    exact ⟨hw.batch hk hfits (hf.known hr hk), List.mem_singleton_self _⟩
  · rename_i hrec
    rw [isRecursiveAlias_iff] at hrec
    refine (fieldTy_makes hkey t name false).bind ?_
    rintro τ added new ⟨hw, hf, hp⟩
    refine .pure ?_
    rw [List.append_nil, List.append_nil]
    have hpasses : ∀ n ∈ heldBy t, Passes (roles ++ added) i (.synonym name t.docs τ) n :=
      Kept.passes hp (List.getElem?_eq_some_iff.1 hi).1
    rw [← hheld] at hpasses
    refine ⟨hw.batch hk (.synonym ht hrec (getElem?_append_of_some hi added) (fun n hn => ?_) (fun n hn => ?_)
      hpasses) (hf.known hr hk), List.mem_singleton_self _⟩
    · rcases hf.embeds n hn with ⟨hin, -⟩ | ⟨r, hin, rfl, ho, hsub⟩
      · exact .inl ⟨(hheld ▸ hin : n ∈ (declaredRole m name).held), hheldk hin⟩
      · exact .inr (after_of_mem_added hr hi hin ho (hheld ▸ hsub))
    · refine (hf.names n hn).imp (fun hin => ?_) fun hin => extra_of_mem_added hr hin
      rw [mentionedByAlias, ht]
      exact hin

theorem planAlias_makes (hr : Rooted m roles) {t : Ty} (ht : m.get? name = some (.alias t))
    (hk : mentionedBy t ⊆ Fields.keys m.decls) :
    Makes (planAlias m name t) fun added new items =>
      Batch m roles added new items ∧ name ∈ items.map Item.name := by
  obtain ⟨i, hi⟩ := hr.exists_declared (Fields.mem_keys_of_mem (Fields.mem_of_get? ht))
  have hheld : (declaredRole m name).held = heldBy t.stripAnnot :=
    (held_declaredRole ht).trans (heldBy_stripAnnot t).symm
  have hks := hk
  rw [← mentionedBy_stripAnnot] at hks
  rw [planAlias]
  split
  · rename_i variants hs
    rw [hs] at hheld hks
    refine (named_sum_makes hr hi hheld hks t.docs).mono ?_
    exact fun added new items h => ⟨h.1, h.2.1⟩
  · rename_i fields hs
    rw [hs] at hheld hks
    split
    · exact planSynonym_makes hr ht hk
    · refine (record_makes hr hi hheld hks none t.docs).mono ?_
      exact fun added new items h => ⟨h.1, h.2.1⟩
  · exact planSynonym_makes hr ht hk

/-- What a declaration makes: an item of its name and, for a sum, of its tags. -/
def itemNames (name : String) : Decl → List String
  | .sum variants => name :: Fields.keys variants
  | .variant _ _ => []
  | _ => [name]

theorem planDecl_makes (hs : m.Sound) (hc : m.Closed) (hr : Rooted m roles) {decl : Decl}
    (hg : m.get? name = some decl) :
    Makes (planDecl m name decl) fun added new items =>
      Batch m roles added new items ∧ itemNames name decl ⊆ items.map Item.name := by
  obtain ⟨i, hi⟩ := hr.exists_declared (Fields.mem_keys_of_mem (Fields.mem_of_get? hg))
  have htypes : ∀ t ∈ m.typesOf decl, mentionedBy t ⊆ Fields.keys m.decls :=
    fun t ht => mentionedBy_subset_of_mem_typesOf hc hg ht
  have hheld := held_declaredRole hg
  cases decl with
  | «alias» t =>
    refine (planAlias_makes hr hg (htypes t (by simp [Module.typesOf]))).mono ?_
    rintro added new items ⟨hb, hin⟩
    exact ⟨hb, List.cons_subset.2 ⟨hin, List.nil_subset _⟩⟩
  | struct fields =>
    have hk := mentionedByFields_subset fun f hf => htypes f.2 (List.mem_map_of_mem hf)
    refine (record_makes hr hi hheld hk none []).mono ?_
    rintro added new items ⟨hb, hin, -⟩
    exact ⟨hb, List.cons_subset.2 ⟨hin, List.nil_subset _⟩⟩
  | sum variants =>
    have hkeys : (variants.map fun v => (v.1, v)).map Prod.fst = Fields.keys variants := by
      rw [Fields.keys, List.map_map]
      rfl
    refine (sum_makes none hr (List.forall_mem_map.2 fun v hv => ?_)
      (List.forall_mem_map.2 fun v hv => ?_) (.tags hg ?_)).mono ?_
    · -- A tag is declared too, and holds what its fields hold.
      obtain ⟨k, hk⟩ := List.mem_iff_getElem?.1 hv
      have htag := (hs.get?_variant_iff hc).2 ⟨variants, v.2, hg, hk⟩
      refine ⟨_, hr.mem_roles (Fields.mem_keys_of_mem (Fields.mem_of_get? htag)), rfl, rfl, ?_⟩
      rw [held_declaredRole htag, heldByDecl, Module.variant?, hg]
      simp only [hk]
    · refine mentionedByFields_subset fun f hf => htypes f.2 ?_
      exact List.mem_flatMap.2 ⟨v, hv, List.mem_map_of_mem hf⟩
    · rw [List.map_map, List.map_map, Fields.keys]
      rfl
    · rintro added new items ⟨hb, hin, -⟩
      exact ⟨hb, by rwa [hkeys] at hin⟩
  | variant parent index => exact .pure ⟨⟨⟨by simp, by simp⟩, by simp, by simp, by simp⟩, List.nil_subset _⟩
  | table spec =>
    refine .pure ⟨⟨⟨?_, by simp [Item.mentioned]⟩, by simp, by simp, by simp⟩, List.Subset.refl _⟩
    rw [List.append_nil]
    refine List.forall_mem_singleton.2 (.own hi rfl (by simp) (by simp [Item.embedded]) ?_)
    simp [hheld, heldByDecl]

end

/-! ### Runs -/

/-- A plan whose names have these roles, and in which nothing waits that has none. -/
structure Laid (m : Module) (roles : List Role) (p : Plan) : Prop extends Rooted m roles where
  taken : p.taken = roles.map Role.name
  distinct : p.taken.Nodup
  queue : ∀ i ∈ p.queue, i.role ∈ roles ∧ i.mentioned ⊆ Fields.keys m.decls

section

variable {roles added : List Role} {p q : Plan}

theorem Laid.add {new : List Inline} {items : List Item} (h : Laid m roles p) (ha : Adds p q added new)
    (hb : Batch m roles added new items) : Laid m (roles ++ added) q where
  toRooted := h.toRooted.append hb.owners
  taken := by rw [ha.taken, h.taken, List.map_append]
  distinct := ha.distinct h.distinct
  queue := by
    rw [ha.queue]
    refine List.forall_mem_append.2 ⟨fun i hi => ?_, fun i hi => ?_⟩
    · exact ⟨List.mem_append_left _ (h.queue i hi).1, (h.queue i hi).2⟩
    · exact ⟨List.mem_append_right _ (hb.queued i hi).1, (hb.queued i hi).2⟩

theorem weight_pos (inline : Inline) : 0 < inline.weight := by
  cases inline <;> exact Nat.succ_pos _

theorem queue_eq_nil {queue : List Inline} (h : queueWeight queue ≤ 0) : queue = [] := by
  cases queue with
  | nil => rfl
  | cons i queue =>
    rw [queueWeight] at h
    have := weight_pos i
    omega

/-- What a planner does that leaves nothing in the queue: every role that it adds has its item. -/
structure Settles (m : Module) (roles : List Role) (added : List Role) (q : Plan) (items : List Item) :
    Prop where
  laid : Laid m (roles ++ added) q
  empty : q.queue = []
  emitted : Emitted m (roles ++ added) items
  made : ∀ r ∈ added, r.name ∈ items.map Item.name

theorem Settles.nil (h : Laid m roles p) (hq : p.queue = []) : Settles m roles [] p [] :=
  ⟨by rw [List.append_nil]; exact h, hq, ⟨by simp, by simp⟩, by simp⟩

theorem Settles.trans {added' : List Role} {q' : Plan} {items items' : List Item}
    (hb : Emitted m (roles ++ added) items)
    (hm : ∀ r ∈ added, r.name ∈ (items ++ items').map Item.name)
    (h : Settles m (roles ++ added) added' q' items') :
    Settles m roles (added ++ added') q' (items ++ items') where
  laid := by rw [← List.append_assoc]; exact h.laid
  empty := h.empty
  emitted := by
    rw [← List.append_assoc]
    exact (hb.append added').concat h.emitted
  made := by
    refine List.forall_mem_append.2 ⟨hm, fun r hr => ?_⟩
    rw [List.map_append]
    exact List.mem_append_right _ (h.made r hr)

theorem Batch.settles {added' : List Role} {q' : Plan} {new : List Inline} {items items' : List Item}
    (hb : Batch m roles added new items) (h : Settles m (roles ++ added) added' q' items')
    (hn : ∀ i ∈ new, i.role.name ∈ items'.map Item.name) :
    Settles m roles (added ++ added') q' (items ++ items') := by
  refine Settles.trans hb.emitted (fun r hr => ?_) h
  rw [List.map_append]
  rcases hb.made r hr with hin | ⟨i, hi, rfl⟩
  · exact List.mem_append_left _ hin
  · exact List.mem_append_right _ (hn i hi)

/-- With fuel for all that waits, everything that waits gets its item. -/
theorem drain_settles {fuel : Nat} (h : Laid m roles p) (hw : queueWeight p.queue ≤ fuel) :
    ∃ added, Settles m roles added ((drain m fuel).run p).2 ((drain m fuel).run p).1 ∧
      ∀ i ∈ p.queue, i.role.name ∈ ((drain m fuel).run p).1.map Item.name := by
  induction fuel generalizing roles p with
  | zero =>
    have hq := queue_eq_nil hw
    exact ⟨[], .nil h hq, by simp [hq]⟩
  | succ fuel ih =>
    obtain ⟨taken, queue⟩ := p
    cases queue with
    | nil => exact ⟨[], .nil h rfl, by simp⟩
    | cons inline rest =>
      obtain ⟨⟨hrole, hmen⟩, hrest⟩ := List.forall_mem_cons.1 h.queue
      -- The plan without its first inline type, then with what that one leaves.
      have hlaid : Laid m roles ⟨taken, rest⟩ := ⟨h.toRooted, h.taken, h.distinct, hrest⟩
      obtain ⟨added, new, hadds, hb, hin, hnew⟩ :=
        planInline_makes h.toRooted hrole hmen ⟨taken, rest⟩
      have hw' : queueWeight ((planInline m inline).run ⟨taken, rest⟩).2.queue ≤ fuel := by
        rw [hadds.queue, queueWeight_append]
        simp only [queueWeight] at hw
        show queueWeight rest + queueWeight new ≤ fuel
        omega
      obtain ⟨added', hset, hmade⟩ := ih (hlaid.add hadds hb) hw'
      rw [hadds.queue] at hmade
      obtain ⟨hold, hqueued⟩ := List.forall_mem_append.1 hmade
      have hrun : (drain m (fuel + 1)).run ⟨taken, inline :: rest⟩ =
          (((planInline m inline).run ⟨taken, rest⟩).1 ++
              ((drain m fuel).run ((planInline m inline).run ⟨taken, rest⟩).2).1,
            ((drain m fuel).run ((planInline m inline).run ⟨taken, rest⟩).2).2) := rfl
      rw [hrun]
      refine ⟨added ++ added', hb.settles hset hqueued, List.forall_mem_cons.2 ⟨?_, fun i hi => ?_⟩⟩
      · rw [List.map_append]
        exact List.mem_append_left _ hin
      · rw [List.map_append]
        exact List.mem_append_right _ (hold i hi)

/-- One declaration, with all that it leaves in the queue. -/
theorem planDecl_settles (hs : m.Sound) (hc : m.Closed) {name : String} {decl : Decl}
    (hg : m.get? name = some decl) (h : Laid m roles p) (hq : p.queue = []) :
    let x : Planner (List Item) := do
      let own ← planDecl m name decl
      return own ++ (← drainAll m)
    ∃ added, Settles m roles added (x.run p).2 (x.run p).1 ∧
      itemNames name decl ⊆ (x.run p).1.map Item.name := by
  intro x
  obtain ⟨added, new, hadds, hb, hin⟩ := planDecl_makes hs hc h.toRooted hg p
  obtain ⟨added', hset, hmade⟩ := drain_settles (h.add hadds hb) le_rfl
  have hqueued : ∀ i ∈ new, i.role.name ∈ _ :=
    fun i hi => hmade i (by rw [hadds.queue, hq]; exact hi)
  have hrun : x.run p =
      (((planDecl m name decl).run p).1 ++ ((drainAll m).run ((planDecl m name decl).run p).2).1,
        ((drainAll m).run ((planDecl m name decl).run p).2).2) := rfl
  rw [hrun]
  refine ⟨added ++ added', hb.settles hset hqueued, ?_⟩
  rw [List.map_append]
  exact List.Subset.trans hin (List.subset_append_left _ _)

/-- Declaration after declaration. -/
theorem planDecls_settles (hs : m.Sound) (hc : m.Closed) {decls : Fields Decl}
    (hg : ∀ d ∈ decls, m.get? d.1 = some d.2) (h : Laid m roles p) (hq : p.queue = []) :
    let x : Planner (List (List Item)) := decls.mapM fun (name, decl) => do
      let own ← planDecl m name decl
      return own ++ (← drainAll m)
    ∃ added, Settles m roles added (x.run p).2 (x.run p).1.flatten ∧
      ∀ d ∈ decls, itemNames d.1 d.2 ⊆ (x.run p).1.flatten.map Item.name := by
  induction decls generalizing roles p with
  | nil => exact ⟨[], .nil h hq, by simp⟩
  | cons d decls ih =>
    obtain ⟨hd, hdecls⟩ := List.forall_mem_cons.1 hg
    obtain ⟨added, hset, hin⟩ := planDecl_settles hs hc hd h hq
    obtain ⟨added', hset', hin'⟩ := ih hdecls hset.laid hset.empty
    rw [List.mapM_cons]
    refine ⟨added ++ added', Settles.trans hset.emitted (fun r hr => ?_) hset',
      List.forall_mem_cons.2 ⟨?_, fun d hd => ?_⟩⟩
    · rw [List.map_append]
      exact List.mem_append_left _ (hset.made r hr)
    · exact List.Subset.trans hin (List.map_subset _ (List.subset_append_left _ _))
    · exact List.Subset.trans (hin' d hd) (List.map_subset _ (List.subset_append_right _ _))

end

/-- Roles for the items of a module. The declared names come first; every role has an item, and every
item fits. -/
structure Planned (m : Module) (roles : List Role) (items : List Item) : Prop extends Rooted m roles where
  distinct : (roles.map Role.name).Nodup
  emitted : Emitted m roles items
  made : ∀ r ∈ roles, r.name ∈ items.map Item.name

theorem exists_planned (hs : m.Sound) (hc : m.Closed) : ∃ roles, Planned m roles (items m) := by
  have hnames : (declaredRoles m).map Role.name = Fields.keys m.decls := by
    rw [declaredRoles, List.map_map]
    exact List.map_id _
  have hlaid : Laid m (declaredRoles m) ⟨Fields.keys m.decls, []⟩ :=
    ⟨⟨List.prefix_refl _, List.forall_mem_map.2 fun n hn => hn⟩, hnames.symm, hs.orderly.distinct, by simp⟩
  have hg : ∀ d ∈ m.decls, m.get? d.1 = some d.2 := fun d hd => hs.orderly.distinct.get?_eq_some hd
  obtain ⟨added, hset, hin⟩ := planDecls_settles hs hc hg hlaid rfl
  refine ⟨declaredRoles m ++ added, hset.laid.toRooted, ?_, hset.emitted,
    List.forall_mem_append.2 ⟨List.forall_mem_map.2 fun name hn => ?_, hset.made⟩⟩
  · exact hset.laid.taken ▸ hset.laid.distinct
  · obtain ⟨decl, hd⟩ := Fields.mem_keys.1 hn
    cases decl with
    | variant parent index =>
      -- A tag comes with its sum.
      obtain ⟨variants, fields, hp, hv⟩ := hc.complete.parents name parent index (hg _ hd)
      have hmem := Fields.mem_keys_of_mem (List.mem_of_getElem? hv)
      exact hin _ (Fields.mem_of_get? hp) (List.mem_cons_of_mem _ hmem)
    | _ => exact hin _ hd List.mem_cons_self

end Wireform.Emit
