import Mathlib
import Wireform.Proofs.Emit.Layout

/-!
# Items of finite size

An item that contained itself by value would have no size. Every containment goes down in a height of
four parts: whether the item stands behind a container, how many declarations its owner holds, how many
aliases are still to be expanded, and how many roles come after its own.
-/

namespace Wireform.Emit

open Relation (ReflTransGen TransGen)

variable {m : Module} {roles : List Role} {i : Nat} {role : Role} {name n x : String}

/-! ### Heights -/

section

variable {R : String → String → Prop}

open Classical in
/-- The declared names that a name is related to. -/
noncomputable def related (m : Module) (R : String → String → Prop) (name : String) : Finset String :=
  (Fields.keys m.decls).toFinset.filter (R name)

theorem mem_related : x ∈ related m R name ↔ x ∈ Fields.keys m.decls ∧ R name x := by
  simp [related]

variable [IsTrans String R]

theorem related_subset (h : R name n) : related m R n ⊆ related m R name := by
  intro x hx
  obtain ⟨hk, hr⟩ := mem_related.1 hx
  exact mem_related.2 ⟨hk, IsTrans.trans _ _ _ h hr⟩

theorem card_related_lt (h : R name n) (hk : x ∈ Fields.keys m.decls) (hx : R name x) (hn : ¬ R n x) :
    (related m R n).card < (related m R name).card := by
  refine Finset.card_lt_card ((Finset.ssubset_iff_of_subset (related_subset h)).2 ⟨x, ?_, ?_⟩)
  · exact mem_related.2 ⟨hk, hx⟩
  · exact fun hin => hn (mem_related.1 hin).2

end

instance : IsTrans String (Holds m) := inferInstanceAs (IsTrans String (ReflTransGen _))

instance : IsTrans String (Mentions m) := inferInstanceAs (IsTrans String (TransGen _))

/-- Of two aliases that do not come back to themselves, one that the other mentions mentions less. -/
theorem card_mentions_lt (h : Mentions m name n) (hk : n ∈ Fields.keys m.decls) (hn : ¬ Mentions m n n) :
    (related m (Mentions m) n).card < (related m (Mentions m) name).card :=
  card_related_lt h hk h hn

open Classical in
/-- A sum lies above its tags, and a synonym above what it expands to. -/
noncomputable def rank (m : Module) (name : String) : ℕ :=
  match m.get? name with
  | some (.sum _) => 1
  | some (.alias _) => if Mentions m name name then 0 else 2 + (related m (Mentions m) name).card
  | _ => 0

theorem rank_synonym {t : Ty} (h : m.get? name = some (.alias t)) (hn : ¬ Mentions m name name) :
    rank m name = 2 + (related m (Mentions m) name).card := by
  simp only [rank, h, if_neg hn]

theorem rank_lt_of_mentions {t : Ty} (h : m.get? name = some (.alias t)) (hn : ¬ Mentions m name name)
    (hm : Mentions m name n) (hk : n ∈ Fields.keys m.decls) : rank m n < rank m name := by
  rw [rank_synonym h hn, rank]
  split
  · omega
  · split
    · omega
    · rename_i hself
      have := card_mentions_lt hm hk hself
      omega
  · omega

theorem rank_of_not_mem (h : n ∉ Fields.keys m.decls) : rank m n = 0 := by
  rw [rank, get?_eq_none_of_not_mem (by simpa using h)]

/-- The height of the role at a position. -/
noncomputable def Role.height (m : Module) (count i : Nat) (role : Role) : ℕ ×ₗ ℕ ×ₗ ℕ ×ₗ ℕ :=
  toLex (if role.held ⊆ heldByName m role.owner then 0 else 1,
    toLex ((related m (Holds m) role.owner).card, toLex (rank m role.name, count - i)))

/-- The height of the role that has the name. -/
noncomputable def height (m : Module) (roles : List Role) (name : String) : ℕ ×ₗ ℕ ×ₗ ℕ ×ₗ ℕ :=
  let i := (roles.map Role.name).idxOf name
  (roles[i]?.getD ⟨name, name, []⟩).height m roles.length i

theorem idxOf_name (hd : (roles.map Role.name).Nodup) (hi : roles[i]? = some role) :
    (roles.map Role.name).idxOf role.name = i := by
  obtain ⟨hlt, rfl⟩ := List.getElem?_eq_some_iff.1 hi
  have h := hd.idxOf_getElem i (by rwa [List.length_map])
  rwa [List.getElem_map] at h

theorem height_eq (hd : (roles.map Role.name).Nodup) (hi : roles[i]? = some role)
    (hn : role.name = name) : height m roles name = role.height m roles.length i := by
  rw [← hn, height]
  simp only [idxOf_name hd hi, hi, Option.getD_some]

theorem toLex_lt_of_le {α β : Type} [PartialOrder α] [Preorder β] {a a' : α} {b b' : β} (ha : a ≤ a')
    (hb : b < b') : toLex (a, b) < toLex (a', b') :=
  Prod.Lex.toLex_strictMono (Prod.mk_lt_mk_of_le_of_lt ha hb)

/-! ### Containment goes down -/

/-- To a declaration that the owner cannot be reached from. -/
theorem height_declared_lt {count j : Nat} (hk : role.owner ∈ Fields.keys m.decls) (hn : n ∈ role.held)
    (hno : ¬ Holds m n role.owner) :
    (declaredRole m n).height m count j < role.height m count i := by
  rw [Role.height, Role.height, declaredRole, if_pos (List.Subset.refl _)]
  split
  · rename_i hsub
    refine toLex_lt_of_le le_rfl (Prod.Lex.toLex_lt_toLex.2 (.inl ?_))
    exact card_related_lt (.single (hsub hn)) hk .refl hno
  · exact Prod.Lex.toLex_lt_toLex.2 (.inl Nat.zero_lt_one)

/-- To a role that was added for the item. -/
theorem height_added_lt {count j : Nat} {r : Role} (ho : r.owner = role.owner) (hh : r.held ⊆ role.held)
    (hr : rank m r.name = 0) (hij : i < j) (hj : j < count) :
    r.height m count j < role.height m count i := by
  rw [Role.height, Role.height, ho, hr]
  refine toLex_lt_of_le ?_ (toLex_lt_of_le le_rfl (toLex_lt_of_le (Nat.zero_le _) (by omega)))
  split
  · exact Nat.zero_le _
  · rename_i hsub
    rw [if_neg fun h => hsub (List.Subset.trans hh h)]

namespace Planned

variable {items : List Item}

/-- Declared names come first, and no name is taken twice. -/
theorem not_mem_keys (h : Planned m roles items) (he : Extra m roles n) : n ∉ Fields.keys m.decls := by
  obtain ⟨j, r, hj, hr, rfl⟩ := he
  obtain ⟨added, rfl⟩ := h.declared
  have hlen : (declaredRoles m).length ≤ j := by simpa [declaredRoles, Fields.keys] using hj
  rw [List.getElem?_append_right hlen] at hr
  have hd := h.distinct
  rw [List.map_append, declaredRoles, List.map_map] at hd
  intro hin
  refine (List.nodup_append.1 hd).2.2 r.name ?_ r.name ?_ rfl
  · exact List.mem_map.2 ⟨r.name, hin, rfl⟩
  · exact List.mem_map_of_mem (List.mem_of_getElem? hr)

theorem height_after_lt (h : Planned m roles items) (hi : roles[i]? = some role) (hn : role.name = name)
    (ha : After m roles i role n) : height m roles n < height m roles name := by
  obtain ⟨j, r, hij, hj, hr, rfl, ho, hh⟩ := ha
  obtain ⟨hlt, -⟩ := List.getElem?_eq_some_iff.1 hr
  rw [height_eq h.distinct hr rfl, height_eq h.distinct hi hn]
  exact height_added_lt ho hh (rank_of_not_mem (h.not_mem_keys ⟨j, r, hj, hr, rfl⟩)) hij hlt

theorem height_declared (h : Planned m roles items) (hk : n ∈ Fields.keys m.decls) :
    ∃ j, height m roles n = (declaredRole m n).height m roles.length j := by
  obtain ⟨j, hj⟩ := h.exists_declared hk
  exact ⟨j, height_eq h.distinct hj rfl⟩

/-- From declaration to declaration, with a rank that goes down. -/
theorem height_held_lt (h : Planned m roles items) {decl : Decl} (hg : m.get? name = some decl)
    (hn : n ∈ heldByName m name) (hk : n ∈ Fields.keys m.decls) (hr : rank m n < rank m name) :
    height m roles n < height m roles name := by
  obtain ⟨i, hi⟩ := h.height_declared (Fields.mem_keys_of_mem (Fields.mem_of_get? hg))
  obtain ⟨j, hj⟩ := h.height_declared hk
  rw [hi, hj, Role.height, Role.height, declaredRole, declaredRole, if_pos (List.Subset.refl _),
    if_pos (List.Subset.refl _)]
  refine toLex_lt_of_le le_rfl (toLex_lt_of_le ?_ (Prod.Lex.toLex_lt_toLex.2 (.inl hr)))
  exact Finset.card_le_card (related_subset (.single hn))

/-- What an item contains by value is of a lesser height. -/
theorem height_lt (h : Planned m roles items) (hs : m.Sound) (hc : m.Closed) {item : Item}
    (hf : Fits m roles item) (hn : n ∈ item.embedded) :
    height m roles n < height m roles item.name := by
  cases hf with
  | own hi hname _ he _ =>
    rcases he n hn with ⟨hin, hk, hno⟩ | ha
    · obtain ⟨j, hj⟩ := h.height_declared hk
      rw [hj, height_eq h.distinct hi hname]
      exact height_declared_lt (h.owners _ (List.mem_of_getElem? hi)) hin hno
    · exact h.height_after_lt hi hname ha
  | @tags name docs arms variants hg ha =>
    have hin : n ∈ Fields.keys variants := ha ▸ hn
    obtain ⟨fields, hv⟩ := Fields.mem_keys.1 hin
    obtain ⟨k, hk⟩ := List.mem_iff_getElem?.1 hv
    have htag := (hs.get?_variant_iff hc).2 ⟨variants, fields, hg, hk⟩
    have hheld : n ∈ heldByName m name := by
      rw [heldByName, hg]
      exact hin
    refine h.height_held_lt hg hheld (Fields.mem_keys_of_mem (Fields.mem_of_get? htag)) ?_
    show rank m n < rank m name
    simp [rank, hg, htag]
  | @synonym name docs t s i hg hno hi he _ _ =>
    rcases he n hn with ⟨hin, hk⟩ | ha
    · have hm : n ∈ mentionedByAlias m name := by
        rw [heldByName, hg] at hin
        rw [mentionedByAlias, hg]
        exact heldBy_subset_mentionedBy s hin
      exact h.height_held_lt hg hin hk (rank_lt_of_mentions hg hno (.single hm) hk)
    · exact h.height_after_lt hi rfl ha

/-- A synonym that another one mentions is declared, and mentions less. -/
theorem card_mentions_lt (h : Planned m roles items) {docs docs' : List String} {t t' : FieldTy}
    (hf : Fits m roles (.synonym name docs t)) (hf' : Fits m roles (.synonym n docs' t'))
    (hn : n ∈ t.mentioned) : (related m (Mentions m) n).card < (related m (Mentions m) name).card := by
  cases hf with
  | own _ _ hs _ _ => exact absurd rfl (hs _ _ _)
  | synonym _ _ _ _ hm _ =>
    cases hf' with
    | own _ _ hs _ _ => exact absurd rfl (hs _ _ _)
    | synonym hg hno _ _ _ _ =>
      have hk := Fields.mem_keys_of_mem (Fields.mem_of_get? hg)
      rcases hm n hn with hin | he
      · exact Emit.card_mentions_lt (.single hin) hk hno
      · exact absurd hk (h.not_mem_keys he)

/-- An item of the name of a role passes on what the role holds. -/
theorem passes (h : Planned m roles items) {item : Item} (hf : Fits m roles item)
    (hi : roles[i]? = some role) (hname : role.name = item.name) (hn : n ∈ role.held) :
    Passes roles i item n := by
  -- A name has one position, and so one role.
  have hunique : ∀ {j r}, roles[j]? = some r → r.name = item.name → j = i ∧ r = role := by
    intro j r hj hr
    have he : j = i := by rw [← idxOf_name h.distinct hj, ← idxOf_name h.distinct hi, hr, hname]
    subst he
    exact ⟨rfl, Option.some.inj (hj.symm.trans hi)⟩
  cases hf with
  | own hj hr _ _ hp =>
    obtain ⟨rfl, rfl⟩ := hunique hj hr
    exact hp n hn
  | @tags name docs arms variants hg ha =>
    obtain ⟨j, hj⟩ := h.exists_declared (Fields.mem_keys_of_mem (Fields.mem_of_get? hg))
    obtain ⟨rfl, rfl⟩ := hunique hj rfl
    rw [held_declaredRole hg] at hn
    exact .inl (ha.symm ▸ hn : n ∈ arms.map Prod.snd)
  | synonym _ _ hj _ _ hp =>
    obtain ⟨rfl, rfl⟩ := hunique hj rfl
    exact hp n hn

end Planned

/-! ### No item contains itself -/

/-- The item `X` contains `Y` by value. -/
def Embeds (m : Module) (X Y : Item) : Prop := X ∈ items m ∧ Y ∈ items m ∧ Y.name ∈ X.embedded

/-- The synonym `X` mentions the synonym `Y`, be it in a container. -/
def Expands (m : Module) (X Y : Item) : Prop :=
  X ∈ items m ∧ Y ∈ items m ∧ Y.name ∈ X.mentioned ∧ (∃ name docs t, X = .synonym name docs t) ∧
    ∃ name docs t, Y = .synonym name docs t

/-- In the item of `source`, or in one that it contains by value, `target` is boxed. -/
def Cuts (m : Module) (source target : String) : Prop :=
  ∃ X Y, X ∈ items m ∧ X.name = source ∧ ReflTransGen (Embeds m) X Y ∧ target ∈ Y.boxes

namespace Planned

variable {X Y : Item}

theorem height_embeds_lt (h : Planned m roles (items m)) (hm : m.Built) (he : Embeds m X Y) :
    height m roles Y.name < height m roles X.name :=
  h.height_lt hm.sound hm.closed (h.emitted.fits X he.1) he.2.2

theorem height_contained_le (h : Planned m roles (items m)) (hm : m.Built)
    (hc : ReflTransGen (Embeds m) X Y) : height m roles Y.name ≤ height m roles X.name := by
  induction hc with
  | refl => exact le_rfl
  | tail _ he ih => exact (h.height_embeds_lt hm he).le.trans ih

/-- What a role holds is contained by value or boxed in its item, or in one that this contains. -/
theorem exists_contained (h : Planned m roles (items m)) (hi : roles[i]? = some role) (hX : X ∈ items m)
    (hname : role.name = X.name) (hn : n ∈ role.held) :
    ∃ Y ∈ items m, ReflTransGen (Embeds m) X Y ∧ (n ∈ Y.embedded ∨ n ∈ Y.boxes) := by
  induction hk : roles.length - i using Nat.strong_induction_on generalizing i role X with
  | _ k ih =>
    rcases h.passes (h.emitted.fits X hX) hi hname hn with hin | hin | ⟨j, r, hij, hj, hr, hn⟩
    · exact ⟨X, hX, .refl, .inl hin⟩
    · exact ⟨X, hX, .refl, .inr hin⟩
    · obtain ⟨Y, hY, hYn⟩ := List.mem_map.1 (h.made r (List.mem_of_getElem? hj))
      obtain ⟨hlt, -⟩ := List.getElem?_eq_some_iff.1 hj
      obtain ⟨Z, hZ, hYZ, hn⟩ := ih (roles.length - j) (by omega) hj hY hYn.symm hn rfl
      exact ⟨Z, hZ, .head ⟨hX, hY, hYn ▸ hr⟩ hYZ, hn⟩

/-- A declaration that is held by value and not boxed is of a lesser height. -/
theorem height_uncut_lt (h : Planned m roles (items m)) (hm : m.Built) {source target : String}
    (ht : target ∈ heldByName m source) (hc : ¬ Cuts m source target) :
    height m roles target < height m roles source := by
  have hk : source ∈ Fields.keys m.decls := by
    by_contra hk
    rw [heldByName, get?_eq_none_of_not_mem (by simpa using hk)] at ht
    cases ht
  obtain ⟨i, hi⟩ := h.exists_declared hk
  obtain ⟨X, hX, hXn⟩ := List.mem_map.1 (h.made _ (List.mem_of_getElem? hi))
  obtain ⟨Y, hY, hXY, hin | hin⟩ := h.exists_contained hi hX hXn.symm ht
  · have hle := h.height_contained_le hm hXY
    rw [hXn] at hle
    exact (h.height_lt hm.sound hm.closed (h.emitted.fits Y hY) hin).trans_le hle
  · exact absurd ⟨X, Y, hX, hXn, hXY, hin⟩ hc

end Planned

theorem not_transGen_self {α β : Type} [Preorder β] {r : α → α → Prop} (f : α → β)
    (h : ∀ a b, r a b → f b < f a) (a : α) : ¬ TransGen r a a := by
  intro hc
  have hlt : TransGen (fun x y : β => y < x) (f a) (f a) := hc.lift f h
  rw [Relation.transGen_eq_self] at hlt
  exact lt_irrefl _ hlt

/-- The items of a built module are of finite size: no item contains itself by value, directly or through
others, and no synonym expands to itself. Declarations that hold each other by value in a circle are cut by
a box somewhere. Every declaration has its item, and whatever an item mentions is an item too. -/
theorem items_finite_size (hm : m.Built) :
    (∀ X, ¬ TransGen (Embeds m) X X) ∧ (∀ X, ¬ TransGen (Expands m) X X) ∧
      (∀ name, ¬ TransGen (fun a b => b ∈ heldByName m a ∧ ¬ Cuts m a b) name name) ∧
      (∀ name ∈ Fields.keys m.decls, ∃ X ∈ items m, X.name = name) ∧
      ∀ X ∈ items m, ∀ name ∈ X.mentioned, ∃ Y ∈ items m, Y.name = name := by
  obtain ⟨roles, h⟩ := exists_planned hm.sound hm.closed
  have hitem : ∀ name ∈ roles.map Role.name, ∃ X ∈ items m, X.name = name :=
    List.forall_mem_map.2 fun r hr => List.mem_map.1 (h.made r hr)
  refine ⟨not_transGen_self (fun X => height m roles X.name) fun X Y he => h.height_embeds_lt hm he,
    not_transGen_self (fun X => (related m (Mentions m) X.name).card) ?_,
    not_transGen_self (height m roles) fun a b hb => h.height_uncut_lt hm hb.1 hb.2, ?_, ?_⟩
  · rintro _ _ ⟨hX, hY, hn, ⟨name, docs, t, rfl⟩, name', docs', t', rfl⟩
    exact h.card_mentions_lt (h.emitted.fits _ hX) (h.emitted.fits _ hY) hn
  · exact fun name hn => hitem name (h.mem_names hn)
  · exact fun X hX name hn => hitem name (h.emitted.known X hX name hn)

/-- A circle through an alias, an optional, a sum, its tag, a struct, an inline record and a tuple. -/
def knot : Module :=
  ⟨"knot", [],
    [("Link", .alias (.optional (.ref ⟨none, "Tree", 1⟩))),
      ("Tree", .sum [("Fork", [("at", .ref ⟨none, "Cell", 3⟩)])]), ("Fork", .variant "Tree" 0),
      ("Cell", .struct [("ends", .record [("both", .tuple [.ref ⟨none, "Link", 0⟩, .prim .i32])])])]⟩

theorem knot_built : knot.Built := by
  refine @Module.Built.compile []
    ("module knot alias Link = Optional(Tree) sum Tree \x7b | Fork(at :: Cell) \x7d " ++
      "struct Cell \x7b ends :: \x7b both :: (Link, I32) \x7d \x7d") _ (by simp) ?_
  cbv

theorem items_finite_size_knot :
    knot.Built ∧
      items knot =
        [.synonym "Link" [] (.optional (.declared "Tree")),
          .record "Fork" (some ("Tree", "Fork")) [] [⟨"at", .boxed (.declared "Cell"), []⟩],
          .enum "Tree" [] [("Fork", "Fork")],
          .record "Cell" none [] [⟨"ends", .auxiliary "CellEnds", []⟩],
          .record "CellEnds" none []
            [⟨"both", .tuple [.boxed (.declared "Link"), .prim .i32], []⟩]] ∧
      (∀ X, ¬ TransGen (Embeds knot) X X) ∧ (∀ X, ¬ TransGen (Expands knot) X X) ∧
      (∀ name, ¬ TransGen (fun a b => b ∈ heldByName knot a ∧ ¬ Cuts knot a b) name name) ∧
      (∀ name ∈ Fields.keys knot.decls, ∃ X ∈ items knot, X.name = name) ∧
      ∀ X ∈ items knot, ∀ name ∈ X.mentioned, ∃ Y ∈ items knot, Y.name = name :=
  ⟨knot_built, by cbv, items_finite_size knot_built⟩

end Wireform.Emit
