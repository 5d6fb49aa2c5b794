import Mathlib
import Wireform.Proofs.Module.Rebuild
import Wireform.Proofs.Source.Places
import Wireform.Proofs.Source.Resolve

/-!
# Trees in another scope

A tree is resolved against the names of a draft. In a draft that finds the same names, be it at other slots,
a tree that is alike resolves to the same thing with other references (`resolveDecl_follows`).
-/

namespace Wireform

/-- What `d` finds at a path, `d'` finds there too, under another reference. -/
def Draft.Sees (ρ : Ref → Ref) (d d' : Draft) : Prop :=
  ∀ path r, d.resolvePath path = .ok r → d'.resolvePath path = .ok (ρ r)

theorem Ty.rebuild_tuple (wrap : String → Ty → Ty) (ρ : Ref → Ref) (ts : List Ty) :
    (Ty.tuple ts).rebuild wrap ρ = .tuple (ts.map (Ty.rebuild wrap ρ)) := by
  rw [Ty.tuple, Ty.rebuild_record, Ty.tuple]
  congr 1
  apply List.ext_getElem <;> simp [Fields.mapVal]

namespace Source

/-- The types that the trees stand for differ in their references only. -/
def Follows (ρ : Ref → Ref) (d d' : Draft) (t t' : TypeExpr) : Prop :=
  ∀ ty, resolveType d t = .ok ty → resolveType d' t' = .ok (ty.rebuild .annot ρ)

section

variable {ρ : Ref → Ref} {d d' : Draft}

/-! ### Types -/

theorem forall₂_parts {α β : Type} {R : α → β → Prop} {parts : List (α × β)} (h : ∀ p ∈ parts, R p.1 p.2) :
    List.Forall₂ R (parts.map Prod.fst) (parts.map Prod.snd) := by
  rw [List.forall₂_map_left_iff, List.forall₂_map_right_iff, List.forall₂_same]
  exact h

theorem resolveElems_follows {elems elems' : List TypeExpr} {tys : List Ty}
    (h : List.Forall₂ (Follows ρ d d') elems elems') (hr : resolveElems d elems = .ok tys) :
    resolveElems d' elems' = .ok (tys.map (Ty.rebuild .annot ρ)) := by
  induction h generalizing tys with
  | nil =>
    rw [resolveElems] at hr
    cases hr
    rw [resolveElems]
    rfl
  | cons ht _ ih =>
    rw [resolveElems] at hr
    obtain ⟨ty, hty, hr⟩ := bind_eq_ok.1 hr
    obtain ⟨rest, hrest, hr⟩ := bind_eq_ok.1 hr
    cases hr
    rw [resolveElems, ht ty hty, ih hrest]
    rfl

theorem resolveFields_follows {fields fields' : List FieldExpr} {reserved seen : List String} {i : Nat}
    {fs : Fields Ty} (h : List.Forall₂ (fun f f' => f.1 = f'.1 ∧ Follows ρ d d' f.2 f'.2) fields fields')
    (hr : resolveFields d reserved i seen fields = .ok fs) :
    resolveFields d' reserved i seen fields' = .ok (fs.mapVal (Ty.rebuild .annot ρ)) := by
  induction h generalizing i seen fs with
  | nil =>
    rw [resolveFields] at hr
    cases hr
    rw [resolveFields]
    rfl
  | @cons f f' fields fields' hf _ ih =>
    obtain ⟨name?, t⟩ := f
    obtain ⟨name?', t'⟩ := f'
    obtain ⟨rfl, ht⟩ : name? = name?' ∧ Follows ρ d d' t t' := hf
    rw [resolveFields] at hr ⊢
    simp only at hr ⊢
    split at hr
    · cases hr
    rename_i hreserved
    split at hr
    · cases hr
    rename_i hseen
    obtain ⟨ty, hty, hr⟩ := bind_eq_ok.1 hr
    obtain ⟨rest, hrest, hr⟩ := bind_eq_ok.1 hr
    cases hr
    rw [if_neg hreserved, if_neg hseen]
    simp only [ok_bind, pure_eq_ok, ht ty hty, ih hrest]
    rfl

/-- Both are types that go together, or both are the same text. -/
def ArgFollows (ρ : Ref → Ref) (d d' : Draft) (a a' : TypeArg) : Prop :=
  a.SameSort a' ∧ ∀ t t', a = .type t → a' = .type t' → Follows ρ d d' t t'

theorem ArgFollows.resolveArg {a a' : TypeArg} {ty : Ty} {e : SourceError} (h : ArgFollows ρ d d' a a')
    (hr : resolveArg d e a = .ok ty) (e' : SourceError) :
    resolveArg d' e' a' = .ok (ty.rebuild .annot ρ) := by
  obtain ⟨t, rfl, hty⟩ := resolveArg_eq_ok hr
  obtain ⟨hs, ht⟩ := h
  cases a' with
  | doc s => exact hs.elim
  | type t' =>
    rw [Source.resolveArg]
    exact ht t t' rfl rfl ty hty

theorem ArgFollows.eq_doc {a' : TypeArg} {text : String} (h : ArgFollows ρ d d' (.doc text) a') :
    a' = .doc text := by
  cases a' with
  | type t => exact h.1.elim
  | doc text' => exact congrArg TypeArg.doc (Eq.symm h.1)

theorem resolveType_apply_follows {ctor : String} {args args' : List TypeArg} {offset offset' : Nat}
    {fragment fragment' : String} (h : List.Forall₂ (ArgFollows ρ d d') args args') :
    Follows ρ d d' (.apply ctor args offset fragment) (.apply ctor args' offset' fragment') := by
  intro ty hr
  unfold resolveType at hr
  simp only at hr
  split at hr
  · obtain ⟨s, hs, hr⟩ := bind_eq_ok.1 hr
    cases hr
    obtain _ | ⟨ha, _ | _⟩ := h
    unfold resolveType
    simp only [ha.resolveArg hs]
    rfl
  · obtain ⟨s, hs, hr⟩ := bind_eq_ok.1 hr
    cases hr
    obtain _ | ⟨ha, _ | _⟩ := h
    unfold resolveType
    simp only [ha.resolveArg hs]
    rfl
  · obtain ⟨s, hs, hr⟩ := bind_eq_ok.1 hr
    cases hr
    obtain _ | ⟨ha, _ | _⟩ := h
    unfold resolveType
    simp only [ha.resolveArg hs]
    rfl
  · obtain ⟨k, hk, hr⟩ := bind_eq_ok.1 hr
    obtain ⟨v, hv, hr⟩ := bind_eq_ok.1 hr
    cases hr
    obtain _ | ⟨ha, _ | ⟨hb, _ | _⟩⟩ := h
    unfold resolveType
    simp only [ha.resolveArg hk, hb.resolveArg hv]
    rfl
  · obtain ⟨s, hs, hr⟩ := bind_eq_ok.1 hr
    cases hr
    obtain _ | ⟨ha, _ | ⟨hb, _ | _⟩⟩ := h
    obtain rfl := ha.eq_doc
    unfold resolveType
    simp only [hb.resolveArg hs]
    rfl
  all_goals cases hr

theorem resolveType_follows (hs : d.Sees ρ d') {t t' : TypeExpr} (h : t.Like t') : Follows ρ d d' t t' := by
  induction h with
  | path segments offset offset' =>
    intro ty hr
    unfold resolveType at hr ⊢
    split at hr
    · rename_i name
      cases hp : Prim.ofName? name with
      | some p =>
        rw [hp] at hr
        cases hr
        rfl
      | none =>
        rw [hp] at hr
        obtain ⟨r, hr', hr⟩ := bind_eq_ok.1 hr
        cases hr
        simp only [hs _ r hr']
        rfl
    · obtain ⟨r, hr', hr⟩ := bind_eq_ok.1 hr
      cases hr
      rw [hs _ r hr']
      rfl
  | apply ctor offset offset' fragment fragment' hsort _ ih =>
    refine resolveType_apply_follows (forall₂_parts fun p hp => ⟨hsort p hp, ?_⟩)
    rintro t t' ht ht'
    exact ih t t' (by rwa [← ht, ← ht'])
  | tuple _ ih =>
    intro ty hr
    rw [resolveType] at hr ⊢
    obtain ⟨tys, htys, hr⟩ := bind_eq_ok.1 hr
    cases hr
    rw [resolveElems_follows (forall₂_parts ih) htys, Ty.rebuild_tuple]
    rfl
  | record hnames _ ih =>
    intro ty hr
    rw [resolveType] at hr ⊢
    obtain ⟨fs, hfs, hr⟩ := bind_eq_ok.1 hr
    cases hr
    rw [resolveFields_follows (forall₂_parts fun p hp => ⟨hnames p hp, ih p hp⟩) hfs, Ty.rebuild_record]
    rfl

/-- The fields of a declaration, all at once. -/
theorem resolveFields_like (hs : d.Sees ρ d') {fields fields' : List FieldExpr} {reserved : List String}
    {fs : Fields Ty} (h : List.Forall₂ FieldExpr.Like fields fields')
    (hr : resolveFields d reserved 0 [] fields = .ok fs) :
    resolveFields d' reserved 0 [] fields' = .ok (fs.mapVal (Ty.rebuild .annot ρ)) :=
  resolveFields_follows (h.imp fun _ _ hf => ⟨hf.1, resolveType_follows hs hf.2⟩) hr

/-! ### Declarations -/

theorem resolveVariants_like (hs : d.Sees ρ d') {variants variants' : List VariantExpr} {vs : List Variant}
    (h : List.Forall₂ VariantExpr.Like variants variants') (hr : variants.mapM (resolveVariant d) = .ok vs) :
    variants'.mapM (resolveVariant d') = .ok (Fields.mapVal (Fields.mapVal (Ty.rebuild .annot ρ)) vs) := by
  induction h generalizing vs with
  | nil =>
    cases hr
    rfl
  | @cons v v' variants variants' hv _ ih =>
    rw [List.mapM_cons] at hr ⊢
    obtain ⟨first, hfirst, hr⟩ := bind_eq_ok.1 hr
    obtain ⟨rest, hrest, hr⟩ := bind_eq_ok.1 hr
    cases hr
    obtain ⟨fs, hfs, hfirst⟩ := bind_eq_ok.1 hfirst
    cases hfirst
    rw [resolveVariant, resolveFields_like hs hv.2 hfs, ih hrest, ← hv.1]
    rfl

theorem resolveKinds_like (hs : d.Sees ρ d') {items items' : List TableItem} {seen objects : List String}
    {types : Fields Ty} (h : List.Forall₂ TableItem.Like items items')
    (hr : resolveKinds d seen items = .ok (objects, types)) :
    resolveKinds d' seen items' = .ok (objects, types.mapVal (Ty.rebuild .annot ρ)) := by
  induction h generalizing seen objects types with
  | nil =>
    cases hr
    rfl
  | cons hi _ ih =>
    cases hi with
    | ob names =>
      rw [resolveKinds] at hr ⊢
      obtain ⟨seen', hseen, hr⟩ := bind_eq_ok.1 hr
      obtain ⟨⟨os, ts⟩, hrest, hr⟩ := bind_eq_ok.1 hr
      cases hr
      rw [hseen, ok_bind, ih hrest]
      rfl
    | hom name dom codom | attr name dom codom =>
      rw [resolveKinds] at hr ⊢
      obtain ⟨seen', hseen, hr⟩ := bind_eq_ok.1 hr
      rw [hseen, ok_bind, ih hr]
    | attrType name ht =>
      rw [resolveKinds] at hr ⊢
      obtain ⟨seen', hseen, hr⟩ := bind_eq_ok.1 hr
      obtain ⟨ty, hty, hr⟩ := bind_eq_ok.1 hr
      obtain ⟨⟨os, ts⟩, hrest, hr⟩ := bind_eq_ok.1 hr
      cases hr
      rw [hseen, ok_bind, resolveType_follows hs ht ty hty, ok_bind, ih hrest]
      rfl

/-- Arrows are resolved by the names of the table alone. -/
theorem resolveArrows_like {items items' : List TableItem} (objects types : List String)
    (h : List.Forall₂ TableItem.Like items items') :
    resolveArrows objects types items' = resolveArrows objects types items := by
  induction h with
  | nil => rfl
  | cons hi _ ih => cases hi <;> simp only [resolveArrows, ih]

theorem resolveTable_like (hs : d.Sees ρ d') {items items' : List TableItem} {spec : TableSpec}
    (h : List.Forall₂ TableItem.Like items items') (hr : resolveTable d items = .ok spec) :
    resolveTable d' items' = .ok (spec.rebuild .annot ρ) := by
  obtain ⟨⟨objects, types⟩, hk, hr⟩ := bind_eq_ok.1 hr
  obtain ⟨⟨homs, attrs⟩, ha, hr⟩ := bind_eq_ok.1 hr
  cases hr
  rw [resolveTable, resolveKinds_like hs h hk, ok_bind]
  simp only [Fields.keys_mapVal, resolveArrows_like _ _ h, ha]
  rfl

/-- The bodies of a declaration differ in their references only. -/
theorem resolveDecl_like (hs : d.Sees ρ d') {decl decl' : DeclExpr} {bodies : Fields Decl}
    (h : decl.Like decl') (hr : resolveDecl d decl = .ok bodies) :
    resolveDecl d' decl' = .ok (bodies.mapVal (Decl.rebuild .annot ρ)) := by
  cases h with
  | «alias» name ht =>
    obtain ⟨ty, hty, hr⟩ := bind_eq_ok.1 hr
    cases hr
    rw [resolveDecl, resolveType_follows hs ht ty hty]
    rfl
  | struct name hf =>
    obtain ⟨fs, hfs, hr⟩ := bind_eq_ok.1 hr
    cases hr
    rw [resolveDecl, resolveFields_like hs hf hfs]
    rfl
  | sum name hv =>
    obtain ⟨vs, hvs, hr⟩ := bind_eq_ok.1 hr
    cases hr
    have htags : ∀ vs' : List Variant,
        Fields.mapVal (Decl.rebuild .annot ρ) (vs'.mapIdx fun i v => (v.1, .variant name i)) =
          List.mapIdx (fun i v => (v.1, .variant name i))
            (Fields.mapVal (Fields.mapVal (Ty.rebuild .annot ρ)) vs') := by
      intro vs'
      apply List.ext_getElem <;> simp [Fields.mapVal, Decl.rebuild]
    rw [resolveDecl, resolveVariants_like hs hv hvs, Fields.mapVal_append, htags]
    rfl
  | table name hi =>
    obtain ⟨spec, hspec, hr⟩ := bind_eq_ok.1 hr
    cases hr
    rw [resolveDecl, resolveTable_like hs hi hspec]
    rfl

/-- Where everything is found under the same references, the bodies are the same. -/
theorem resolveDecl_same (hs : d.Sees id d') {decl decl' : DeclExpr} {bodies : Fields Decl}
    (h : decl.Like decl') (hr : resolveDecl d decl = .ok bodies) : resolveDecl d' decl' = .ok bodies := by
  rw [resolveDecl_like hs h hr, Fields.mapVal_id' fun b _ => b.2.rebuild_annot_id]

theorem DeclExpr.Like.names {decl decl' : DeclExpr} (h : decl.Like decl') : decl'.names = decl.names := by
  cases h with
  | «alias» | struct | table => rfl
  | sum name hv =>
    obtain ⟨parts, rfl, rfl, hp⟩ := exists_pairs hv
    simp only [DeclExpr.names, List.map_map]
    exact congrArg _ (List.map_congr_left fun p hm => (hp p hm).1.symm)

end

end Source

end Wireform
