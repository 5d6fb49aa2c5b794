import Mathlib
import Wireform.Proofs.Codec.Rounds
import Wireform.Proofs.Module.Rebuild

/-!
# Modules that are built alike

Two modules whose declarations are the same but for documentation and for the numbers of slots read,
write and compare alike. `Rebuilds R wrap E` says what has to hold of the pairs of modules at hand: `E`
relates a module and what becomes of its references to a second module, and a reference leads from
related modules to declarations that are rebuilt in related modules. Reading, writing and comparing at a
type and at the rebuilt type then go through the same steps, and where they fail, the errors are related
by `R`.
-/

namespace Wireform.Codec

/-! ### Outcomes -/

/-- The same result, or two errors that `R` relates. -/
inductive Same (R : CodecError → CodecError → Prop) {α : Type} :
    Except CodecError α → Except CodecError α → Prop
  | ok (a : α) : Same R (.ok a) (.ok a)
  | error {e e' : CodecError} : R e e' → Same R (.error e) (.error e')

/-- Errors of one kind that differ in this text only are related. -/
def Interchangeable (R : CodecError → CodecError → Prop) (a b : String) : Prop :=
  ∀ f : String → CodecError, (∀ s s', (f s).kind = (f s').kind) → R (f a) (f b)

namespace Same

variable {R : CodecError → CodecError → Prop} {α β γ : Type} {x y : Except CodecError α}

theorem refl (hR : ∀ e, R e e) (x : Except CodecError α) : Same R x x := by
  cases x with
  | ok a => exact .ok a
  | error e => exact .error (hR e)

theorem bind {f g : α → Except CodecError β} (h : Same R x y) (hf : ∀ a, Same R (f a) (g a)) :
    Same R (x >>= f) (y >>= g) := by
  cases h with
  | ok a => exact hf a
  | error he => exact .error he

theorem map (f : α → β) (h : Same R x y) : Same R (do return f (← x)) (do return f (← y)) :=
  h.bind fun a => .ok (f a)

theorem mapM {f g : γ → Except CodecError α} {l : List γ} (h : ∀ c ∈ l, Same R (f c) (g c)) :
    Same R (l.mapM f) (l.mapM g) := by
  induction l with
  | nil => exact .ok []
  | cons c l ih =>
    rw [List.mapM_cons, List.mapM_cons]
    obtain ⟨hc, hl⟩ := List.forall_mem_cons.1 h
    exact hc.bind fun a => (ih hl).bind fun as => .ok (a :: as)

end Same

section

variable {R : CodecError → CodecError → Prop} {a b : String}

theorem Interchangeable.refl (hR : ∀ e, R e e) (a : String) : Interchangeable R a a := fun f _ => hR (f a)

theorem tagOf_same (hR : ∀ e, R e e) (h : Interchangeable R a b) (j : Json) :
    Same R (tagOf j a) (tagOf j b) := by
  unfold tagOf
  split
  · split
    · exact .ok _
    · exact .error (hR _)
    · exact .error (h (.mismatch · .noDiscriminator) fun _ _ => rfl)
  · exact .error (h (.conversion · _) fun _ _ => rfl)

theorem expectRecord_same (h : Interchangeable R a b) (j : Json) (tagged : Bool) (names : List String) :
    Same R (expectRecord j a tagged names) (expectRecord j b tagged names) := by
  unfold expectRecord
  split
  · simp only
    split
    · exact .ok _
    · exact .error (h (.mismatch · _) fun _ _ => rfl)
  · exact .error (h (.conversion · _) fun _ _ => rfl)

end

/-! ### Reading at a shape -/

/-- The value of a document at a shape that takes a level of its own, its parts read with `read`. -/
def readShape (read : Reader) (e : Exposed) (j : Json) : Except CodecError Value :=
  match e.head, j with
  | .list t, .arr items => return .list (← items.mapM (read e.owner t))
  | .object t, .obj props =>
    return .object (← props.mapM fun p => do return (p.1, ← read e.owner t p.2))
  | .map k v, .arr items =>
    return .map (collectEntries (← items.mapM (readEntry (read e.owner k) (read e.owner v))))
  | .record fields, j => return .record (← readFields (read e.owner) e.label.text fields false j)
  | .sum variants, j => readSum (read e.owner) e.label.text variants j
  | .tag parent (some (tag, fields)), j => do
    expectTag j parent tag
    return .variant tag (← readFields (read e.owner) tag fields true j)
  | .tag _ none, _ => .error (.unknownType e.label.text)
  | .table, _ => .error (.tableType e.label.text)
  | .unresolved path, _ => .error (.unknownType path)
  | _, j => .error (.conversion e.label.text j)

theorem enter_inline (read : Reader) {m : Module} {t : Ty} (hn : isNested t = true)
    (hr : ∀ r, t ≠ .ref r) (j : Json) : enter read m t j = readShape read (m.exposeInline t) j := by
  cases t with
  | prim | annot | optional => cases hn
  | ref r => exact absurd rfl (hr r)
  | record | sum => rfl
  | list | object | map => cases j <;> rfl

theorem enter_unresolved (read : Reader) {m : Module} {r : Ref} (h : m.resolve? r = none) (j : Json) :
    enter read m (.ref r) j = readShape read (m.exposeInline (.ref r)) j := by
  rw [enter, h]
  rfl

theorem enter_alias (read : Reader) {m owner : Module} {r : Ref} {t : Ty}
    (h : m.resolve? r = some (owner, .alias t)) (j : Json) :
    enter read m (.ref r) j = read owner t j := by
  rw [enter, h]
  rfl

theorem enter_decl (read : Reader) {m owner : Module} {r : Ref} {decl : Decl}
    (h : m.resolve? r = some (owner, decl)) (ha : ∀ t, decl ≠ .alias t) (j : Json) :
    enter read m (.ref r) j = readShape read (owner.exposeDecl r.name decl) j := by
  rw [enter, h]
  cases decl with
  | «alias» t => exact absurd rfl (ha t)
  | variant parent index =>
    simp only [readDecl, Module.exposeDecl, readShape]
    cases owner.variant? parent index <;> rfl
  | _ => rfl

/-- Reading looks at what is under the documentation. -/
theorem readWithin_stripAnnot (limit room : Nat) (m : Module) (t : Ty) (j : Json) :
    readWithin limit room m t.stripAnnot j = readWithin limit room m t j := by
  fun_induction Ty.stripAnnot t with
  | case1 doc t ih => rw [ih, readWithin_annot]
  | case2 t h => rfl

theorem readWithin_congr {limit room : Nat} {m : Module} {s t : Ty} (h : s.stripAnnot = t.stripAnnot)
    (j : Json) : readWithin limit room m s j = readWithin limit room m t j := by
  rw [← readWithin_stripAnnot, h, readWithin_stripAnnot]

/-! ### What has to hold of the modules -/

/-- Two shapes that are built alike. -/
structure Rebuilt (R : CodecError → CodecError → Prop) (wrap : String → Ty → Ty)
    (E : Module → (Ref → Ref) → Module → Prop) (e e' : Exposed) : Prop where
  head : ∃ ρ, E e.owner ρ e'.owner ∧ e'.head = e.head.rebuild wrap ρ
  label : Interchangeable R e.label.text e'.label.text

structure Rebuilds (R : CodecError → CodecError → Prop) (wrap : String → Ty → Ty)
    (E : Module → (Ref → Ref) → Module → Prop) : Prop where
  refl : ∀ e, R e e
  strip : ∀ doc t, (wrap doc t).stripAnnot = t.stripAnnot
  render : ∀ {m ρ m'}, E m ρ m' → ∀ t : Ty, Interchangeable R t.render (t.rebuild wrap ρ).render
  renumbers : ∀ {m ρ m'}, E m ρ m' → Ref.Renumbers ρ
  length : ∀ {m ρ m'}, E m ρ m' → m'.decls.length = m.decls.length
  get : ∀ {m ρ m'}, E m ρ m' → ∀ name, m'.get? name = (m.get? name).map (Decl.rebuild wrap ρ)
  unresolved : ∀ {m ρ m'}, E m ρ m' → ∀ r, m.resolve? r = none → m'.resolve? (ρ r) = none
  resolved : ∀ {m ρ m'}, E m ρ m' → ∀ r owner decl, m.resolve? r = some (owner, decl) →
    ∃ ρ' owner', E owner ρ' owner' ∧ m'.resolve? (ρ r) = some (owner', decl.rebuild wrap ρ')

namespace Rebuilds

variable {R : CodecError → CodecError → Prop} {wrap : String → Ty → Ty}
  {E : Module → (Ref → Ref) → Module → Prop} {m m' owner owner' : Module} {ρ : Ref → Ref} {t : Ty}

theorem exposeInline (h : Rebuilds R wrap E) (hm : E m ρ m') (ha : ∀ doc s, t ≠ .annot doc s) :
    Rebuilt R wrap E (m.exposeInline t) (m'.exposeInline (t.rebuild wrap ρ)) :=
  ⟨⟨ρ, hm, Module.exposeInline_rebuild (h.renumbers hm) ha⟩, h.render hm t⟩

theorem exposeDecl (h : Rebuilds R wrap E) (hm : E m ρ m') (name : String) (decl : Decl) :
    Rebuilt R wrap E (m.exposeDecl name decl) (m'.exposeDecl name (decl.rebuild wrap ρ)) := by
  have hl : ∀ (owner : Module) (decl : Decl), (owner.exposeDecl name decl).label = .named name := by
    intro owner decl
    cases decl <;> rfl
  have ho : ∀ (owner : Module) (decl : Decl), (owner.exposeDecl name decl).owner = owner := by
    intro owner decl
    cases decl <;> rfl
  refine ⟨⟨ρ, ?_, Module.exposeDecl_rebuild (h.get hm) name decl⟩, ?_⟩
  · rw [ho, ho]
    exact hm
  · rw [hl, hl]
    exact Interchangeable.refl h.refl name

theorem not_alias {decl : Decl} (h : ∀ t, decl ≠ .alias t) (t : Ty) : decl.rebuild wrap ρ ≠ .alias t := by
  cases decl with
  | «alias» s => exact absurd rfl (h s)
  | _ => nofun

/-! ### Exposing -/

/-- An alias of the module itself costs one step of the budget on both sides; all others are expanded in
an import. -/
theorem exposeWithin (h : Rebuilds R wrap E)
    (himports : ∀ i ∈ m.imports, ∀ ρ owner' t, E i.2 ρ owner' →
      Rebuilt R wrap E (i.2.expose t) (owner'.expose (t.rebuild wrap ρ)))
    (hm : E m ρ m') (budget : Nat) (t : Ty) :
    Rebuilt R wrap E (m.exposeWithin (Module.importExposers m.imports) budget t)
      (m'.exposeWithin (Module.importExposers m'.imports) budget (t.rebuild wrap ρ)) := by
  induction budget using Nat.strong_induction_on generalizing t ρ with
  | _ budget ih =>
    rw [← Module.exposeWithin_stripAnnot, ← Module.exposeWithin_stripAnnot _ _ (t.rebuild wrap ρ),
      Ty.stripAnnot_rebuild h.strip]
    cases hs : t.stripAnnot with
    | annot doc s => exact absurd hs (Module.stripAnnot_ne_annot t doc s)
    | ref r =>
      rw [Ty.rebuild]
      cases hr : m.resolve? r with
      | none =>
        rw [Module.exposeWithin_unresolved _ _ hr,
          Module.exposeWithin_unresolved _ _ (h.unresolved hm r hr)]
        exact h.exposeInline hm (by simp)
      | some found =>
        obtain ⟨owner, decl⟩ := found
        obtain ⟨ρ', owner', ho, hr'⟩ := h.resolved hm r owner decl hr
        by_cases ha : ∃ s, decl = .alias s
        · obtain ⟨s, rfl⟩ := ha
          cases hv : r.via with
          | some i =>
            rw [Module.exposeWithin_import _ hv hr,
              Module.exposeWithin_import _ (((h.renumbers hm).via r).trans hv) hr']
            have hi : (i, owner) ∈ m.imports := by
              have hown := (Module.resolve?_eq_some hr).1
              rw [Module.owner?, hv] at hown
              exact Fields.mem_of_get? hown
            exact himports _ hi ρ' owner' s ho
          | none =>
            have hv' : (ρ r).via = none := ((h.renumbers hm).via r).trans hv
            obtain rfl : m = owner := by
              have hown := (Module.resolve?_eq_some hr).1
              rw [Module.owner?, hv] at hown
              exact Option.some.inj hown
            obtain rfl : m' = owner' := by
              have hown := (Module.resolve?_eq_some hr').1
              rw [Module.owner?, hv'] at hown
              exact Option.some.inj hown
            cases budget with
            | zero =>
              rw [Module.exposeWithin_spent _ hv hr, Module.exposeWithin_spent _ hv' hr', (h.renumbers hm).name]
              exact h.exposeDecl ho r.name (.alias s)
            | succ budget =>
              rw [Module.exposeWithin_local _ hv hr, Module.exposeWithin_local _ hv' hr']
              exact ih budget (Nat.lt_succ_self budget) ho s
        · have ha : ∀ s, decl ≠ .alias s := fun s hd => ha ⟨s, hd⟩
          rw [Module.exposeWithin_decl _ _ hr ha, Module.exposeWithin_decl _ _ hr' (not_alias ha), (h.renumbers hm).name]
          exact h.exposeDecl ho r.name decl
    | record fields =>
      rw [Module.exposeWithin_inline _ _ (by simp) (by simp), Ty.rebuild_record,
        Module.exposeWithin_inline _ _ (by simp) (by simp), ← Ty.rebuild_record]
      exact h.exposeInline hm (by simp)
    | sum variants =>
      rw [Module.exposeWithin_inline _ _ (by simp) (by simp), Ty.rebuild_sum,
        Module.exposeWithin_inline _ _ (by simp) (by simp), ← Ty.rebuild_sum]
      exact h.exposeInline hm (by simp)
    | _ =>
      rw [Module.exposeWithin_inline _ _ (by simp) (by simp),
        Module.exposeWithin_inline _ _ (by simp [Ty.rebuild]) (by simp [Ty.rebuild])]
      exact h.exposeInline hm (by simp)

theorem expose (h : Rebuilds R wrap E) {m m' : Module} {ρ : Ref → Ref} (hm : E m ρ m') (t : Ty) :
    Rebuilt R wrap E (m.expose t) (m'.expose (t.rebuild wrap ρ)) := by
  rw [Module.expose_eq, Module.expose_eq, h.length hm]
  refine h.exposeWithin (fun i hi ρ owner' t ho => ?_) hm m.decls.length t
  have hlt := Module.sizeOf_lt_of_mem_imports hi
  exact h.expose ho t
termination_by sizeOf m

/-! ### Reading -/

theorem readFields (h : Rebuilds R wrap E) {read : Reader}
    (hread : ∀ {m ρ m'}, E m ρ m' → ∀ t j, Same R (read m t j) (read m' (t.rebuild wrap ρ) j))
    (hm : E m ρ m') {a b : String} (hc : Interchangeable R a b) (fields : Fields Ty) (tagged : Bool)
    (j : Json) :
    Same R (readFields (read m) a fields tagged j)
      (readFields (read m') b (fields.mapVal (Ty.rebuild wrap ρ)) tagged j) := by
  unfold Codec.readFields
  rw [Fields.keys_mapVal]
  refine (expectRecord_same hc j tagged _).bind fun props => ?_
  rw [Fields.mapVal, mapM_map]
  refine Same.map Fields.ofList (Same.mapM fun f _ => ?_)
  exact (Same.refl h.refl _).bind fun doc => (hread hm f.2 doc).map (Prod.mk f.1)

theorem readSum (h : Rebuilds R wrap E) {read : Reader}
    (hread : ∀ {m ρ m'}, E m ρ m' → ∀ t j, Same R (read m t j) (read m' (t.rebuild wrap ρ) j))
    (hm : E m ρ m') {a b : String} (hc : Interchangeable R a b) (variants : List Variant) (j : Json) :
    Same R (readSum (read m) a variants j)
      (readSum (read m') b (Fields.mapVal (Fields.mapVal (Ty.rebuild wrap ρ)) variants) j) := by
  unfold Codec.readSum
  refine (tagOf_same h.refl hc j).bind fun tag => ?_
  rw [Fields.get?_mapVal]
  cases Fields.get? variants tag with
  | none => exact .error (hc (.unknownTag · tag) fun _ _ => rfl)
  | some fields =>
    exact (h.readFields hread hm (Interchangeable.refl h.refl tag) fields true j).map (Value.variant tag)

theorem readShape (h : Rebuilds R wrap E) {read : Reader}
    (hread : ∀ {m ρ m'}, E m ρ m' → ∀ t j, Same R (read m t j) (read m' (t.rebuild wrap ρ) j))
    {e e' : Exposed} (he : Rebuilt R wrap E e e') (j : Json) :
    Same R (readShape read e j) (readShape read e' j) := by
  obtain ⟨owner, label, head⟩ := e
  obtain ⟨owner', label', head'⟩ := e'
  obtain ⟨⟨ρ, ho, hh⟩, hl⟩ := he
  simp only at ho hl hh
  subst hh
  have hconv : ∀ j, Same (α := Value) R (.error (.conversion label.text j))
      (.error (.conversion label'.text j)) := fun j => .error (hl (.conversion · j) fun _ _ => rfl)
  cases head with
  | list t =>
    cases j with
    | arr items => exact (Same.mapM fun j _ => hread ho t j).map Value.list
    | _ => exact hconv _
  | object t =>
    cases j with
    | obj props =>
      exact (Same.mapM fun p _ => (hread ho t p.2).map (Prod.mk p.1)).map Value.object
    | _ => exact hconv _
  | map k v =>
    cases j with
    | arr items =>
      refine Same.map (Value.map ∘ collectEntries) (Same.mapM fun j _ => ?_)
      unfold readEntry
      refine (Same.refl h.refl _).bind fun props => (Same.refl h.refl _).bind fun doc => ?_
      refine (hread ho k doc).bind fun key => (Same.refl h.refl _).bind fun doc => ?_
      exact (hread ho v doc).bind fun value => Same.refl h.refl _
    | _ => exact hconv _
  | record fields => exact (h.readFields hread ho hl fields false j).map Value.record
  | sum variants => exact h.readSum hread ho hl variants j
  | tag parent found =>
    cases found with
    | none => exact .error (hl .unknownType fun _ _ => rfl)
    | some found =>
      refine (Same.refl h.refl _).bind fun _ => ?_
      exact (h.readFields hread ho (Interchangeable.refl h.refl found.1) found.2 true j).map
        (Value.variant found.1)
  | table => exact .error (hl .tableType fun _ _ => rfl)
  | unresolved path => exact Same.refl h.refl _
  | _ => exact hconv j

theorem isNested_rebuild (h : isNested t = true) : isNested (t.rebuild wrap ρ) = true := by
  cases t with
  | prim | annot | optional => cases h
  | _ => rfl

theorem enter (h : Rebuilds R wrap E) {read : Reader}
    (hread : ∀ {m ρ m'}, E m ρ m' → ∀ t j, Same R (read m t j) (read m' (t.rebuild wrap ρ) j))
    (hm : E m ρ m') (hn : isNested t = true) (j : Json) :
    Same R (enter read m t j) (enter read m' (t.rebuild wrap ρ) j) := by
  have ha : ∀ doc s, t ≠ .annot doc s := by
    rintro doc s rfl
    cases hn
  by_cases href : ∃ r, t = .ref r
  · obtain ⟨r, rfl⟩ := href
    rw [Ty.rebuild]
    cases hr : m.resolve? r with
    | none =>
      rw [enter_unresolved read hr, enter_unresolved read (h.unresolved hm r hr)]
      exact h.readShape hread (h.exposeInline hm ha) j
    | some found =>
      obtain ⟨owner, decl⟩ := found
      obtain ⟨ρ', owner', ho, hr'⟩ := h.resolved hm r owner decl hr
      by_cases hd : ∃ s, decl = .alias s
      · obtain ⟨s, rfl⟩ := hd
        rw [enter_alias read hr, enter_alias read hr']
        exact hread ho s j
      · have hd : ∀ s, decl ≠ .alias s := fun s he => hd ⟨s, he⟩
        rw [enter_decl read hr hd, enter_decl read hr' (not_alias hd), (h.renumbers hm).name]
        exact h.readShape hread (h.exposeDecl ho r.name decl) j
  · have href : ∀ r, t ≠ .ref r := fun r he => href ⟨r, he⟩
    have href' : ∀ r, t.rebuild wrap ρ ≠ .ref r := by
      cases t with
      | prim | annot | optional => cases hn
      | ref r => exact absurd rfl (href r)
      | _ => simp [Ty.rebuild]
    rw [enter_inline read hn href, enter_inline read (isNested_rebuild hn) href']
    exact h.readShape hread (h.exposeInline hm ha) j

/-- Scalars, documentation and optionals are free, so what holds of the types that take a level holds of
all types. -/
theorem readWithin_of_nested (h : Rebuilds R wrap E) {limit room : Nat}
    (hnested : ∀ t, isNested t = true → ∀ j,
      Same R (readWithin limit room m t j) (readWithin limit room m' (t.rebuild wrap ρ) j))
    (t : Ty) (j : Json) :
    Same R (readWithin limit room m t j) (readWithin limit room m' (t.rebuild wrap ρ) j) := by
  induction t using Ty.parts_induction generalizing j with
  | step t ih =>
    cases t with
    | prim p =>
      rw [Ty.rebuild, readWithin_prim, readWithin_prim]
      exact Same.refl h.refl _
    | annot doc t =>
      rw [Ty.rebuild, readWithin_annot, readWithin_congr (h.strip doc _)]
      exact ih t (by simp [Ty.parts]) j
    | optional t =>
      rw [Ty.rebuild]
      by_cases hj : j = .null
      · subst hj
        rw [readWithin_null, readWithin_null]
        exact .ok _
      · rw [readWithin_optional _ _ _ _ hj, readWithin_optional _ _ _ _ hj]
        exact (ih t (by simp [Ty.parts]) j).map Value.present
    | _ => exact hnested _ rfl j

theorem readWithin (h : Rebuilds R wrap E) (limit room : Nat) (hm : E m ρ m') (t : Ty) (j : Json) :
    Same R (readWithin limit room m t j) (readWithin limit room m' (t.rebuild wrap ρ) j) := by
  induction room generalizing m m' ρ t j with
  | zero =>
    refine h.readWithin_of_nested (fun t hn j => ?_) t j
    rw [readWithin_zero_of_nested hn, readWithin_zero_of_nested (isNested_rebuild hn)]
    exact Same.refl h.refl _
  | succ room ih =>
    refine h.readWithin_of_nested (fun t hn j => ?_) t j
    rw [readWithin_succ_of_nested hn, readWithin_succ_of_nested (isNested_rebuild hn)]
    exact h.enter (fun hm t j => ih hm t j) hm hn j

/-! ### Writing -/

theorem writeFields (h : Rebuilds R wrap E) {write : Module → Ty → Value → Except CodecError Json}
    {values : Fields Value}
    (hwrite : ∀ t, ∀ w ∈ values, Same R (write m t w.2) (write m' (t.rebuild wrap ρ) w.2))
    (fields : Fields Ty) (tag : Option String) :
    Same R (writeFields m fields (values.map fun w => (w.1, (write · · w.2))) tag)
      (writeFields m' (fields.mapVal (Ty.rebuild wrap ρ))
        (values.map fun w => (w.1, (write · · w.2))) tag) := by
  unfold Codec.writeFields
  rw [Fields.length_mapVal, List.length_map]
  by_cases hl : values.length = fields.length
  · simp only [hl, ne_eq, not_true_eq_false, if_false]
    rw [Fields.mapVal, mapM_map]
    refine (Same.mapM fun f _ => ?_).bind fun props => Same.refl h.refl _
    simp only [Fields.get?_map fun w m t => write m t w.2]
    cases hw : Fields.get? values f.1 with
    | none => exact Same.refl h.refl _
    | some w => exact (hwrite f.2 _ (Fields.mem_of_get? hw)).map (Prod.mk f.1)
  · simp only [hl, ne_eq, not_false_eq_true, if_true]
    exact Same.refl h.refl _

theorem writeShape (h : Rebuilds R wrap E) {write : Module → Ty → Value → Except CodecError Json}
    {e e' : Exposed} (he : Rebuilt R wrap E e e') (v : Value)
    (hwrite : ∀ {m ρ m'}, E m ρ m' → ∀ t, ∀ w ∈ v.parts,
      Same R (write m t w) (write m' (t.rebuild wrap ρ) w)) :
    Same R (writeShape write e v) (writeShape write e' v) := by
  obtain ⟨owner, label, head⟩ := e
  obtain ⟨owner', label', head'⟩ := e'
  obtain ⟨⟨ρ, ho, hh⟩, hl⟩ := he
  simp only at ho hl hh
  subst hh
  have hmis : ∀ v : Value, Same (α := Json) R (.error (.valueMismatch label.text v.kind))
      (.error (.valueMismatch label'.text v.kind)) := fun v =>
    .error (hl (.valueMismatch · v.kind) fun _ _ => rfl)
  cases head with
  | prim p =>
    simp only [Codec.writeShape, Head.rebuild]
    by_cases hp : p.admits v = true
    · rw [if_pos hp, if_pos hp]
      exact Same.refl h.refl _
    · rw [if_neg hp, if_neg hp]
      exact hmis v
  | optional t =>
    cases v with
    | absent => exact .ok _
    | present v => exact hwrite ho t v (by simp [Value.parts])
    | _ => exact hmis _
  | list t =>
    cases v with
    | list items => exact (Same.mapM fun v hv => hwrite ho t v hv).map Json.arr
    | _ => exact hmis _
  | object t =>
    cases v with
    | object props =>
      refine Same.map Json.obj (Same.mapM fun p hp => ?_)
      exact (hwrite ho t p.2 (List.mem_map_of_mem hp)).map (Prod.mk p.1)
    | _ => exact hmis _
  | map k t =>
    cases v with
    | map entries =>
      refine Same.map Json.arr (Same.mapM fun p hp => ?_)
      refine (hwrite ho k p.1 (List.mem_append_left _ (List.mem_map_of_mem hp))).bind fun key => ?_
      exact (hwrite ho t p.2 (List.mem_append_right _ (List.mem_map_of_mem hp))).map (mapEntry key)
    | _ => exact hmis _
  | record fields =>
    cases v with
    | record values => exact h.writeFields (fun t w hw => hwrite ho t w.2 (List.mem_map_of_mem hw)) fields none
    | _ => exact hmis _
  | sum variants =>
    cases v with
    | variant tag values =>
      simp only [Codec.writeShape, Head.rebuild, Fields.get?_mapVal]
      cases Fields.get? variants tag with
      | none => exact .error (hl (.unknownTag · tag) fun _ _ => rfl)
      | some fields =>
        exact h.writeFields (fun t w hw => hwrite ho t w.2 (List.mem_map_of_mem hw)) fields (some tag)
    | _ => exact hmis _
  | tag parent found =>
    cases v with
    | variant tag values =>
      cases found with
      | none => exact .error (hl .unknownType fun _ _ => rfl)
      | some found =>
        simp only [Codec.writeShape, Head.rebuild, Option.map_some]
        by_cases ht : found.1 = tag
        · rw [if_pos ht, if_pos ht]
          exact h.writeFields (fun t w hw => hwrite ho t w.2 (List.mem_map_of_mem hw)) found.2 (some tag)
        · rw [if_neg ht, if_neg ht]
          exact Same.refl h.refl _
    | _ => cases found <;> exact hmis _
  | table => cases v <;> exact .error (hl .tableType fun _ _ => rfl)
  | unresolved path => cases v <;> exact Same.refl h.refl _
  | endless => cases v <;> exact .error (hl .endlessAlias fun _ _ => rfl)

theorem writeAs (h : Rebuilds R wrap E) (v : Value) (hm : E m ρ m') (t : Ty) :
    Same R (writeAs v m t) (writeAs v m' (t.rebuild wrap ρ)) := by
  induction v using Value.parts_induction generalizing m m' ρ t with
  | step v ih =>
    rw [writeAs_eq_writeShape, writeAs_eq_writeShape]
    exact h.writeShape (h.expose hm t) v fun hm t w hw => ih w hw hm t

/-! ### Comparing -/

/-- To compare at rebuilt fields is to compare, with rebuilt types, at the fields. -/
theorem equalFields_rebuild (test : Module → Ty → Value × Value → Bool) (m m' : Module)
    (fields : Fields Ty) (xs ys : Fields Value) :
    equalFields m' (fields.mapVal (Ty.rebuild wrap ρ))
        (xs.map fun x => (x.1, fun m t y => test m t (x.2, y))) ys =
      equalFields m fields
        (xs.map fun x => (x.1, fun _ t y => test m' (t.rebuild wrap ρ) (x.2, y))) ys := by
  simp only [equalFields, Fields.length_mapVal, List.length_map]
  congr 1
  rw [Fields.mapVal, List.all_map]
  refine all_congr_of_mem fun f _ => ?_
  simp only [Function.comp_apply]
  rw [Fields.get?_map fun x m t y => test m t (x.2, y),
    Fields.get?_map fun x (_ : Module) (t : Ty) (y : Value) => test m' (t.rebuild wrap ρ) (x.2, y)]
  cases Fields.get? xs f.1 with
  | none => rfl
  | some x => cases Fields.get? ys f.1 <;> rfl

theorem equalShape_rebuild (test : Module → Ty → Value × Value → Bool) (owner owner' : Module)
    (label label' : Label) (head : Head) (p : Value × Value) :
    equalShape test ⟨owner', label', head.rebuild wrap ρ⟩ p =
      equalShape (fun _ t q => test owner' (t.rebuild wrap ρ) q) ⟨owner, label, head⟩ p := by
  obtain ⟨a, b⟩ := p
  cases head with
  | prim p => rfl
  | optional t =>
    cases a with
    | absent => cases b <;> rfl
    | present x => cases b <;> rfl
    | _ => rfl
  | list t =>
    cases a with
    | list xs =>
      cases b with
      | list ys => simp only [equalShape, Head.rebuild, List.zip_map_left, List.all_map]; rfl
      | _ => rfl
    | _ => rfl
  | object t =>
    cases a with
    | object xs =>
      cases b with
      | object ys => simp only [equalShape, Head.rebuild, List.all_map]; rfl
      | _ => rfl
    | _ => rfl
  | map k t =>
    cases a with
    | map xs =>
      cases b with
      | map ys => simp only [equalShape, Head.rebuild, List.zip_map_left, List.all_map]; rfl
      | _ => rfl
    | _ => rfl
  | record fields =>
    cases a with
    | record xs =>
      cases b with
      | record ys => exact equalFields_rebuild test owner owner' fields xs ys
      | _ => rfl
    | _ => rfl
  | sum variants =>
    cases a with
    | variant s xs =>
      cases b with
      | variant s' ys =>
        simp only [equalShape, Head.rebuild, Fields.get?_mapVal]
        cases Fields.get? variants s with
        | none => rfl
        | some fields => exact congrArg _ (equalFields_rebuild test owner owner' fields xs ys)
      | _ => rfl
    | _ => rfl
  | tag parent found =>
    cases found with
    | none => rfl
    | some found =>
      cases a with
      | variant s xs =>
        cases b with
        | variant s' ys =>
          simp only [equalShape, Head.rebuild, Option.map_some]
          rw [equalFields_rebuild test owner]
        | _ => rfl
      | _ => rfl
  | _ => rfl

theorem equalAs (h : Rebuilds R wrap E) (p : Value × Value) (hm : E m ρ m') (t : Ty) :
    equalAs p.1 m t p.2 = equalAs p.1 m' (t.rebuild wrap ρ) p.2 := by
  induction p using pairParts_wellFounded.induction generalizing m m' ρ t with
  | _ p ih =>
    rw [equalAs_eq_equalShape, equalAs_eq_equalShape]
    obtain ⟨⟨ρ', ho, hh⟩, -⟩ := h.expose hm t
    generalize m.expose t = e at ho hh ⊢
    generalize m'.expose (t.rebuild wrap ρ) = e' at ho hh ⊢
    obtain ⟨owner, label, head⟩ := e
    obtain ⟨owner', label', head'⟩ := e'
    simp only at ho hh
    subst hh
    rw [equalShape_rebuild _ owner owner' label label']
    exact equalShape_congr _ p fun t _ q hq => ih q hq ho t

end Rebuilds

end Wireform.Codec
