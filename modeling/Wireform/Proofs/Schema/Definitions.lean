import Mathlib
import Wireform.Schema
import Wireform.Proofs.Module.Sound

/-!
# What is defined under which key

The definitions of a module hold its own declarations under their names and those of the modules
below it under qualified names. The walk through the imports skips a module whose name it has seen;
if no two different modules below have one name, it still comes to all of them.
-/

namespace Wireform

namespace Module

def Imports (m x : Module) : Prop := ∃ i ∈ m.imports, i.2 = x

/-- `x` is imported by `m`, directly or not. -/
def Below (m x : Module) : Prop := Relation.TransGen Imports m x

/-- No two different modules below have one name. -/
def Unambiguous (m : Module) : Prop :=
  ∀ x y, m.Below x → m.Below y → x.name = y.name → x = y

variable {m x y : Module}

theorem Imports.sizeOf_lt (h : m.Imports x) : sizeOf x < sizeOf m := by
  obtain ⟨i, hi, rfl⟩ := h
  obtain ⟨name, imports, decls⟩ := m
  have h₁ := List.sizeOf_lt_of_mem hi
  obtain ⟨n, x⟩ := i
  simp only [Prod.mk.sizeOf_spec, mk.sizeOf_spec] at h₁ ⊢
  omega

theorem Below.sizeOf_lt (h : m.Below x) : sizeOf x < sizeOf m := by
  induction h with
  | single h => exact h.sizeOf_lt
  | tail _ h ih => exact h.sizeOf_lt.trans ih

theorem Sound.of_imports (hm : m.Sound) (h : m.Imports x) : x.Sound := by
  obtain ⟨i, hi, rfl⟩ := h
  exact hm.imports i hi

theorem Sound.of_below (hm : m.Sound) (h : m.Below x) : x.Sound := by
  induction h with
  | single h => exact hm.of_imports h
  | tail _ h ih => exact ih.of_imports h

end Module

namespace Schema

/-! ### Keys -/

theorem append_dot_inj {a b c d : List Char} (hb : '.' ∉ b) (hd : '.' ∉ d)
    (h : a ++ '.' :: b = c ++ '.' :: d) : a = c ∧ b = d := by
  rcases List.append_eq_append_iff.1 h with ⟨e, rfl, he⟩ | ⟨e, rfl, he⟩
  · cases e with
    | nil => simpa using he
    | cons x e =>
      obtain ⟨rfl, rfl⟩ := List.cons.inj he
      simp at hb
  · cases e with
    | nil => simpa [eq_comm] using he
    | cons x e =>
      obtain ⟨rfl, rfl⟩ := List.cons.inj he
      simp at hd

/-- Names without points can be told from qualified names, and these can be taken apart. -/
theorem localKey_inj {v w : Option String} {a b : String} (ha : '.' ∉ a.toList) (hb : '.' ∉ b.toList)
    (h : localKey v a = localKey w b) : v = w ∧ a = b := by
  have hdot : ∀ m k : String, (m ++ "." ++ k).toList = m.toList ++ '.' :: k.toList := by simp
  cases v with
  | none =>
    cases w with
    | none => exact ⟨rfl, h⟩
    | some m =>
      have h : a = m ++ "." ++ b := h
      rw [h, hdot] at ha
      simp at ha
  | some m =>
    cases w with
    | none =>
      have h : m ++ "." ++ a = b := h
      rw [← h, hdot] at hb
      simp at hb
    | some n =>
      have h := congrArg String.toList (show m ++ "." ++ a = n ++ "." ++ b from h)
      rw [hdot, hdot] at h
      obtain ⟨hm, hk⟩ := append_dot_inj ha hb h
      exact ⟨congrArg some (String.toList_injective hm), String.toList_injective hk⟩

/-! ### The definitions of one module -/

theorem get?_foldl_insert_of_not_mem {decls : List (String × Decl)} {key : String → String}
    {schema : Decl → Json} {defs : Fields Json} {k : String} (h : ∀ d ∈ decls, key d.1 ≠ k) :
    Fields.get? (decls.foldl (fun defs d => defs.insert (key d.1) (schema d.2)) defs) k =
      Fields.get? defs k := by
  induction decls generalizing defs with
  | nil => rfl
  | cons d decls ih =>
    rw [List.foldl_cons, ih fun d hd => h d (by simp [hd]), Fields.get?_insert,
      if_neg (Ne.symm (h d (by simp)))]

variable {m root : Module} {w : Option String}

theorem get?_addModule_of_not_mem {defs : Fields Json} {k : String}
    (h : ∀ d ∈ m.decls, localKey w d.1 ≠ k) :
    Fields.get? (addModule w m defs) k = Fields.get? defs k :=
  get?_foldl_insert_of_not_mem h

theorem get?_addModule {defs : Fields Json} (hm : m.Orderly) {d : String × Decl}
    (hd : d ∈ m.decls) :
    Fields.get? (addModule w m defs) (localKey w d.1) = some (ofDecl w m d.2) := by
  have hplain := hm.plain
  have hdist := hm.distinct
  unfold addModule
  obtain ⟨pre, post, he⟩ := List.append_of_mem hd
  rw [he] at hplain hdist ⊢
  -- no later declaration has the key
  have hpost : ∀ e ∈ post, localKey w e.1 ≠ localKey w d.1 := by
    intro e hm hk
    have hk := (localKey_inj (hplain e (by simp [hm])) (hplain d (by simp)) hk).2
    unfold Fields.Distinct at hdist
    rw [Fields.keys_append, Fields.keys_cons, List.nodup_append] at hdist
    exact (List.nodup_cons.1 hdist.2.1).1 (hk ▸ Fields.mem_keys_of_mem hm)
  rw [List.foldl_append, List.foldl_cons, get?_foldl_insert_of_not_mem hpost, Fields.get?_insert,
    if_pos rfl]

/-! ### The walk through the imports -/

/-- The definitions so far: those of the module itself and those of all modules that were seen. -/
structure Export.Holds (root : Module) (e : Export) : Prop where
  own : ∀ d ∈ root.decls, Fields.get? e.defs d.1 = some (ofDecl none root d.2)
  imported : ∀ n ∈ e.seen, ∃ x, root.Below x ∧ x.name = n ∧
    ∀ d ∈ x.decls, Fields.get? e.defs (localKey (some n) d.1) = some (ofDecl (some n) x d.2)

theorem Export.Holds.add {e : Export} (h : e.Holds root) (hr : root.Sound) (hm : root.Below m)
    (hn : m.name ∉ e.seen) :
    Export.Holds root ⟨m.name :: e.seen, addModule (some m.name) m e.defs⟩ where
  own := by
    intro d hd
    rw [get?_addModule_of_not_mem, h.own d hd]
    intro d' hd' hk
    have hk : localKey (some m.name) d'.1 = localKey none d.1 := hk
    exact absurd (localKey_inj ((hr.of_below hm).orderly.plain d' hd') (hr.orderly.plain d hd) hk).1
      (by simp)
  imported := by
    refine List.forall_mem_cons.2 ⟨⟨m, hm, rfl, fun d hd => ?_⟩, fun n hmem => ?_⟩
    · exact get?_addModule (hr.of_below hm).orderly hd
    · obtain ⟨x, hx, rfl, hdefs⟩ := h.imported n hmem
      refine ⟨x, hx, rfl, fun d hd => ?_⟩
      rw [get?_addModule_of_not_mem, hdefs d hd]
      intro d' hd' hk
      have he := (localKey_inj ((hr.of_below hm).orderly.plain d' hd')
        ((hr.of_below hx).orderly.plain d hd) hk).1
      rw [Option.some.injEq] at he
      exact hn (he ▸ hmem)

/-- What a walk through the modules in `S` has done: it has seen them, and no others. -/
structure Walked (root : Module) (S : Module → Prop) (e e' : Export) : Prop where
  holds : e'.Holds root
  kept : ∀ n ∈ e.seen, n ∈ e'.seen
  seen : ∀ x, S x → x.name ∈ e'.seen
  only : ∀ n ∈ e'.seen, n ∈ e.seen ∨ ∃ x, S x ∧ x.name = n

/-- With a module of `S`, all modules below it have been seen. -/
def Closed (S : Module → Prop) (e : Export) : Prop :=
  ∀ x, S x → x.name ∈ e.seen → ∀ y, x.Below y → y.name ∈ e.seen

/-- `x` is `m` or below it. -/
def From (m x : Module) : Prop := Relation.ReflTransGen Module.Imports m x

theorem From.below {x : Module} (h : From m x) (hr : root.Below m) : root.Below x :=
  Relation.TransGen.trans_left hr h

theorem From.eq_or {x : Module} (h : From m x) : x = m ∨ ∃ i ∈ m.imports, From i.2 x := by
  rcases Relation.ReflTransGen.cases_head h with rfl | ⟨y, ⟨i, hi, rfl⟩, h⟩
  · exact .inl rfl
  · exact .inr ⟨i, hi, h⟩

theorem below_iff {x : Module} : m.Below x ↔ ∃ i ∈ m.imports, From i.2 x := by
  constructor
  · intro h
    obtain ⟨y, ⟨i, hi, rfl⟩, h⟩ := Relation.TransGen.head'_iff.1 h
    exact ⟨i, hi, h⟩
  · rintro ⟨i, hi, h⟩
    exact Relation.TransGen.head' ⟨i, hi, rfl⟩ h

/-- A list of modules is walked through if each of them is. -/
theorem walked_imports (hu : root.Unambiguous) {ms : List (String × Module)}
    (hb : ∀ i ∈ ms, root.Below i.2)
    (hw : ∀ i ∈ ms, ∀ e : Export, e.Holds root → Closed (From i.2) e →
      Walked root (From i.2) e (addImported i.2 e))
    {e : Export} (he : e.Holds root) (hc : Closed (fun x => ∃ i ∈ ms, From i.2 x) e) :
    Walked root (fun x => ∃ i ∈ ms, From i.2 x) e (addImports ms e) := by
  induction ms with
  | nil => exact ⟨he, fun _ h => h, by simp, fun _ h => .inl h⟩
  | cons i ms ih =>
    have htail := ih (fun i hi => hb i (by simp [hi])) (fun i hi => hw i (by simp [hi]))
      fun x ⟨i, hi, hx⟩ => hc x ⟨i, by simp [hi], hx⟩
    have hbi := hb i (by simp)
    -- a name that the tail has seen is that of the same module
    have hclosed : Closed (From i.2) (addImports ms e) := by
      intro x hx hn y hy
      rcases htail.only x.name hn with hn | ⟨x', ⟨k, hk, hx'⟩, hname⟩
      · exact htail.kept _ (hc x ⟨i, by simp, hx⟩ hn y hy)
      · obtain rfl := hu x' x (hx'.below (hb k (by simp [hk]))) (hx.below hbi) hname
        exact htail.seen y ⟨k, hk, hx'.trans hy.to_reflTransGen⟩
    have hhead := hw i (by simp) _ htail.holds hclosed
    rw [addImports]
    refine ⟨hhead.holds, fun n hn => hhead.kept n (htail.kept n hn), ?_, ?_⟩
    · rintro x ⟨k, hk, hx⟩
      rcases List.mem_cons.1 hk with rfl | hk
      · exact hhead.seen x hx
      · exact hhead.kept _ (htail.seen x ⟨k, hk, hx⟩)
    · intro n hn
      rcases hhead.only n hn with hn | ⟨x, hx, rfl⟩
      · rcases htail.only n hn with hn | ⟨x, ⟨k, hk, hx⟩, rfl⟩
        · exact .inl hn
        · exact .inr ⟨x, ⟨k, by simp [hk], hx⟩, rfl⟩
      · exact .inr ⟨x, ⟨i, by simp, hx⟩, rfl⟩

theorem addImported_eq (m : Module) (e : Export) :
    addImported m e = if e.seen.contains m.name then e
      else addImports m.imports ⟨m.name :: e.seen, addModule (some m.name) m e.defs⟩ := by
  cases m
  rw [addImported]

theorem walked_imported (hr : root.Sound) (hu : root.Unambiguous) (m : Module) (hm : root.Below m)
    (e : Export) (he : e.Holds root) (hc : Closed (From m) e) :
    Walked root (From m) e (addImported m e) := by
  rw [addImported_eq]
  split
  · rename_i hn
    rw [List.contains_iff_mem] at hn
    refine ⟨he, fun _ h => h, fun x hx => ?_, fun _ h => .inl h⟩
    rcases hx.eq_or with rfl | hx
    · exact hn
    · exact hc m .refl hn x (below_iff.2 hx)
  · rename_i hn
    rw [List.contains_iff_mem] at hn
    have hbelow : ∀ i ∈ m.imports, root.Below i.2 := fun i hi => hm.tail ⟨i, hi, rfl⟩
    have hclosed : Closed (fun x => ∃ i ∈ m.imports, From i.2 x)
        ⟨m.name :: e.seen, addModule (some m.name) m e.defs⟩ := by
      intro x hx hn y hy
      have hmx := below_iff.2 hx
      rcases List.mem_cons.1 hn with hname | hn
      · -- a module is not below itself
        obtain rfl := hu x m (hm.trans hmx) hm hname
        exact absurd hmx.sizeOf_lt (lt_irrefl _)
      · exact List.mem_cons_of_mem _ (hc x hmx.to_reflTransGen hn y hy)
    have hw := walked_imports hu hbelow
      (fun i hi e he hc => walked_imported hr hu i.2 (hbelow i hi) e he hc)
      (he.add hr hm hn) hclosed
    refine ⟨hw.holds, fun n hn => hw.kept n (by simp [hn]), fun x hx => ?_, fun n hn => ?_⟩
    · rcases hx.eq_or with rfl | hx
      · exact hw.kept _ (by simp)
      · exact hw.seen x hx
    · rcases hw.only n hn with hn | ⟨x, hx, rfl⟩
      · rcases List.mem_cons.1 hn with rfl | hn
        · exact .inr ⟨m, .refl, rfl⟩
        · exact .inl hn
      · exact .inr ⟨x, (below_iff.2 hx).to_reflTransGen, rfl⟩
termination_by m
decreasing_by exact Module.Imports.sizeOf_lt ⟨i, hi, rfl⟩

/-- How a module is named in the definitions of `root`. -/
inductive Qualified (root : Module) : Option String → Module → Prop
  | own : Qualified root none root
  | below {m : Module} : root.Below m → Qualified root (some m.name) m

namespace Qualified

theorem sound (h : Qualified root w m) (hr : root.Sound) : m.Sound := by
  cases h with
  | own => exact hr
  | below h => exact hr.of_below h

theorem get?_definitions (h : Qualified root w m) (hr : root.Sound) (hu : root.Unambiguous)
    {d : String × Decl} (hd : d ∈ m.decls) :
    Fields.get? (definitions root) (localKey w d.1) = some (ofDecl w m d.2) := by
  have hstart : Export.Holds root ⟨[], addModule none root []⟩ :=
    ⟨fun d hd => get?_addModule hr.orderly (w := none) hd, by simp⟩
  have hw := walked_imports hu (fun i hi => .single ⟨i, hi, rfl⟩)
    (fun i hi e he hc => walked_imported hr hu i.2 (.single ⟨i, hi, rfl⟩) e he hc) hstart
    (fun _ _ hn => by simp at hn)
  cases h with
  | own => exact hw.holds.own d hd
  | below h =>
    obtain ⟨x, hx, hn, hdefs⟩ := hw.holds.imported m.name (hw.seen m (below_iff.1 h))
    obtain rfl := hu x m hx h hn
    exact hdefs d hd

/-- A reference made in `m` names what it points at as the definitions do. -/
theorem refKey_eq (h : Qualified root w m) (hr : root.Sound) {r : Ref} {owner : Module} {decl : Decl}
    (hd : m.resolve? r = some (owner, decl)) :
    ∃ w', Qualified root w' owner ∧ refKey w r = localKey w' r.name := by
  rcases Module.owner?_eq_some (Module.resolve?_eq_some hd).1 with ⟨hv, rfl⟩ | ⟨i, hv, hi⟩
  · exact ⟨w, h, by rw [refKey, hv]⟩
  · have hi' : i = owner.name := (h.sound hr).orderly.imported _ hi
    have hb : root.Below owner := by
      cases h with
      | own => exact .single ⟨_, hi, rfl⟩
      | below h => exact h.tail ⟨_, hi, rfl⟩
    exact ⟨some owner.name, .below hb, by rw [refKey, hv, hi']; rfl⟩

end Qualified

end Schema

end Wireform
