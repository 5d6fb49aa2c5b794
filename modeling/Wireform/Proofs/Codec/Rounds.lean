import Mathlib
import Wireform.Codec.Basic
import Wireform.Proofs.Codec.Writes
import Wireform.Proofs.Module.AliasCycle

/-!
# Writing and comparing, one reference at a time

To write a value at a reference to an alias is to write it at the body of the alias: nothing of the
value is used up, and nothing counts the references on the way. `round` is one step of this, for any
function that looks at a type and at the shape behind it. In a sound module enough rounds give a result
that no longer depends on what would come after them, so the recursion ends, and this result is the one
of `writeAs` and of `equalAs` (`Sound.exists_rounds`).
-/

namespace Wireform.Codec

/-! ### Rounds -/

section

variable {α β : Type}

/-- One round at a type: documentation and aliases are handed on with the value as it is, and all else
is left to `shape`, which may hand on parts of the value. -/
def round (shape : (Module → Ty → β → α) → Exposed → β → α) (next : Module → Ty → β → α)
    (m : Module) (t : Ty) (b : β) : α :=
  match t with
  | .annot _ t => next m t b
  | .ref r =>
    match m.resolve? r with
    | some (owner, .alias t) => next owner t b
    | some (owner, decl) => shape next (owner.exposeDecl r.name decl) b
    | none => shape next (m.exposeInline (.ref r)) b
  | t => shape next (m.exposeInline t) b

variable {shape : (Module → Ty → β → α) → Exposed → β → α} {next : Module → Ty → β → α}
  {m owner : Module} {t : Ty} {r : Ref}

theorem round_alias (hr : m.resolve? r = some (owner, .alias t)) (b : β) :
    round shape next m (.ref r) b = next owner t b := by
  simp only [round, hr]

theorem round_shape (ha : ∀ doc s, t ≠ .annot doc s)
    (hr : ∀ r owner s, t = .ref r → m.resolve? r ≠ some (owner, .alias s)) (b : β) :
    round shape next m t b = shape next (m.expose t) b := by
  cases t with
  | annot doc t => exact absurd rfl (ha doc t)
  | ref r =>
    cases hres : m.resolve? r with
    | none =>
      rw [Module.expose_unresolved hres]
      simp only [round, hres]
    | some found =>
      obtain ⟨owner, decl⟩ := found
      have hdecl : ∀ s, decl ≠ .alias s := fun s hs => hr r owner s rfl (hs ▸ hres)
      rw [Module.expose_decl hres hdecl]
      simp only [round, hres]
  | _ =>
    rw [Module.expose_inline m (by simp) (by simp)]
    rfl

end

theorem exists_common_bound {γ : Type} {P : ℕ → γ → Prop} (l : List γ)
    (h : ∀ x ∈ l, ∃ n, ∀ k ≥ n, P k x) : ∃ n, ∀ k ≥ n, ∀ x ∈ l, P k x := by
  induction l with
  | nil => exact ⟨0, by simp⟩
  | cons x l ih =>
    obtain ⟨hx, hl⟩ := List.forall_mem_cons.1 h
    obtain ⟨n, hn⟩ := hx
    obtain ⟨n', hn'⟩ := ih hl
    refine ⟨max n n', fun k hk => List.forall_mem_cons.2 ⟨hn k ?_, hn' k ?_⟩⟩ <;> omega

/-- A result that is that of its own round at every shape, from results at the parts of the value, is
what the rounds come to at every type, where aliases come to an end. -/
theorem exists_rounds {α β : Type} {shape : (Module → Ty → β → α) → Exposed → β → α}
    {result : Module → Ty → β → α} (parts : β → List β) (hparts : WellFounded fun c b => c ∈ parts b)
    (hresult : ∀ m t b, result m t b = shape result (m.expose t) b)
    (hshape : ∀ f g e b, (∀ t ∈ e.head.types, ∀ c ∈ parts b, f e.owner t c = g e.owner t c) →
      shape f e b = shape g e b)
    {m : Module} (hm : m.Ends) (t : Ty) (b : β) :
    ∃ n, ∀ k ≥ n, ∀ f, ((round shape)^[k] f) m t b = result m t b := by
  induction b using hparts.induction generalizing m t with
  | _ b ih =>
    -- One round more, on top of rounds that are enough for what is handed on.
    have hsucc : ∀ {m m' : Module} {t t' : Ty}, result m t b = result m' t' b →
        (∀ f, round shape f m t b = f m' t' b) →
        (∃ n, ∀ k ≥ n, ∀ f, ((round shape)^[k] f) m' t' b = result m' t' b) →
        ∃ n, ∀ k ≥ n, ∀ f, ((round shape)^[k] f) m t b = result m t b := by
      rintro m m' t t' hsame hround ⟨n, hn⟩
      refine ⟨n + 1, fun k hk f => ?_⟩
      obtain ⟨k, rfl⟩ := Nat.exists_eq_add_of_le' (show 1 ≤ k by omega)
      rw [Function.iterate_succ_apply', hround, hsame]
      exact hn k (by omega) f
    refine hm.shape_induction (P := fun m t =>
      ∃ n, ∀ k ≥ n, ∀ f, ((round shape)^[k] f) m t b = result m t b) ?_ ?_ ?_ t
    · intro m doc t iht
      refine hsucc ?_ (fun f => rfl) iht
      rw [hresult m, hresult m, Module.expose_annot]
    · intro m r owner t hm hr iht
      refine hsucc ?_ (fun f => round_alias hr b) iht
      rw [hresult m, hresult owner, hm.expose_alias hr]
    · intro m t hm ha hr
      have hpart : ∀ p ∈ (m.expose t).head.types.product (parts b), ∃ n, ∀ k ≥ n, ∀ f,
          ((round shape)^[k] f) (m.expose t).owner p.1 p.2 = result (m.expose t).owner p.1 p.2 := by
        rintro ⟨s, c⟩ hp
        exact ih c (List.mem_product.1 hp).2 (hm.expose_owner t) s
      obtain ⟨n, hn⟩ := exists_common_bound _ hpart
      refine ⟨n + 1, fun k hk f => ?_⟩
      obtain ⟨k, rfl⟩ := Nat.exists_eq_add_of_le' (show 1 ≤ k by omega)
      rw [Function.iterate_succ_apply', round_shape ha hr, hresult m]
      refine hshape _ _ _ _ fun s hs c hc => ?_
      exact hn k (by omega) (s, c) (List.mem_product.2 ⟨hs, hc⟩) f

/-! ### Writing -/

/-- The document of a value at a shape, its parts written with `write`. -/
def writeShape (write : Module → Ty → Value → Except CodecError Json) (e : Exposed) (value : Value) :
    Except CodecError Json :=
  let writers (values : Fields Value) : Fields Writer := values.map fun (k, v) => (k, (write · · v))
  match e.head, value with
  | .prim p, v => if p.admits v then encode v else .error (.valueMismatch e.label.text v.kind)
  | .optional _, .absent => .ok .null
  | .optional t, .present v => write e.owner t v
  | .list t, .list items => return .arr (← items.mapM (write e.owner t))
  | .object t, .object props =>
    return .obj (← props.mapM fun (k, v) => return (k, ← write e.owner t v))
  | .map k v, .map entries =>
    return .arr (← entries.mapM fun (x, y) =>
      return mapEntry (← write e.owner k x) (← write e.owner v y))
  | .record fields, .record values => writeFields e.owner fields (writers values) none
  | .sum variants, .variant tag values =>
    match Fields.get? variants tag with
    | some fields => writeFields e.owner fields (writers values) (some tag)
    | none => .error (.unknownTag e.label.text tag)
  | .tag parent (some (declared, fields)), .variant tag values =>
    if declared = tag then writeFields e.owner fields (writers values) (some tag)
    else .error (.unknownTag parent tag)
  | .tag _ none, .variant _ _ => .error (.unknownType e.label.text)
  | .table, _ => .error (.tableType e.label.text)
  | .unresolved path, _ => .error (.unknownType path)
  | .endless, _ => .error (.endlessAlias e.label.text)
  | _, v => .error (.valueMismatch e.label.text v.kind)

theorem writeAs_eq_writeShape (m : Module) (t : Ty) (v : Value) :
    writeAs v m t = writeShape (fun m t v => writeAs v m t) (m.expose t) v := by
  conv_lhs => unfold writeAs
  generalize m.expose t = e
  obtain ⟨owner, label, head⟩ := e
  simp only [itemWriters_eq, fieldWriters_eq, entryWriters_eq, mapM_map]
  cases head <;> cases v <;> rfl

theorem writeParts_congr {f g : Module → Ty → Value → Except CodecError Json} {owner : Module}
    {fields : Fields Ty} {values : Fields Value}
    (h : ∀ x ∈ fields, ∀ y ∈ values, f owner x.2 y.2 = g owner x.2 y.2) (tag : Option String) :
    writeFields owner fields (values.map fun (k, v) => (k, (f · · v))) tag =
      writeFields owner fields (values.map fun (k, v) => (k, (g · · v))) tag := by
  refine writeFields_congr (by simp) (fun x hx => ?_) tag
  rw [Fields.get?_map fun y m t => f m t y.2, Fields.get?_map fun y m t => g m t y.2]
  cases hy : Fields.get? values x.1 with
  | none => rfl
  | some y => exact congrArg some (h x hx _ (Fields.mem_of_get? hy))

theorem writeShape_congr {f g : Module → Ty → Value → Except CodecError Json} (e : Exposed) (v : Value)
    (h : ∀ t ∈ e.head.types, ∀ w ∈ v.parts, f e.owner t w = g e.owner t w) :
    writeShape f e v = writeShape g e v := by
  obtain ⟨owner, label, head⟩ := e
  cases head with
  | optional t =>
    cases v with
    | present v => exact h t (by simp [Head.types]) v (by simp [Value.parts])
    | _ => rfl
  | list t =>
    cases v with
    | list items =>
      have hitems : items.mapM (f owner t) = items.mapM (g owner t) :=
        mapM_congr fun v hv => h t (by simp [Head.types]) v hv
      simp only [writeShape, hitems]
    | _ => rfl
  | object t =>
    cases v with
    | object props =>
      simp only [writeShape]
      rw [mapM_congr fun p hp => ?_]
      rw [h t (by simp [Head.types]) p.2 (List.mem_map_of_mem hp)]
    | _ => rfl
  | map k t =>
    cases v with
    | map entries =>
      simp only [writeShape]
      rw [mapM_congr fun p hp => ?_]
      rw [h k (by simp [Head.types]) p.1 (List.mem_append_left _ (List.mem_map_of_mem hp)),
        h t (by simp [Head.types]) p.2 (List.mem_append_right _ (List.mem_map_of_mem hp))]
    | _ => rfl
  | record fields =>
    cases v with
    | record values =>
      refine writeParts_congr (fun x hx y hy => ?_) none
      exact h x.2 (List.mem_map_of_mem hx) y.2 (List.mem_map_of_mem hy)
    | _ => rfl
  | sum variants =>
    cases v with
    | variant tag values =>
      simp only [writeShape]
      cases hg : Fields.get? variants tag with
      | none => rfl
      | some fields =>
        refine writeParts_congr (fun x hx y hy => h x.2 ?_ y.2 (List.mem_map_of_mem hy)) (some tag)
        exact List.mem_flatMap.2 ⟨_, Fields.mem_of_get? hg, List.mem_map_of_mem hx⟩
    | _ => rfl
  | tag parent found =>
    cases found with
    | none => cases v <;> rfl
    | some found =>
      cases v with
      | variant tag values =>
        have hfields : ∀ x ∈ found.2, ∀ y ∈ values, f owner x.2 y.2 = g owner x.2 y.2 := fun x hx y hy =>
          h x.2 (by simpa [Head.types] using ⟨x.1, hx⟩) y.2 (List.mem_map_of_mem hy)
        simp only [writeShape]
        rw [writeParts_congr hfields]
      | _ => rfl
  | _ => cases v <;> rfl

/-! ### Comparing -/

/-- Whether two values are equal at a shape, their parts compared with `test`. -/
def equalShape (test : Module → Ty → Value × Value → Bool) (e : Exposed) (pair : Value × Value) : Bool :=
  let tester (x : Value) : Tester := fun m t y => test m t (x, y)
  let testers (xs : Fields Value) : Fields Tester := xs.map fun f => (f.1, tester f.2)
  match e.head, pair.1, pair.2 with
  | .prim p, a, b => p.admits a && a.same b
  | .optional _, .absent, .absent => true
  | .optional t, .present x, .present y => test e.owner t (x, y)
  | .list t, .list xs, .list ys =>
    xs.length == ys.length && ((xs.map tester).zip ys).all fun (test, y) => test e.owner t y
  | .object t, .object xs, .object ys =>
    xs.length == ys.length && (testers xs).all fun (k, test) =>
      match Fields.get? ys k with
      | some y => test e.owner t y
      | none => false
  | .map k v, .map xs, .map ys =>
    xs.length == ys.length && ((xs.map fun x => (tester x.1, tester x.2)).zip ys).all
      fun (test, y) => test.1 e.owner k y.1 && test.2 e.owner v y.2
  | .record fields, .record xs, .record ys => equalFields e.owner fields (testers xs) ys
  | .sum variants, .variant s xs, .variant t ys =>
    s == t && match Fields.get? variants s with
      | some fields => equalFields e.owner fields (testers xs) ys
      | none => false
  | .tag _ (some (tag, fields)), .variant s xs, .variant t ys =>
    s == t && tag == s && equalFields e.owner fields (testers xs) ys
  | _, _, _ => false

theorem equalAs_eq_equalShape (m : Module) (t : Ty) (p : Value × Value) :
    equalAs p.1 m t p.2 = equalShape (fun m t p => equalAs p.1 m t p.2) (m.expose t) p := by
  conv_lhs => unfold equalAs
  simp only [itemTesters_eq, fieldTesters_eq, entryTesters_eq]
  rfl

/-- The pairs of a part of the one and a part of the other. -/
def pairParts (p : Value × Value) : List (Value × Value) := p.1.parts.product p.2.parts

theorem mem_pairParts {a b x y : Value} (hx : x ∈ a.parts) (hy : y ∈ b.parts) :
    (x, y) ∈ pairParts (a, b) := List.mem_product.2 ⟨hx, hy⟩

theorem pairParts_wellFounded : WellFounded fun p q : Value × Value => p ∈ pairParts q := by
  refine Subrelation.wf (fun {p q} h => ?_) (measure fun p : Value × Value => sizeOf p.1).wf
  exact Value.sizeOf_lt_of_mem_parts (List.mem_product.1 h).1

theorem all_congr_of_mem {α : Type} {l : List α} {p q : α → Bool} (h : ∀ x ∈ l, p x = q x) :
    l.all p = l.all q := by
  rw [Bool.eq_iff_iff, List.all_eq_true, List.all_eq_true]
  exact forall₂_congr fun x hx => by rw [h x hx]

/-- What comes out for fields is decided by what comes out at the types of the fields. -/
theorem equalFields_congr {f g : Module → Ty → Value × Value → Bool} {owner : Module}
    {fields : Fields Ty} {xs ys : Fields Value}
    (h : ∀ z ∈ fields, ∀ x ∈ xs, ∀ y ∈ ys, f owner z.2 (x.2, y.2) = g owner z.2 (x.2, y.2)) :
    equalFields owner fields (xs.map fun x => (x.1, fun m t y => f m t (x.2, y))) ys =
      equalFields owner fields (xs.map fun x => (x.1, fun m t y => g m t (x.2, y))) ys := by
  simp only [equalFields, List.length_map]
  congr 1
  refine all_congr_of_mem fun z hz => ?_
  rw [Fields.get?_map fun x m t y => f m t (x.2, y), Fields.get?_map fun x m t y => g m t (x.2, y)]
  cases hx : Fields.get? xs z.1 with
  | none => rfl
  | some x =>
    cases hy : Fields.get? ys z.1 with
    | none => rfl
    | some y => exact h z hz _ (Fields.mem_of_get? hx) _ (Fields.mem_of_get? hy)

theorem equalShape_congr {f g : Module → Ty → Value × Value → Bool} (e : Exposed) (p : Value × Value)
    (h : ∀ t ∈ e.head.types, ∀ q ∈ pairParts p, f e.owner t q = g e.owner t q) :
    equalShape f e p = equalShape g e p := by
  obtain ⟨owner, label, head⟩ := e
  obtain ⟨a, b⟩ := p
  cases head with
  | optional t =>
    cases a with
    | present x =>
      cases b with
      | present y =>
        exact h t (by simp [Head.types]) _
          (mem_pairParts (by simp [Value.parts]) (by simp [Value.parts]))
      | _ => rfl
    | absent => cases b <;> rfl
    | _ => rfl
  | list t =>
    cases a with
    | list xs =>
      cases b with
      | list ys =>
        simp only [equalShape, List.zip_map_left, List.all_map]
        congr 1
        refine all_congr_of_mem fun q hq => ?_
        obtain ⟨hx, hy⟩ := List.of_mem_zip hq
        exact h t (by simp [Head.types]) _ (mem_pairParts hx hy)
      | _ => rfl
    | _ => rfl
  | object t =>
    cases a with
    | object xs =>
      cases b with
      | object ys =>
        simp only [equalShape, List.all_map]
        congr 1
        refine all_congr_of_mem fun x hx => ?_
        simp only [Function.comp_apply]
        cases hy : Fields.get? ys x.1 with
        | none => rfl
        | some y =>
          exact h t (by simp [Head.types]) _ (mem_pairParts (List.mem_map_of_mem hx)
            (List.mem_map_of_mem (Fields.mem_of_get? hy)))
      | _ => rfl
    | _ => rfl
  | map k t =>
    cases a with
    | map xs =>
      cases b with
      | map ys =>
        simp only [equalShape, List.zip_map_left, List.all_map]
        congr 1
        refine all_congr_of_mem fun q hq => ?_
        obtain ⟨hx, hy⟩ := List.of_mem_zip hq
        have hk := h k (by simp [Head.types]) _ (mem_pairParts (b := .map ys)
          (List.mem_append_left _ (List.mem_map_of_mem hx))
          (List.mem_append_left _ (List.mem_map_of_mem hy)))
        have ht := h t (by simp [Head.types]) _ (mem_pairParts (b := .map ys)
          (List.mem_append_right _ (List.mem_map_of_mem hx))
          (List.mem_append_right _ (List.mem_map_of_mem hy)))
        exact congrArg₂ and hk ht
      | _ => rfl
    | _ => rfl
  | record fields =>
    cases a with
    | record xs =>
      cases b with
      | record ys =>
        refine equalFields_congr fun z hz x hx y hy => ?_
        exact h z.2 (List.mem_map_of_mem hz) _
          (mem_pairParts (List.mem_map_of_mem hx) (List.mem_map_of_mem hy))
      | _ => rfl
    | _ => rfl
  | sum variants =>
    cases a with
    | variant s xs =>
      cases b with
      | variant s' ys =>
        simp only [equalShape]
        cases hg : Fields.get? variants s with
        | none => rfl
        | some fields =>
          refine congrArg _ (equalFields_congr fun z hz x hx y hy => h z.2 ?_ _
            (mem_pairParts (List.mem_map_of_mem hx) (List.mem_map_of_mem hy)))
          exact List.mem_flatMap.2 ⟨_, Fields.mem_of_get? hg, List.mem_map_of_mem hz⟩
      | _ => rfl
    | _ => rfl
  | tag parent found =>
    cases found with
    | none => rfl
    | some found =>
      cases a with
      | variant s xs =>
        cases b with
        | variant s' ys =>
          simp only [equalShape]
          refine congrArg _ (equalFields_congr fun z hz x hx y hy => h z.2 ?_ _
            (mem_pairParts (List.mem_map_of_mem hx) (List.mem_map_of_mem hy)))
          simpa [Head.types] using ⟨z.1, hz⟩
        | _ => rfl
      | _ => rfl
  | _ => rfl

/-! ### Drafts and their modules -/

/-- A draft without open slots is refused for a cycle of aliases exactly if a chain of them has no end.
Otherwise it becomes a module in which writing and comparing end at every type and every value: from
some number of rounds on, nothing that might follow has a part in the result. -/
theorem finish_exact_and_total {d : Draft} (hd : d.Staged) (hs : ∀ s ∈ d.slots, s.2.isSome) :
    ((∃ name, d.finish = .error (.aliasCycle name)) ↔ d.Cyclic) ∧
      (¬ d.Cyclic → ∃ m, d.finish = .ok m) ∧
      ∀ m, d.finish = .ok m → ∀ (c : Codec) (t : Ty), c.scope = m →
        (∀ v, ∃ n, ∀ k ≥ n, ∀ write, ((round writeShape)^[k] write) m t v = c.encodeAs t v) ∧
        ∀ a b, ∃ n, ∀ k ≥ n, ∀ test, ((round equalShape)^[k] test) m t (a, b) = c.equals t a b := by
  refine ⟨?_, ?_, ?_⟩
  · rcases hd.finish_cases hs with ⟨hc, hf⟩ | ⟨hc, m, hf⟩
    · exact iff_of_true hf hc
    · refine iff_of_false (fun ⟨name, he⟩ => ?_) hc
      rw [hf] at he
      cases he
  · intro hc
    exact ((hd.finish_cases hs).resolve_left fun h => hc h.1).2
  · rintro m hf c t rfl
    have hm : c.scope.Ends := hd.traced.finish hf
    refine ⟨fun v => ?_, fun a b => ?_⟩
    · refine exists_rounds Value.parts ?_ writeAs_eq_writeShape (fun _ _ => writeShape_congr) hm t v
      exact Subrelation.wf Value.sizeOf_lt_of_mem_parts (measure sizeOf).wf
    · exact exists_rounds pairParts pairParts_wellFounded equalAs_eq_equalShape
        (fun _ _ => equalShape_congr) hm t (a, b)

/-- Boxes of boxes, and another name for them. -/
def boxes : Module :=
  ⟨"boxes", [], [("Box", .alias (.list (.ref ⟨none, "Box", 0⟩))),
    ("Crate", .alias (.annot "a box" (.ref ⟨none, "Box", 0⟩)))]⟩

/-- A name that stands for itself. -/
def loop : Draft := ⟨"loop", [], [("Loop", some (.alias (.annot "again" (.ref ⟨none, "Loop", 0⟩))))]⟩

set_option maxRecDepth 4000 in
theorem boxes_grown : (boxes.draft 2).Grown := by
  have box : (boxes.draft 0).declare "alias Box = List(Box)" = .ok ("Box", boxes.draft 1) := by cbv
  have crate : (boxes.draft 1).declare "alias Crate = Annot(\"a box\", Box)" =
      .ok ("Crate", boxes.draft 2) := by cbv
  exact ((Draft.Grown.new "boxes").declare box).declare crate

set_option maxRecDepth 4000 in
theorem loop_grown : loop.Grown := by
  have again : (Draft.new "loop").declare "alias Loop = Annot(\"again\", Loop)" = .ok ("Loop", loop) := by
    cbv
  exact (Draft.Grown.new "loop").declare again

theorem finish_exact_and_total_boxes :
    (loop.finish = .error (.aliasCycle "Loop") ∧ loop.Cyclic) ∧
      (boxes.draft 2).finish = .ok boxes ∧
      ∃ n, ∀ k ≥ n, ∀ write, ((round writeShape)^[k] write) boxes (.ref ⟨none, "Crate", 1⟩)
        (.list [.list []]) = .ok (.arr [.arr []]) := by
  have hloop : loop.finish = .error (.aliasCycle "Loop") := by cbv
  have hboxes : (boxes.draft 2).finish = .ok boxes := by cbv
  refine ⟨⟨hloop, ?_⟩, hboxes, ?_⟩
  · exact (finish_exact_and_total loop_grown.staged (by decide)).1.1 ⟨_, hloop⟩
  · have hwrite : (⟨boxes, 0⟩ : Codec).encodeAs (.ref ⟨none, "Crate", 1⟩) (.list [.list []]) =
        .ok (.arr [.arr []]) := by cbv
    rw [← hwrite]
    exact ((finish_exact_and_total boxes_grown.staged (by decide)).2.2 boxes hboxes ⟨boxes, 0⟩ _
      rfl).1 _

end Wireform.Codec
