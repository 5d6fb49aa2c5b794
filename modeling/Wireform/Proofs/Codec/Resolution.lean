import Mathlib
import Wireform.Codec.Basic
import Wireform.Proofs.Codec.Writes
import Wireform.Proofs.Module.Closed

/-!
# No declaration is missing

Reading and writing report a reference that leads nowhere. From a type whose references lead somewhere
in a closed module they only come to such types again, so the report is never made. `Finds` is what
each step of a read or a write contributes. A read makes no other report either that has nothing to do
with its document (`readWithin_avoids`).
-/

namespace Wireform.Codec

/-- The result is none of the given errors. -/
def Avoids {ι α : Type} (bad : ι → CodecError) (x : Except CodecError α) : Prop :=
  ∀ i, x ≠ .error (bad i)

/-- The result is not the error that a declaration is missing. -/
abbrev Finds {α : Type} (x : Except CodecError α) : Prop := Avoids CodecError.unknownType x

namespace Avoids

variable {ι α β : Type} {bad : ι → CodecError}

theorem ok (a : α) : Avoids bad (.ok a) := by
  rintro i ⟨⟩

theorem error {e : CodecError} (h : ∀ i, e ≠ bad i) : Avoids bad (.error e : Except _ α) := by
  rintro i he
  exact h i (Except.error.inj he)

theorem bind {x : Except CodecError α} {f : α → Except CodecError β} (hx : Avoids bad x)
    (hf : ∀ a, x = .ok a → Avoids bad (f a)) : Avoids bad (x >>= f) := by
  cases x with
  | error e => exact fun i he => hx i (congrArg Except.error (Except.error.inj he))
  | ok a => exact hf a rfl

theorem mapM {f : α → Except CodecError β} {l : List α} (h : ∀ x ∈ l, Avoids bad (f x)) :
    Avoids bad (l.mapM f) := by
  induction l with
  | nil => exact .ok []
  | cons x l ih =>
    rw [List.mapM_cons]
    refine (h x (by simp)).bind fun y _ => ?_
    exact (ih fun x hx => h x (by simp [hx])).bind fun ys _ => .ok _

end Avoids

/-! ### Reading -/

/-- Errors that have nothing to do with the document at hand. -/
def Unrelated : CodecError → Prop
  | .depthLimit _ | .unknownType _ | .shortAllocation _ _ _ | .badCell _ _ _ _ | .notJson
  | .endlessAlias _ => True
  | _ => False

theorem unrelated_unknownType (path : String) : Unrelated (.unknownType path) := trivial

section

variable {ι : Type} {bad : ι → CodecError}

/-- The module has what the type refers to, if the errors say that it has not. -/
def Equipped (bad : ι → CodecError) (m : Module) (t : Ty) : Prop :=
  (∃ i path, bad i = .unknownType path) → m.Closed ∧ m.Grounds t

theorem Equipped.part {m : Module} {t u : Ty} (h : Equipped bad m t) (hu : u ∈ t.parts) :
    Equipped bad m u :=
  fun hbad => ⟨(h hbad).1, (h hbad).2.part hu⟩

/-- The reader avoids the errors at types that refer to what is there. -/
def ReaderAvoids (bad : ι → CodecError) (read : Reader) : Prop :=
  ∀ m t j, Equipped bad m t → Avoids bad (read m t j)

variable (hb : ∀ i, Unrelated (bad i))

include hb

theorem Avoids.related {α : Type} {e : CodecError} (h : ¬ Unrelated e) :
    Avoids bad (.error e : Except _ α) := by
  refine .error fun i he => h ?_
  rw [he]
  exact hb i

theorem readScalar_avoids (p : Prim) (j : Json) : Avoids bad (readScalar p j) := by
  unfold readScalar
  split
  · exact .ok _
  · exact .related hb id

theorem tagOf_avoids (j : Json) (context : String) : Avoids bad (tagOf j context) := by
  unfold tagOf
  split
  · split
    · exact .ok _
    · exact .related hb id
    · exact .related hb id
  · exact .related hb id

theorem expectTag_avoids (j : Json) (parent tag : String) : Avoids bad (expectTag j parent tag) := by
  refine (tagOf_avoids hb j tag).bind fun found _ => ?_
  split
  · exact .ok _
  · exact .related hb id

theorem expectRecord_avoids (j : Json) (context : String) (tagged : Bool) (names : List String) :
    Avoids bad (expectRecord j context tagged names) := by
  unfold expectRecord
  split
  · simp only
    split
    · exact .ok _
    · exact .related hb id
  · exact .related hb id

theorem field_avoids (props : Fields Json) (name : String) : Avoids bad (field props name) := by
  unfold field
  split
  · exact .ok _
  · exact .related hb id

theorem readFields_avoids {read : Ty → Json → Except CodecError Value} {fields : Fields Ty}
    (h : ∀ t ∈ fields.map Prod.snd, ∀ j, Avoids bad (read t j)) (context : String) (tagged : Bool)
    (j : Json) : Avoids bad (readFields read context fields tagged j) := by
  refine (expectRecord_avoids hb j context tagged _).bind fun props _ => ?_
  refine Avoids.bind (.mapM fun f hf => ?_) fun values _ => .ok _
  refine (field_avoids hb props f.1).bind fun doc _ => ?_
  exact (h f.2 (List.mem_map_of_mem hf) doc).bind fun v _ => .ok _

theorem readSum_avoids {read : Ty → Json → Except CodecError Value} {variants : List Variant}
    (h : ∀ t ∈ variants.flatMap fun v => v.2.map Prod.snd, ∀ j, Avoids bad (read t j)) (context : String)
    (j : Json) : Avoids bad (readSum read context variants j) := by
  refine (tagOf_avoids hb j context).bind fun tag _ => ?_
  split
  · rename_i fields hf
    refine Avoids.bind (readFields_avoids hb (fun t ht => h t ?_) tag true j) fun values _ => .ok _
    exact List.mem_flatMap.2 ⟨(tag, fields), Fields.mem_of_get? hf, ht⟩
  · exact .related hb id

/-- Writing a value in its own shape looks up nothing. -/
theorem encode_avoids (v : Value) : Avoids bad (encode v) := by
  induction v using Value.parts_induction with
  | step v ih =>
    have hfields : ∀ fs : List (String × Value), (∀ w ∈ fs.map Prod.snd, Avoids bad (encode w)) →
        Avoids bad (encodeFields fs) := by
      intro fs hfs
      rw [encodeFields_eq]
      exact .mapM fun f hf => (hfs f.2 (List.mem_map_of_mem hf)).bind fun j _ => .ok _
    cases v with
    | f64 x =>
      rw [encode, writeF64]
      split
      · exact .ok _
      · exact .related hb id
    | present v =>
      rw [encode]
      exact ih v (by simp [Value.parts])
    | list items =>
      rw [encode, encodeItems_eq]
      exact (Avoids.mapM ih).bind fun js _ => .ok _
    | map entries =>
      rw [encode, encodeEntries_eq]
      refine Avoids.bind (.mapM fun e he => ?_) fun js _ => .ok _
      refine (ih e.1 (List.mem_append_left _ (List.mem_map_of_mem he))).bind fun j _ => ?_
      exact (ih e.2 (List.mem_append_right _ (List.mem_map_of_mem he))).bind fun j _ => .ok _
    | object fields | record fields | variant _ fields =>
      rw [encode]
      exact (hfields fields ih).bind fun js _ => .ok _
    | _ =>
      rw [encode]
      exact .ok _

theorem readEntry_avoids {readKey readValue : Json → Except CodecError Value}
    (hk : ∀ j, Avoids bad (readKey j)) (hv : ∀ j, Avoids bad (readValue j)) (j : Json) :
    Avoids bad (readEntry readKey readValue j) := by
  refine (expectRecord_avoids hb j _ _ _).bind fun props _ => ?_
  refine (field_avoids hb props _).bind fun keyDoc _ => (hk keyDoc).bind fun key _ => ?_
  refine (field_avoids hb props _).bind fun valueDoc _ => (hv valueDoc).bind fun value _ => ?_
  exact (encode_avoids hb key).bind fun written _ => .ok _

variable {read : Reader} {m owner : Module} {t : Ty} {decl : Decl} {name : String}

theorem readDecl_avoids (hr : ReaderAvoids bad read)
    (hd : (∃ i path, bad i = .unknownType path) →
      m.Closed ∧ m.get? name = some decl ∧ ∀ u ∈ m.typesOf decl, m.Grounds u) (j : Json) :
    Avoids bad (readDecl read m name decl j) := by
  have hread : ∀ u ∈ m.typesOf decl, ∀ j, Avoids bad (read m u j) := fun u hu j =>
    hr m u j fun hbad => ⟨(hd hbad).1, (hd hbad).2.2 u hu⟩
  cases decl with
  | «alias» t => exact hread t (by simp [Module.typesOf]) j
  | struct fields => exact (readFields_avoids hb hread name false j).bind fun values _ => .ok _
  | sum variants => exact readSum_avoids hb hread name j
  | variant parent index =>
    rw [readDecl]
    split
    · rename_i tag fields hv
      have hfields : ∀ u ∈ fields.map Prod.snd, ∀ j, Avoids bad (read m u j) := by
        intro u hu
        exact hread u (by simpa [Module.typesOf, hv] using hu)
      refine (expectTag_avoids hb j parent tag).bind fun _ _ => ?_
      exact (readFields_avoids hb hfields tag true j).bind fun values _ => .ok _
    · rename_i hv
      refine .error fun i he => ?_
      obtain ⟨hm, hget, -⟩ := hd ⟨i, name, he.symm⟩
      obtain ⟨fields, hsome⟩ := hm.complete.variant?_isSome hget
      rw [hv] at hsome
      cases hsome
  | table spec => exact .related hb id

theorem enter_avoids (hr : ReaderAvoids bad read) (hm : Equipped bad m t) (j : Json) :
    Avoids bad (enter read m t j) := by
  have hread : ∀ u ∈ t.parts, ∀ j, Avoids bad (read m u j) := fun u hu j => hr m u j (hm.part hu)
  unfold enter
  split
  · exact (Avoids.mapM fun j _ => hread _ (by simp [Ty.parts]) j).bind fun vs _ => .ok _
  · refine Avoids.bind (.mapM fun p _ => ?_) fun vs _ => .ok _
    exact (hread _ (by simp [Ty.parts]) p.2).bind fun v _ => .ok _
  · refine Avoids.bind (.mapM fun j _ => ?_) fun entries _ => .ok _
    exact readEntry_avoids hb (hread _ (by simp [Ty.parts])) (hread _ (by simp [Ty.parts])) j
  · exact (readFields_avoids hb hread _ _ _).bind fun values _ => .ok _
  · exact readSum_avoids hb hread _ _
  · split
    · rename_i hres
      exact readDecl_avoids hb hr (fun hbad => (hm hbad).1.follow (hm hbad).2 hres) _
    · rename_i hres
      refine .error fun i he => ?_
      obtain ⟨owner, decl, -, -, h⟩ := (hm ⟨i, _, he.symm⟩).2 _ .refl
      rw [hres] at h
      cases h
  · exact .related hb id

theorem descend_avoids {deeper : Except CodecError Reader} (hd : Avoids bad deeper)
    (hr : ∀ read, deeper = .ok read → ReaderAvoids bad read) (hm : Equipped bad m t)
    (j : Json) : Avoids bad (descend deeper m t j) := by
  fun_induction descend deeper m t j with
  | case1 p j => exact readScalar_avoids hb p j
  | case2 doc t j ih => exact ih (hm.part (by simp [Ty.parts]))
  | case3 t => exact .ok _
  | case4 t j _ ih => exact (ih (hm.part (by simp [Ty.parts]))).bind fun v _ => .ok _
  | case5 t j => exact hd.bind fun read hread => enter_avoids hb (hr read hread) hm j

theorem readWithin_avoids {limit : Nat} (hl : ∀ i, .depthLimit limit ≠ bad i) (room : Nat) :
    ReaderAvoids bad (readWithin limit room) := by
  induction room with
  | zero => exact fun m t j hm => descend_avoids hb (.error hl) (by simp) hm j
  | succ room ih =>
    refine fun m t j hm => descend_avoids hb (.ok _) (fun read hread => ?_) hm j
    rw [← Except.ok.inj hread]
    exact ih

end

theorem readWithin_finds (limit room : Nat) (m : Module) (t : Ty) (j : Json) (hm : m.Closed)
    (hg : m.Grounds t) : Finds (readWithin limit room m t j) :=
  readWithin_avoids unrelated_unknownType (by simp) room m t j fun _ => ⟨hm, hg⟩

/-! ### Writing -/

variable {m owner : Module} {t : Ty}

theorem writeFields_finds {fields : Fields Ty} {values : Fields Value}
    (h : ∀ t ∈ fields.map Prod.snd, ∀ v ∈ values.map Prod.snd, Finds (writeAs v owner t))
    (tag : Option String) : Finds (writeFields owner fields (fieldWriters values) tag) := by
  unfold writeFields
  simp only
  split
  · exact .error (by simp)
  refine Avoids.bind (.mapM fun f hf => ?_) fun props _ => ?_
  · split
    · rename_i write hw
      rw [fieldWriters_get?] at hw
      obtain ⟨v, hv, rfl⟩ := Option.map_eq_some_iff.1 hw
      have hmem := List.mem_map_of_mem (f := Prod.snd) (Fields.mem_of_get? hv)
      exact (h f.2 (List.mem_map_of_mem hf) v hmem).bind fun j _ => .ok _
    · exact .error (by simp)
  · split <;> exact .ok _

theorem writeAs_finds (v : Value) (hs : m.Sound) (hm : m.Closed) (hg : m.Grounds t) :
    Finds (writeAs v m t) := by
  induction v using Value.parts_induction generalizing m t with
  | step v ih =>
    have he := hs.expose_grounded hm hg
    have hparts : ∀ u ∈ (m.expose t).head.types, ∀ w ∈ v.parts,
        Finds (writeAs w (m.expose t).owner u) :=
      fun u hu w hw => ih w hw he.sound he.closed (he.types u hu)
    rw [writeAs.eq_def]
    obtain ⟨owner, label, head, hexp⟩ : ∃ owner label head, m.expose t = ⟨owner, label, head⟩ :=
      ⟨_, _, _, rfl⟩
    rw [hexp] at he hparts
    simp only [hexp]
    split
    · split
      · exact encode_avoids unrelated_unknownType _
      · exact .error (by simp)
    · exact .ok _
    · exact hparts _ (by simp [Head.types]) _ (by simp [Value.parts])
    · rw [itemWriters_eq, mapM_map]
      refine Avoids.bind (.mapM fun w hw => ?_) fun js _ => .ok _
      exact hparts _ (by simp [Head.types]) w hw
    · rw [fieldWriters_eq, mapM_map]
      refine Avoids.bind (.mapM fun p hp => ?_) fun js _ => .ok _
      exact (hparts _ (by simp [Head.types]) p.2 (List.mem_map_of_mem hp)).bind fun j _ => .ok _
    · rw [entryWriters_eq, mapM_map]
      refine Avoids.bind (.mapM fun p hp => ?_) fun js _ => .ok _
      refine (hparts _ (by simp [Head.types]) p.1
        (List.mem_append_left _ (List.mem_map_of_mem hp))).bind fun j _ => ?_
      exact (hparts _ (by simp [Head.types]) p.2
        (List.mem_append_right _ (List.mem_map_of_mem hp))).bind fun j _ => .ok _
    · exact writeFields_finds hparts none
    · split
      · rename_i fields hf
        refine writeFields_finds (fun u hu => hparts u ?_) _
        exact List.mem_flatMap.2 ⟨_, Fields.mem_of_get? hf, hu⟩
      · exact .error (by simp)
    · split
      · exact writeFields_finds (fun u hu => hparts u (by simpa [Head.types] using hu)) _
      · exact .error (by simp)
    · exact absurd rfl (he.variant _)
    · exact .error (by simp)
    · exact absurd rfl (he.resolved _)
    · exact .error (by simp)
    · exact .error (by simp)

/-- A built module is closed and well-formed: its references lead to the declarations they name, its
declarations are proper, and exactly the tags of its sums are declared as tags. So nothing is missing
behind a type that is looked up, wherever it leads. -/
theorem references_resolve {m : Module} (hm : m.Built) :
    (∀ i ∈ m.imports, i.1 = i.2.name) ∧
    (∀ d ∈ m.decls, d.2.Proper ∧ ∀ t ∈ m.typesOf d.2, ∀ r, t.Within (.ref r) → m.Resolves r) ∧
    (∀ tag parent index, m.get? tag = some (.variant parent index) ↔
      ∃ variants fields, m.get? parent = some (.sum variants) ∧
        variants[index]? = some (tag, fields)) ∧
    ∀ path r, m.lookup? path = some r → ∀ n s, m.Reaches (.ref r) n s →
      (∀ q, s = .ref q → n.Resolves q) ∧
      (∀ maxDepth j missing, (⟨n, maxDepth⟩ : Codec).decode s j ≠ .error (.unknownType missing)) ∧
      (∀ maxDepth v missing, (⟨n, maxDepth⟩ : Codec).encodeAs s v ≠ .error (.unknownType missing)) ∧
      -- comparing goes by the shape of the type and on to the types in it
      (∀ missing, (n.expose s).head ≠ .unresolved missing) ∧
      (∀ parent, (n.expose s).head ≠ .tag parent none) ∧
      ∀ u ∈ (n.expose s).head.types, m.Reaches (.ref r) (n.expose s).owner u := by
  have hs := hm.sound
  have hc := hm.closed
  refine ⟨hs.orderly.imported, fun d hd => ⟨hs.orderly.proper d hd, fun t ht r hr => ?_⟩,
    fun _ _ _ => hs.get?_variant_iff hc, fun path r hr n s h => ?_⟩
  · have hget := hs.orderly.distinct.get?_eq_some hd
    exact (hc.complete.spelled_of_mem_typesOf hget ht).refs_of_within hr
  · have hg := Module.grounds_ref (Module.lookup?_resolves hr)
    obtain ⟨hcn, hgn⟩ := hc.of_reaches hg h
    have hsn := hs.of_reaches h
    have he := hsn.expose_grounded hcn hgn
    refine ⟨fun q hq => hgn q (hq ▸ .refl), ?_, ?_, he.resolved, he.variant, hsn.reaches_exposed h⟩
    · exact fun maxDepth j => readWithin_finds maxDepth maxDepth n s j hcn hgn
    · exact fun _ v => writeAs_finds v hsn hcn hgn

/-- From a path in the drawings two references lead to the end of a chain in the import. -/
theorem references_resolve_drawings :
    Module.drawings.lookup? "Path" = some ⟨none, "Path", 2⟩ ∧
    Module.drawings.Reaches (.ref ⟨none, "Path", 2⟩) Module.chain (.optional Ty.node) ∧
    ∀ maxDepth j missing, (⟨Module.chain, maxDepth⟩ : Codec).decode (.optional Ty.node) j ≠
      .error (.unknownType missing) := by
  have hl : Module.drawings.lookup? "Path" = some ⟨none, "Path", 2⟩ := by cbv
  have hpath : Module.drawings.resolve? ⟨none, "Path", 2⟩ =
    some (Module.drawings, .variant "Shape" 1) := by cbv
  have hnode : Module.drawings.resolve? ⟨some "records", "Node", 0⟩ =
    some (Module.chain, .struct [("value", .prim .i64), ("next", .optional Ty.node)]) := by cbv
  have hfirst : Ty.ref ⟨some "records", "Node", 0⟩ ∈ Module.drawings.typesOf (.variant "Shape" 1) := by
    simp [Module.typesOf, Module.variant?, Module.get?, Module.drawings, Fields.get?_cons]
  have hr : Module.drawings.Reaches (.ref ⟨none, "Path", 2⟩) Module.chain (.optional Ty.node) :=
    .follow (.follow .self hpath hfirst) hnode (by simp [Module.typesOf])
  obtain ⟨-, -, -, h⟩ := references_resolve Module.drawings_built
  exact ⟨hl, hr, (h "Path" _ hl _ _ hr).2.1⟩

end Wireform.Codec
