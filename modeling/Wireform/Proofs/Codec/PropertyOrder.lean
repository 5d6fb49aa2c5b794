import Mathlib
import Wireform.Proofs.Codec.Inhabits

/-!
# The order of properties

A document says the same in whatever order its objects list their properties. If two documents differ
only in that, both are read or neither is (`Reads.shuffled`), and the two values are equal. As keys of
a map they have one identity, so it makes no difference to the entries that are collected either.
-/

namespace Wireform

/-! ### Documents up to the order of properties -/

namespace Json

/-- The documents differ at most in the order of the properties of objects, at whatever depth. -/
inductive Shuffled : Json → Json → Prop
  | refl (j : Json) : Shuffled j j
  | arr (parts : List (Json × Json)) : (∀ p ∈ parts, Shuffled p.1 p.2) →
    Shuffled (.arr (parts.map Prod.fst)) (.arr (parts.map Prod.snd))
  | obj {parts parts' : List (String × Json × Json)} : (∀ p ∈ parts, Shuffled p.2.1 p.2.2) →
    parts.Perm parts' →
      Shuffled (.obj (parts.map fun p => (p.1, p.2.1))) (.obj (parts'.map fun p => (p.1, p.2.2)))

/-- The same names in some order, and under each name documents of which the same holds. -/
structure ShuffledProps (props props' : Fields Json) : Prop where
  names : (Fields.keys props).Perm (Fields.keys props')
  docs : ∀ {k : String} {i : Json}, Fields.get? props k = some i →
    ∃ i', Fields.get? props' k = some i' ∧ i.Shuffled i'

namespace Shuffled

variable {j j' : Json}

theorem symm (h : j.Shuffled j') : j'.Shuffled j := by
  induction h with
  | refl j => exact .refl j
  | arr parts _ ih =>
    have hs := Shuffled.arr (parts.map Prod.swap) (List.forall_mem_map.2 ih)
    simpa [Function.comp_def] using hs
  | @obj parts parts' _ hp ih =>
    have hs := Shuffled.obj (List.forall_mem_map.2 fun p hm => ih p (hp.mem_iff.2 hm))
      (hp.symm.map fun p => (p.1, p.2.2, p.2.1))
    simpa [Function.comp_def] using hs

theorem keys_perm {parts parts' : List (String × Json × Json)} (hp : parts.Perm parts') :
    (Fields.keys (parts.map fun p => (p.1, p.2.1))).Perm
      (Fields.keys (parts'.map fun p => (p.1, p.2.2))) := by
  simpa [Fields.keys, Function.comp_def] using hp.map Prod.fst

theorem wellFormed (h : j.Shuffled j') (hj : j.WellFormed) : j'.WellFormed := by
  induction h with
  | refl j => exact hj
  | arr parts _ ih =>
    rw [wellFormed_arr, List.forall_mem_map] at hj ⊢
    exact fun p hm => ih p hm (hj p hm)
  | obj _ hp ih =>
    rw [wellFormed_obj, List.forall_mem_map] at hj ⊢
    refine ⟨(keys_perm hp).nodup_iff.1 hj.1, fun p hm => ?_⟩
    have hm := hp.mem_iff.2 hm
    exact ih p hm (hj.2 p hm)

theorem of_arr {items : List Json} (h : (Json.arr items).Shuffled j') :
    ∃ items', j' = .arr items' ∧ List.Forall₂ Shuffled items items' := by
  cases h with
  | refl => exact ⟨items, rfl, List.forall₂_same.2 fun i _ => .refl i⟩
  | arr parts h =>
    refine ⟨_, rfl, ?_⟩
    rw [List.forall₂_map_left_iff, List.forall₂_map_right_iff, List.forall₂_same]
    exact h

theorem of_obj {props : Fields Json} (h : (Json.obj props).Shuffled j')
    (hd : Fields.Distinct props) : ∃ props', j' = .obj props' ∧ ShuffledProps props props' := by
  cases h with
  | refl => exact ⟨props, rfl, .refl _, fun {k i} hi => ⟨i, hi, .refl i⟩⟩
  | @obj parts parts' h hp =>
    refine ⟨_, rfl, keys_perm hp, fun {k i} hi => ?_⟩
    obtain ⟨p, hm, he⟩ := List.mem_map.1 (Fields.mem_of_get? hi)
    obtain ⟨rfl, rfl⟩ := Prod.mk.inj he
    have hd' : Fields.Distinct (parts'.map fun p => (p.1, p.2.2)) := (keys_perm hp).nodup_iff.1 hd
    exact ⟨p.2.2, hd'.get?_eq_some (List.mem_map_of_mem (hp.mem_iff.1 hm)), h p hm⟩

/-- Only lists and objects have something to put in another order. -/
theorem eq_of_plain (h : j.Shuffled j') (ha : ∀ items, j ≠ .arr items) (ho : ∀ props, j ≠ .obj props) :
    j' = j := by
  cases h with
  | refl => rfl
  | arr parts _ => exact absurd rfl (ha _)
  | obj _ _ => exact absurd rfl (ho _)

end Shuffled

namespace ShuffledProps

variable {props props' : Fields Json}

theorem distinct (h : ShuffledProps props props') (hd : Fields.Distinct props) :
    Fields.Distinct props' :=
  h.names.nodup_iff.1 hd

/-- There is a document for each of the second as well. -/
theorem exists_doc (h : ShuffledProps props props') {k : String} {i' : Json}
    (hi : Fields.get? props' k = some i') : ∃ i, Fields.get? props k = some i ∧ i.Shuffled i' := by
  have hk := h.names.mem_iff.2 (Fields.mem_keys_of_mem (Fields.mem_of_get? hi))
  obtain ⟨i, hg⟩ := Fields.exists_get?_of_mem_keys hk
  obtain ⟨x, hx, hs⟩ := h.docs hg
  rw [hi, Option.some.injEq] at hx
  exact ⟨i, hg, hx ▸ hs⟩

theorem hasNames (h : ShuffledProps props props') {names : List String}
    (hn : Codec.hasNames props names = true) : Codec.hasNames props' names = true := by
  rw [Codec.hasNames, Bool.and_eq_true, beq_iff_eq, List.all_eq_true] at hn ⊢
  refine ⟨?_, fun k hk => Fields.contains_iff.2 (h.names.mem_iff.1 (Fields.contains_iff.1 (hn.2 k hk)))⟩
  rw [← hn.1, ← Fields.length_keys props, ← Fields.length_keys props', h.names.length_eq]

end ShuffledProps

end Json

/-! ### Entries that are collected in step -/

namespace Fields

variable {α β : Type} {R : α → β → Prop} {xs : Fields α} {ys : Fields β}

/-- The same names in the same order, with related things under them. -/
def InStep (R : α → β → Prop) (xs : Fields α) (ys : Fields β) : Prop :=
  List.Forall₂ (fun x y => x.1 = y.1 ∧ R x.2 y.2) xs ys

theorem InStep.get? (h : InStep R xs ys) (k : String) :
    Option.Rel R (Fields.get? xs k) (Fields.get? ys k) := by
  induction h with
  | nil => exact .none
  | @cons x y xs ys hxy _ ih =>
    rw [get?_cons, get?_cons, hxy.1]
    split
    · exact .some hxy.2
    · exact ih

theorem InStep.insert (h : InStep R xs ys) (k : String) {a : α} {b : β} (hab : R a b) :
    InStep R (Fields.insert k a xs) (Fields.insert k b ys) := by
  induction h with
  | nil => exact .cons ⟨rfl, hab⟩ .nil
  | @cons x y xs ys hxy hs ih =>
    rw [Fields.insert, Fields.insert, hxy.1]
    split
    · exact .cons ⟨rfl, hab⟩ hs
    · exact .cons ⟨rfl, hxy.2⟩ ih

end Fields

/-- The keys are equal and the values are. -/
def SameEntry (e e' : Value × Value) : Prop := e.1.same e'.1 = true ∧ e.2.same e'.2 = true

theorem IdentityMap.inStep_insert {m m' : IdentityMap Value Value} {e e' : Value × Value}
    (h : Fields.InStep SameEntry m.slots m'.slots) (i : String) (he : SameEntry e e') :
    Fields.InStep SameEntry (m.insert i e.1 e.2).slots (m'.insert i e'.1 e'.2).slots := by
  have hget := h.get? i
  unfold insert
  cases hg : Fields.get? m.slots i <;> cases hg' : Fields.get? m'.slots i <;> rw [hg, hg'] at hget
  case none.none => exact List.rel_append h (.cons ⟨rfl, he⟩ .nil)
  case some.some old old' =>
    cases hget with
    | some hold => exact h.insert i ⟨hold.1, he.2⟩
  all_goals cases hget

namespace Codec

theorem inStep_collect {m m' : IdentityMap Value Value} {entries entries' : Fields (Value × Value)}
    (h : Fields.InStep SameEntry m.slots m'.slots) (he : Fields.InStep SameEntry entries entries') :
    Fields.InStep SameEntry (collect m entries).slots (collect m' entries').slots := by
  induction he generalizing m m' with
  | nil => exact h
  | @cons e e' entries entries' hee _ ih =>
    have hi := IdentityMap.inStep_insert h e.1 hee.2
    rw [collect, collect, List.foldl_cons, List.foldl_cons, ← hee.1]
    exact ih hi

/-- Entries that are equal, under the same identities, are collected to maps that are equal. -/
theorem same_collectEntries {entries entries' : Fields (Value × Value)}
    (h : Fields.InStep SameEntry entries entries') :
    (Value.map (collectEntries entries)).same (.map (collectEntries entries')) = true := by
  have hc : Fields.InStep SameEntry (collect .empty entries).slots (collect .empty entries').slots :=
    inStep_collect .nil h
  have hs : List.Forall₂ SameEntry (collectEntries entries) (collectEntries entries') := by
    rw [collectEntries_eq, collectEntries_eq, List.forall₂_map_left_iff, List.forall₂_map_right_iff]
    exact List.Forall₂.imp (fun _ _ he => he.2) hc
  obtain ⟨hl, hs⟩ := List.forall₂_iff_zip.1 hs
  rw [Value.same, Value.sameEntries_iff]
  exact ⟨hl, fun p hp => hs hp⟩

/-! ### Reading -/

variable {room : Nat} {m : Module} {t : Ty} {j j' : Json} {v : Value}

/-- What there is for every pair of two lists, in order. -/
theorem exists_forall₂ {α β γ : Type} {R : α → β → Prop} {P : γ → Prop} {S : α → γ → Prop} {f : γ → β}
    {xs : List α} {ys : List β} (h : List.Forall₂ R xs ys)
    (hex : ∀ x ∈ xs, ∀ y, R x y → ∃ z, f z = y ∧ P z ∧ S x z) :
    ∃ zs, zs.map f = ys ∧ (∀ z ∈ zs, P z) ∧ List.Forall₂ S xs zs := by
  induction h with
  | nil => exact ⟨[], rfl, by simp, .nil⟩
  | @cons x y xs ys hxy _ ih =>
    obtain ⟨z, rfl, hz, hs⟩ := hex x (by simp) y hxy
    obtain ⟨zs, rfl, hzs, hss⟩ := ih fun x hx => hex x (by simp [hx])
    exact ⟨z :: zs, rfl, List.forall_mem_cons.2 ⟨hz, hzs⟩, .cons hs hss⟩

theorem readScalar?_arr (p : Prim) (items : List Json) : readScalar? p (.arr items) = none := by
  cases p <;> rfl

theorem readScalar?_obj (p : Prim) (props : Fields Json) : readScalar? p (.obj props) = none := by
  cases p <;> rfl

/-- The document is read as a value that the given one is equal to. -/
def ReadsSame (room : Nat) (m : Module) (t : Ty) (j : Json) (v : Value) : Prop :=
  ∃ v', Reads room m t j v' ∧ v.same v' = true

theorem readsSame_list {parts : List (Json × Value)}
    (ih : ∀ p ∈ parts, ∀ j', p.1.Shuffled j' → ReadsSame room m t j' p.2)
    (hs : (Json.arr (parts.map Prod.fst)).Shuffled j') :
    ReadsSame (room + 1) m (.list t) j' (.list (parts.map Prod.snd)) := by
  obtain ⟨items, rfl, hitems⟩ := hs.of_arr
  obtain ⟨parts', rfl, hr, hsame⟩ := exists_forall₂ (f := Prod.fst) (P := fun p => Reads room m t p.1 p.2)
    (S := fun p p' => p.2.same p'.2 = true) (List.forall₂_map_left_iff.1 hitems) fun p hp j' hs => by
      obtain ⟨v', hr, hv⟩ := ih p hp j' hs
      exact ⟨(j', v'), rfl, hr, hv⟩
  refine ⟨_, .list parts' hr, ?_⟩
  have hsame : List.Forall₂ (fun a b => a.same b = true) (parts.map Prod.snd) (parts'.map Prod.snd) := by
    rwa [List.forall₂_map_left_iff, List.forall₂_map_right_iff]
  obtain ⟨hl, hsame⟩ := List.forall₂_iff_zip.1 hsame
  rw [Value.same, Value.sameItems_iff]
  exact ⟨hl, fun p hp => hsame hp⟩

theorem readsSame_object {parts : List (String × Json × Value)}
    (hd : Fields.Distinct (parts.map fun p => (p.1, p.2.1)))
    (ih : ∀ p ∈ parts, ∀ j', p.2.1.Shuffled j' → ReadsSame room m t j' p.2.2)
    (hs : (Json.obj (parts.map fun p => (p.1, p.2.1))).Shuffled j') :
    ReadsSame (room + 1) m (.object t) j' (.object (parts.map fun p => (p.1, p.2.2))) := by
  obtain ⟨props, rfl, hprops⟩ := hs.of_obj hd
  have hread : ∀ q ∈ props, ∃ v', Reads room m t q.2 v' ∧
      ∃ p ∈ parts, p.1 = q.1 ∧ p.2.2.same v' = true := by
    intro q hq
    obtain ⟨i, hi, hs⟩ := hprops.exists_doc ((hprops.distinct hd).get?_eq_some hq)
    obtain ⟨p, hp, he⟩ := List.mem_map.1 (Fields.mem_of_get? hi)
    obtain ⟨hn, rfl⟩ := Prod.mk.inj he
    obtain ⟨v', hr, hv⟩ := ih p hp q.2 hs
    exact ⟨v', hr, p, hp, hn, hv⟩
  obtain ⟨pairs, rfl, hpairs⟩ := exists_parts hread
  have hr := Reads.object (m := m) (t := t) (pairs.map fun q => (q.1.1, q.1.2, q.2))
    (List.forall_mem_map.2 fun q hq => (hpairs q hq).1)
  have hd' : Fields.Distinct (pairs.map fun q => (q.1.1, q.2)) :=
    (hprops.distinct hd).congr (by simp [Fields.keys, Function.comp_def])
  refine ⟨.object (pairs.map fun q => (q.1.1, q.2)), by simpa [Function.comp_def] using hr,
    Value.same_iff.2 (.object ⟨by simpa using hprops.names.length_eq, List.forall_mem_map.2 ?_⟩)⟩
  intro p hp
  -- The property of this name in the second document was read like one of the first, and that is
  -- `p`: its name stands only once.
  have hk : p.1 ∈ Fields.keys (pairs.map Prod.fst) :=
    hprops.names.mem_iff.1 (Fields.mem_keys_of_mem (List.mem_map_of_mem hp))
  rw [Fields.keys, List.map_map] at hk
  obtain ⟨q, hq, hn⟩ := List.mem_map.1 hk
  obtain ⟨-, p', hp', hn', hv⟩ := hpairs q hq
  obtain rfl : p' = p := by
    refine List.inj_on_of_nodup_map (f := Prod.fst) ?_ hp' hp (hn'.trans hn)
    simpa [Fields.Distinct, Fields.keys, Function.comp_def] using hd
  refine ⟨q.2, ?_, hv⟩
  rw [hn']
  exact hd'.get?_eq_some (List.mem_map_of_mem hq)

/-- Equal keys that were read have one identity. -/
theorem keyIdentity_eq_of_same {room' : Nat} {v' : Value} {w w' : Json} (h : Reads room m t j v)
    (h' : Reads room' m t j' v') (hm : m.Sound) (ht : t.NamesDiffer) (hj : j.WellFormed)
    (hj' : j'.WellFormed) (hs : v.same v' = true) (hw : encode v = .ok w) (hw' : encode v' = .ok w') :
    keyIdentity w = keyIdentity w' := by
  have hc := (h.inhabits hm ht hj).2
  have hc' := (h'.inhabits hm ht hj').2
  exact keyIdentity_eq_iff.2
    (canonical_eq_of_same (namesOnce_of_clean hc) (namesOnce_of_clean hc') hs hw hw')

/-- An entry of a map and its parts. -/
structure ReadsEntry (room : Nat) (m : Module) (k t : Ty) (p : ReadPart) : Prop where
  names : hasNames p.props ["key", "value"] = true
  keyDoc : Fields.get? p.props "key" = some p.keyDoc
  valueDoc : Fields.get? p.props "value" = some p.valueDoc
  key : Reads room m k p.keyDoc p.key
  value : Reads room m t p.valueDoc p.value
  written : encode p.key = .ok p.written

theorem ReadsEntry.shuffled {k : Ty} {p : ReadPart} (h : ReadsEntry room m k t p) (hm : m.Sound)
    (hk : k.NamesDiffer) (hj : (Json.obj p.props).WellFormed)
    (ihk : ∀ j', p.keyDoc.Shuffled j' → ReadsSame room m k j' p.key)
    (ihv : ∀ j', p.valueDoc.Shuffled j' → ReadsSame room m t j' p.value)
    (hs : (Json.obj p.props).Shuffled j') :
    ∃ p' : ReadPart, .obj p'.props = j' ∧ ReadsEntry room m k t p' ∧
      p.slot.1 = p'.slot.1 ∧ SameEntry p.slot.2 p'.slot.2 := by
  obtain ⟨props, rfl, hprops⟩ := hs.of_obj (Json.wellFormed_obj.1 hj).1
  obtain ⟨kd, hkd, hsk⟩ := hprops.docs h.keyDoc
  obtain ⟨vd, hvd, hsv⟩ := hprops.docs h.valueDoc
  obtain ⟨key, hkey, hsame⟩ := ihk kd hsk
  obtain ⟨value, hvalue, hsame'⟩ := ihv vd hsv
  obtain ⟨w, hw⟩ := exists_encode hkey
  have hjk := hj.prop h.keyDoc
  refine ⟨⟨⟨kd, vd, key, value⟩, props, w⟩, rfl, ⟨hprops.hasNames h.names, hkd, hvd, hkey, hvalue, hw⟩,
    ?_, hsame, hsame'⟩
  exact keyIdentity_eq_of_same h.key hkey hm hk hjk (hsk.wellFormed hjk) hsame h.written hw

theorem readsSame_map {k : Ty} {parts : List ReadPart} (hm : m.Sound) (hk : k.NamesDiffer)
    (hj : ∀ p ∈ parts, (Json.obj p.props).WellFormed) (h : ∀ p ∈ parts, ReadsEntry room m k t p)
    (ihk : ∀ p ∈ parts, ∀ j', p.keyDoc.Shuffled j' → ReadsSame room m k j' p.key)
    (ihv : ∀ p ∈ parts, ∀ j', p.valueDoc.Shuffled j' → ReadsSame room m t j' p.value)
    (hs : (Json.arr (parts.map fun p => .obj p.props)).Shuffled j') :
    ReadsSame (room + 1) m (.map k t) j' (.map (collectEntries (parts.map ReadPart.slot))) := by
  obtain ⟨items, rfl, hitems⟩ := hs.of_arr
  obtain ⟨parts', rfl, hr, hsame⟩ := exists_forall₂ (f := fun p : ReadPart => Json.obj p.props)
    (P := ReadsEntry room m k t)
    (S := fun p p' => p.slot.1 = p'.slot.1 ∧ SameEntry p.slot.2 p'.slot.2)
    (List.forall₂_map_left_iff.1 hitems)
    fun p hp j' hs => (h p hp).shuffled hm hk (hj p hp) (ihk p hp) (ihv p hp) hs
  -- The entries are in step, identities included, so what is merged in one is merged in the other.
  refine ⟨_, .map parts' (fun p hp => (hr p hp).names) (fun p hp => (hr p hp).keyDoc)
    (fun p hp => (hr p hp).valueDoc) (fun p hp => (hr p hp).key) (fun p hp => (hr p hp).value)
    (fun p hp => (hr p hp).written), same_collectEntries ?_⟩
  rwa [Fields.InStep, List.forall₂_map_left_iff, List.forall₂_map_right_iff]

theorem readsSame_fields {owner : Module} {tag : Option String} {props : Fields Json}
    {parts : List FieldPart} (hf : m.Fieldset t owner tag (parts.map FieldPart.field))
    (hd : Fields.Distinct (parts.map FieldPart.field)) (hp : Fields.Distinct props)
    (hh : HoldsParts tag parts props)
    (ih : ∀ p ∈ parts, ∀ j', p.doc.Shuffled j' → ReadsSame room owner p.ty j' p.value)
    (hs : (Json.obj props).Shuffled j') :
    ReadsSame (room + 1) m t j' (fieldsValue tag (Fields.ofList (parts.map FieldPart.named))) := by
  obtain ⟨props', rfl, hprops⟩ := hs.of_obj hp
  have hread : ∀ p ∈ parts, ∃ q : FieldPart, q.field = p.field ∧
      Fields.get? props' q.name = some q.doc ∧ Reads room owner q.ty q.doc q.value ∧
      p.value.same q.value = true := by
    intro p hp
    obtain ⟨i, hi, hs⟩ := hprops.docs (hh.docs p hp)
    obtain ⟨v', hr, hv⟩ := ih p hp i hs
    exact ⟨⟨p.name, p.ty, i, v'⟩, rfl, hi, hr, hv⟩
  obtain ⟨pairs, rfl, hpairs⟩ := exists_parts hread
  have hfields : (pairs.map Prod.snd).map FieldPart.field = (pairs.map Prod.fst).map FieldPart.field := by
    rw [List.map_map, List.map_map]
    exact List.map_congr_left fun q hq => (hpairs q hq).1
  have hnames : (pairs.map Prod.snd).map FieldPart.name = (pairs.map Prod.fst).map FieldPart.name := by
    rw [← keys_field, hfields, keys_field]
  have hholds : HoldsParts tag (pairs.map Prod.snd) props' := by
    refine ⟨?_, fun s hs => ?_, List.forall_mem_map.2 fun q hq => (hpairs q hq).2.1⟩
    · rw [hnames]
      exact hprops.hasNames hh.names
    · obtain ⟨i, hi, hs⟩ := hprops.docs (hh.tag s hs)
      rwa [hs.eq_of_plain (by simp) (by simp)] at hi
  refine ⟨_, .fields (pairs.map Prod.snd) (hfields ▸ hf) hholds
    (List.forall_mem_map.2 fun q hq => (hpairs q hq).2.2.1), ?_⟩
  have hdn : ∀ ps : List FieldPart, ps.map FieldPart.name = (pairs.map Prod.fst).map FieldPart.name →
      Fields.Distinct (ps.map FieldPart.named) := by
    intro ps hps
    exact hd.congr (by rw [keys_named, keys_field, hps])
  rw [Fields.ofList_of_distinct (hdn _ rfl), Fields.ofList_of_distinct (hdn _ hnames), same_fieldsValue]
  refine ⟨by simp, List.forall_mem_map.2 (List.forall_mem_map.2 fun q hq => ?_)⟩
  obtain ⟨hq', -, -, hv⟩ := hpairs q hq
  refine ⟨q.2.value, ?_, hv⟩
  have hn : q.1.name = q.2.name := congrArg Prod.fst hq'.symm
  show Fields.get? _ q.1.name = _
  rw [hn]
  exact (hdn _ hnames).get?_eq_some (List.mem_map_of_mem (List.mem_map_of_mem hq))

theorem Reads.shuffled (h : Reads room m t j v) (hs : j.Shuffled j') (hm : m.Sound)
    (ht : t.NamesDiffer) (hj : j.WellFormed) : ReadsSame room m t j' v := by
  induction h generalizing j' with
  | @scalar _ _ p j v h =>
    obtain rfl : j' = j := by
      refine hs.eq_of_plain ?_ ?_
      · rintro items rfl
        rw [readScalar?_arr] at h
        cases h
      · rintro props rfl
        rw [readScalar?_obj] at h
        cases h
    have hc := clean_of_readScalar? h
    exact ⟨v, .scalar h, Value.same_self (namesOnce_of_clean hc) (finite_of_clean hc)⟩
  | annot _ ih =>
    obtain ⟨v', hr, hv⟩ := ih hs hm (ht.part (by simp [Ty.parts])) hj
    exact ⟨v', .annot hr, hv⟩
  | absent =>
    obtain rfl : j' = .null := hs.eq_of_plain (by simp) (by simp)
    exact ⟨.absent, .absent, Value.same_iff.2 .absent⟩
  | present hne _ ih =>
    obtain ⟨v', hr, hv⟩ := ih hs hm (ht.part (by simp [Ty.parts])) hj
    refine ⟨.present v', .present ?_ hr, Value.same_iff.2 (.present hv)⟩
    rintro rfl
    exact hne (hs.symm.eq_of_plain (by simp) (by simp))
  | list parts _ ih =>
    rw [Json.wellFormed_arr, List.forall_mem_map] at hj
    exact readsSame_list
      (fun p hp j' hs => ih p hp hs hm (ht.part (by simp [Ty.parts])) (hj p hp)) hs
  | object parts _ ih =>
    rw [Json.wellFormed_obj, List.forall_mem_map] at hj
    exact readsSame_object hj.1
      (fun p hp j' hs => ih p hp hs hm (ht.part (by simp [Ty.parts])) (hj.2 p hp)) hs
  | map parts hn hk hv hrk hrv he ihk ihv =>
    rw [Json.wellFormed_arr, List.forall_mem_map] at hj
    refine readsSame_map hm (ht.part (by simp [Ty.parts])) hj (fun p hp => ?_) (fun p hp j' hs => ?_)
      (fun p hp j' hs => ?_) hs
    · exact ⟨hn p hp, hk p hp, hv p hp, hrk p hp, hrv p hp, he p hp⟩
    · exact ihk p hp hs hm (ht.part (by simp [Ty.parts])) ((hj p hp).prop (hk p hp))
    · exact ihv p hp hs hm (ht.part (by simp [Ty.parts])) ((hj p hp).prop (hv p hp))
  | «alias» hr _ ih =>
    obtain ⟨v', hv', hv⟩ := ih hs (hm.of_resolve? hr) (Ty.Proper.namesDiffer (hm.decl_proper hr)) hj
    exact ⟨v', .alias hr hv', hv⟩
  | @fields room m owner t tag props parts hf hh _ ih =>
    obtain ⟨hd, hts⟩ := hf.differ hm ht
    refine readsSame_fields hf hd (Json.wellFormed_obj.1 hj).1 hh (fun p hp j' hs => ?_) hs
    exact ih p hp hs (hf.sound hm) (hts p.field (List.mem_map_of_mem hp)) (hj.prop (hh.docs p hp))

/-! ### Both or neither -/

/-- Documents that differ only in the order of properties are both read or both refused, whatever the
limit. The values are equal, and as keys of a map they are one: the second is merged into the entry of
the first. -/
theorem decode_shuffled {c : Codec} {t : Ty} {j j' : Json} (hm : c.scope.Built) (ht : t.NamesDiffer)
    (hj : j.WellFormed) (hs : j.Shuffled j') :
    ((∃ v, c.decode t j = .ok v) ↔ ∃ v', c.decode t j' = .ok v') ∧
    ∀ v v', c.decode t j = .ok v → c.decode t j' = .ok v' → c.equals t v v' = true ∧
      ∃ w w', encode v = .ok w ∧ encode v' = .ok w' ∧ keyIdentity w = keyIdentity w' := by
  have hsound := hm.sound
  have hj' := hs.wellFormed hj
  refine ⟨⟨?_, ?_⟩, fun v v' hv hv' => ?_⟩
  · rintro ⟨v, hv⟩
    obtain ⟨v', hr, -⟩ := (reads_of_readWithin hv).shuffled hs hsound ht hj
    exact ⟨v', readWithin_of_reads hr⟩
  · rintro ⟨v', hv'⟩
    obtain ⟨v, hr, -⟩ := (reads_of_readWithin hv').shuffled hs.symm hsound ht hj'
    exact ⟨v, readWithin_of_reads hr⟩
  · have hr := reads_of_readWithin hv
    have hr' := reads_of_readWithin hv'
    obtain ⟨u, hu, hsame⟩ := hr.shuffled hs hsound ht hj
    obtain rfl : u = v' := Except.ok.inj ((readWithin_of_reads hu).symm.trans hv')
    obtain ⟨w, hw⟩ := exists_encode hr
    obtain ⟨w', hw'⟩ := exists_encode hr'
    refine ⟨(hr.inhabits hsound ht hj).1.inhabits.equalAs_of_same hsound hsame, w, w', hw, hw', ?_⟩
    exact keyIdentity_eq_of_same hr hr' hsound ht hj hj' hsame hw hw'

/-- Marks under objects of numbers. -/
def marksByNumbers : Ty := .map (.object (.prim .i64)) (.prim .boolean)

/-- Two properties in one order and in the other. -/
theorem shuffled_pair (a b : String) {i i' k k' : Json} (hi : i.Shuffled i') (hk : k.Shuffled k') :
    (Json.obj [(a, i), (b, k)]).Shuffled (.obj [(b, k'), (a, i')]) :=
  @Json.Shuffled.obj [(a, i, i'), (b, k, k')] [(b, k, k'), (a, i, i')] (by simp [hi, hk]) (.swap ..)

/-- Two numbers by name. -/
def numbers (swapped : Bool) : Json :=
  if swapped then .obj [("y", .ofInt 2), ("x", .ofInt 1)] else .obj [("x", .ofInt 1), ("y", .ofInt 2)]

/-- A document with two entries for these numbers, everything in it in one order or in the other. -/
def marksDoc (swapped : Bool) : Json :=
  if swapped then
    .arr [.obj [("value", .bool true), ("key", numbers true)],
      .obj [("key", numbers false), ("value", .bool false)]]
  else
    .arr [.obj [("key", numbers false), ("value", .bool true)],
      .obj [("value", .bool false), ("key", numbers true)]]

theorem shuffled_marksDoc : (marksDoc false).Shuffled (marksDoc true) := by
  have hn : (numbers false).Shuffled (numbers true) := shuffled_pair "x" "y" (.refl _) (.refl _)
  have hfirst := shuffled_pair "key" "value" hn (.refl (.bool true))
  have hsecond := shuffled_pair "value" "key" (.refl (.bool false)) hn.symm
  exact Json.Shuffled.arr [(_, _), (_, _)] (by simp [hfirst, hsecond])

/-- The one entry that is left has the numbers in the order in which they were met first. -/
theorem decode_shuffled_marksDoc :
    (⟨Module.drawings, 4⟩ : Codec).decode marksByNumbers (marksDoc false) =
      .ok (.map [(.object [("x", .i64 1), ("y", .i64 2)], .bool false)]) ∧
    (⟨Module.drawings, 4⟩ : Codec).decode marksByNumbers (marksDoc true) =
      .ok (.map [(.object [("y", .i64 2), ("x", .i64 1)], .bool false)]) ∧
    (⟨Module.drawings, 4⟩ : Codec).equals marksByNumbers
      (.map [(.object [("x", .i64 1), ("y", .i64 2)], .bool false)])
      (.map [(.object [("y", .i64 2), ("x", .i64 1)], .bool false)]) = true := by
  have hj : (marksDoc false).WellFormed := by
    simp [marksDoc, numbers, Json.WellFormed, Json.WellFormedItems, Json.WellFormedProps,
      Fields.Distinct, Fields.keys, Json.ofInt]
  have hv : (⟨Module.drawings, 4⟩ : Codec).decode marksByNumbers (marksDoc false) =
      .ok (.map [(.object [("x", .i64 1), ("y", .i64 2)], .bool false)]) := by cbv
  have hv' : (⟨Module.drawings, 4⟩ : Codec).decode marksByNumbers (marksDoc true) =
      .ok (.map [(.object [("y", .i64 2), ("x", .i64 1)], .bool false)]) := by cbv
  obtain ⟨-, hequal⟩ := decode_shuffled (c := ⟨Module.drawings, 4⟩) (t := marksByNumbers)
    Module.drawings_built (Ty.Proper.namesDiffer ⟨trivial, trivial⟩) hj shuffled_marksDoc
  exact ⟨hv, hv', (hequal _ _ hv hv').1⟩

end Codec

end Wireform
