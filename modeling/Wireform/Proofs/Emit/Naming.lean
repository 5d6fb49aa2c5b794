import Mathlib
import Wireform.Proofs.Emit.Identifier
import Wireform.Proofs.Emit.Layout
import Wireform.Proofs.Module.AliasCycle
import Wireform.Proofs.Module.Ruled

/-!
# The names of items

Every declared name has one item, and so has every name that is taken for an inline type on the way. Such a
name starts with the name of the item that it was made for and goes on with a capital letter or a digit, so it
is no word that has to be escaped and not what such a word is escaped to. The items of a module thus have
different identifiers, and so have the fields and arms of each, unless names clash that are declared
(`items_identifiers`).
-/

namespace Wireform.Emit

open Source (Identifier isIdentContinue)

/-! ### Names that go on -/

/-- Letters and digits that can stand at the end of a name, the first of them no small letter. -/
def Tail (cs : List Char) : Prop :=
  (∀ c ∈ cs, isIdentContinue c = true ∧ c ≠ '_') ∧ ∀ c ∈ cs.head?, c < 'a'

theorem Tail.nil : Tail [] := ⟨by simp, by simp⟩

theorem Tail.append {cs ds : List Char} (h : Tail cs) (h' : Tail ds) : Tail (cs ++ ds) := by
  refine ⟨List.forall_mem_append.2 ⟨h.1, h'.1⟩, fun c hc => ?_⟩
  cases cs with
  | nil => exact h'.2 c hc
  | cons d cs => exact h.2 c hc

theorem raise_cases {c : Char} (h : isIdentContinue c = true) (hc : c ≠ '_') :
    isIdentContinue c.toUpper = true ∧ c.toUpper ≠ '_' ∧ c.toUpper < 'a' := by
  have hall : ∀ n < 123, isIdentContinue (Char.ofNat n) = true → Char.ofNat n ≠ '_' →
      isIdentContinue (Char.ofNat n).toUpper = true ∧ (Char.ofNat n).toUpper ≠ '_' ∧
        (Char.ofNat n).toUpper < 'a' := by decide
  have hlt : c.toNat < 123 := by
    simp only [isIdentContinue, Source.isIdentStart, Bool.or_eq_true, Bool.and_eq_true, decide_eq_true_eq,
      Char.le_def, UInt32.le_iff_toNat_le] at h
    rcases h with ((h | h) | rfl) | h
    · exact Nat.lt_succ_of_le h.2
    · exact lt_of_le_of_lt h.2 (by decide)
    · decide
    · exact lt_of_le_of_lt h.2 (by decide)
  have hc' := hall c.toNat hlt
  rw [Char.ofNat_toNat] at hc'
  exact hc' h hc

theorem mem_camelFrom {cs : List Char} (h : ∀ c ∈ cs, isIdentContinue c = true) (start : Bool) :
    ∀ c ∈ camelFrom start cs, isIdentContinue c = true ∧ c ≠ '_' := by
  induction cs generalizing start with
  | nil => simp [camelFrom]
  | cons c cs ih =>
    obtain ⟨hc, hcs⟩ := List.forall_mem_cons.1 h
    unfold camelFrom
    split_ifs with h₁ h₂
    · exact ih hcs true
    · exact List.forall_mem_cons.2 ⟨⟨(raise_cases hc h₁).1, (raise_cases hc h₁).2.1⟩, ih hcs false⟩
    · exact List.forall_mem_cons.2 ⟨⟨hc, h₁⟩, ih hcs false⟩

/-- The first letter is raised, whether underscores stand before it or not. -/
theorem head_camelFrom {cs : List Char} (h : ∀ c ∈ cs, isIdentContinue c = true) :
    ∀ c ∈ (camelFrom true cs).head?, c < 'a' := by
  induction cs with
  | nil => simp [camelFrom]
  | cons c cs ih =>
    obtain ⟨hc, hcs⟩ := List.forall_mem_cons.1 h
    unfold camelFrom
    split_ifs with h₁ h₂
    · exact ih hcs
    · rintro d ⟨⟩
      exact (raise_cases hc h₁).2.2
    · exact absurd rfl h₂

theorem tail_camel {key : String} (h : Identifier key) : Tail (camel key).toList := by
  obtain ⟨c, cs, he, hc, hcs⟩ := h
  have hall : ∀ c ∈ key.toList, isIdentContinue c = true := by
    rw [he]
    exact List.forall_mem_cons.2 ⟨by simp [isIdentContinue, hc], hcs⟩
  rw [camel, String.toList_ofList]
  exact ⟨mem_camelFrom hall true, head_camelFrom hall⟩

theorem tail_ofNat (n : Nat) : Tail (Text.ofNat n).toList := by
  have hdigit : ∀ c ∈ (Text.ofNat n).toList, '0' ≤ c ∧ c ≤ '9' := by
    intro c hc
    rw [Text.ofNat, String.toList_ofList] at hc
    simpa [Text.isDigit] using Text.isDigit_of_mem_toDigits hc
  refine ⟨fun c hc => ⟨?_, ?_⟩, fun c hc => ?_⟩
  · simp [isIdentContinue, hdigit c hc]
  · rintro rfl
    exact absurd (hdigit _ hc).2 (by decide)
  · exact lt_of_le_of_lt (hdigit c (List.mem_of_mem_head? hc)).2 (by decide)

/-- The name starts with the other one. -/
def Hints (base hint : String) : Prop := ∃ tail, Tail tail ∧ hint.toList = base.toList ++ tail

theorem Hints.refl (base : String) : Hints base base := ⟨[], .nil, by simp⟩

theorem Hints.append {base hint s : String} (h : Hints base hint) (hs : Tail s.toList) : Hints base (hint ++ s) := by
  obtain ⟨tail, ht, he⟩ := h
  exact ⟨tail ++ s.toList, ht.append hs, by simp [he]⟩

theorem hints_freshName (taken : List String) {base hint : String} (h : Hints base hint) :
    Hints base (freshName taken hint) := by
  unfold freshName
  cases hf : (candidates hint taken.length).find? fun name => !taken.contains name with
  | none => exact h
  | some name =>
    rcases List.mem_cons.1 (List.mem_of_find?_eq_some hf) with rfl | hm
    · exact h
    · obtain ⟨i, -, rfl⟩ := List.mem_map.1 hm
      exact h.append (tail_ofNat _)

/-! ### Names that are taken -/

/-- A record as a source spells it that waits under a name with one of these names in front. -/
inductive Waiting (bases : List String) : Inline → Prop
  | record {name owner base : String} {fields : Fields Ty} : (Ty.record fields).Spelled (fun _ => True) →
    base ∈ bases → Hints base name → Waiting bases (.record name fields owner)

theorem Waiting.mono {bases bases' : List String} {inline : Inline} (h : Waiting bases inline)
    (hb : bases ⊆ bases') : Waiting bases' inline := by
  obtain ⟨hs, hm, hn⟩ := h
  exact .record hs (hb hm) hn

/-- Names were taken for records that wait, and for nothing else. -/
structure Grows (bases : List String) (weight : Nat) (added : List Role) (new : List Inline) : Prop where
  names : added.map Role.name = new.map fun i => i.role.name
  waiting : ∀ i ∈ new, Waiting bases i
  weight : queueWeight new ≤ weight

namespace Grows

variable {bases bases' : List String} {w w' : Nat} {a a' : List Role} {n n' : List Inline}

theorem nil (bases : List String) (w : Nat) : Grows bases w [] [] := ⟨rfl, by simp, Nat.zero_le w⟩

theorem append (h : Grows bases w a n) (h' : Grows bases w' a' n') :
    Grows bases (w + w') (a ++ a') (n ++ n') where
  names := by rw [List.map_append, List.map_append, h.names, h'.names]
  waiting := List.forall_mem_append.2 ⟨h.waiting, h'.waiting⟩
  weight := by
    rw [queueWeight_append]
    exact Nat.add_le_add h.weight h'.weight

theorem mono (h : Grows bases w a n) (hb : bases ⊆ bases') (hw : w ≤ w') : Grows bases' w' a n where
  names := h.names
  waiting i hi := (h.waiting i hi).mono hb
  weight := h.weight.trans hw

end Grows

theorem takeName_hints {base hint : String} (h : Hints base hint) :
    Makes (takeName hint) fun added new name =>
      added.map Role.name = [name] ∧ new = [] ∧ Hints base name := by
  intro p
  obtain ⟨added, new, ha, rfl, rfl⟩ := takeName_makes hint hint [] p
  exact ⟨_, _, ha, rfl, rfl, hints_freshName p.taken h⟩

/-- A run over a list grows with its steps. -/
theorem mapM_grows {α β : Type} {bases : List String} {w : α → Nat} {R : α → β → Prop} {l : List α}
    {f : α → Planner β} (h : ∀ a ∈ l, Makes (f a) fun added new b => Grows bases (w a) added new ∧ R a b) :
    Makes (l.mapM f) fun added new bs => Grows bases (l.map w).sum added new ∧ List.Forall₂ R l bs := by
  induction l with
  | nil => exact .pure ⟨.nil _ _, .nil⟩
  | cons a l ih =>
    obtain ⟨ha, hl⟩ := List.forall_mem_cons.1 h
    rw [List.mapM_cons]
    refine ha.bind ?_
    rintro b added new ⟨hg, hb⟩
    refine (ih hl).bind ?_
    rintro bs added' new' ⟨hg', hbs⟩
    refine .pure ?_
    simp only [List.append_nil]
    exact ⟨hg.append hg', .cons hb hbs⟩

theorem map_eq_of_forall₂ {α β : Type} {name : α → String} {key : β → String} {l : List α} {l' : List β}
    (h : List.Forall₂ (fun a b => name a = key b) l l') : l.map name = l'.map key := by
  have hmap := List.forall₂_map_left_iff.2 (List.forall₂_map_right_iff.2 h)
  rwa [List.forall₂_eq_eq_eq] at hmap

section

variable {m : Module} {owner base hint : String}

theorem inlineCountFields_eq (fields : Fields Ty) :
    inlineCountFields fields = (fields.map fun f => inlineCount f.2).sum := by
  induction fields with
  | nil => rfl
  | cons f fields ih => rw [inlineCountFields, ih, List.map_cons, List.sum_cons]

theorem fieldTy_grows {t : Ty} (ht : t.Spelled fun _ => True) (hh : Hints base hint) (flat : Bool) :
    Makes (fieldTy m owner t hint flat) fun added new _ => Grows [base] (inlineCount t) added new := by
  induction ht generalizing hint flat with
  | prim p =>
    rw [fieldTy]
    exact .pure (.nil _ _)
  | annot doc _ ih =>
    rw [fieldTy]
    exact ih hh flat
  | optional _ ih =>
    rw [fieldTy]
    refine (ih hh flat).bind fun τ added new hg => .pure ?_
    simp only [List.append_nil]
    exact hg
  | list _ ih | object _ ih =>
    rw [fieldTy]
    refine (ih hh false).bind fun τ added new hg => .pure ?_
    simp only [List.append_nil]
    exact hg
  | map _ _ ihk ihv =>
    rw [fieldTy]
    have hkey : Tail "Key".toList := by simp [Tail, isIdentContinue, Source.isIdentStart]
    have hvalue : Tail "Value".toList := by simp [Tail, isIdentContinue, Source.isIdentStart]
    refine (ihk (hh.append hkey) false).bind fun κ added new hk => ?_
    refine (ihv (hh.append hvalue) false).bind fun τ added' new' hv => .pure ?_
    simp only [List.append_nil]
    exact hk.append hv
  | @record fields hd hn hs ih =>
    rw [fieldTy]
    split
    · rw [elemTys_eq]
      have helems : ∀ f ∈ fields, Makes (fieldTy m owner f.2 hint flat) fun added new _ =>
          Grows [base] (inlineCount f.2) added new ∧ True :=
        fun f hf => (ih f hf hh flat).mono fun _ _ _ hg => ⟨hg, trivial⟩
      refine (mapM_grows helems).bind ?_
      rintro τs added new ⟨hg, -⟩
      refine .pure ?_
      simp only [List.append_nil]
      rw [← inlineCountFields_eq] at hg
      exact hg.mono (List.Subset.refl _) (Nat.le_succ _)
    · refine (takeName_hints hh).bind ?_
      rintro name added new ⟨ha, rfl, hname⟩
      refine (enqueue_makes _).bind ?_
      rintro _ added' new' ⟨rfl, rfl⟩
      refine .pure ⟨by simp [ha, Inline.role], ?_, by simp [queueWeight, Inline.weight, inlineCount]⟩
      simpa using Waiting.record (.record hd hn hs) (List.mem_singleton_self base) hname
  | @ref r _ =>
    obtain ⟨via, name, slot⟩ := r
    cases via with
    | some i =>
      rw [fieldTy]
      exact .pure (.nil _ _)
    | none =>
      rw [fieldTy]
      exact .pure (.nil _ _)

/-! ### Items -/

/-- The names of what an item is made of: its fields, or its arms. -/
def Item.members : Item → List String
  | .record _ _ _ fields => fields.map Field.key
  | .enum _ _ arms => arms.map Prod.fst
  | .synonym _ _ _ | .wrapper _ _ _ | .table _ _ => []

/-- The members have different identifiers as names. -/
structure Item.Tidy (item : Item) : Prop where
  distinct : item.members.Nodup
  identifiers : ∀ name ∈ item.members, Identifier name

theorem spelled_record {refs : Ref → Prop} {fields : Fields Ty} :
    (Ty.record fields).Spelled refs ↔ Fields.Distinct fields ∧ (∀ f ∈ fields, Identifier f.1) ∧
      ∀ f ∈ fields, f.2.Spelled refs := by
  constructor
  · rintro ⟨⟩
    exact ⟨‹_›, ‹_›, ‹_›⟩
  · rintro ⟨hd, hi, hf⟩
    exact .record hd hi hf

theorem planRecord_grows {fields : Fields Ty} (hs : (Ty.record fields).Spelled fun _ => True) (name : String)
    (tag : Option (String × String)) (docs : List String) :
    Makes (planRecord m name owner tag docs fields) fun added new item =>
      Grows [name] (inlineCountFields fields) added new ∧ item.name = name ∧ item.Tidy := by
  obtain ⟨hd, hi, hf⟩ := spelled_record.1 hs
  have hfields : ∀ f ∈ fields, Makes (do
      return (⟨f.1, ← fieldTy m owner f.2 (name ++ camel f.1) true, f.2.docs⟩ : Field)) fun added new b =>
        Grows [name] (inlineCount f.2) added new ∧ f.1 = b.key := by
    intro f hm
    have hh := (Hints.refl name).append (tail_camel (hi f hm))
    refine (fieldTy_grows (hf f hm) hh true).bind fun τ added new hg => .pure ⟨?_, rfl⟩
    simp only [List.append_nil]
    exact hg
  refine Makes.bind (mapM_grows hfields) ?_
  rintro fs added new ⟨hg, hkeys⟩
  refine .pure ?_
  simp only [List.append_nil]
  rw [← inlineCountFields_eq] at hg
  have hmembers : (Item.record name tag docs fs).members = Fields.keys fields :=
    (map_eq_of_forall₂ hkeys).symm
  refine ⟨hg, rfl, ?_, ?_⟩
  · rw [hmembers]
    exact hd
  · rw [hmembers]
    exact List.forall_mem_map.2 hi

/-- Tags come with their sum; their structures have their names. -/
theorem planSum_grows {variants : List Variant} (hd : Fields.Distinct variants)
    (hi : ∀ v ∈ variants, Identifier v.1)
    (hs : ∀ v ∈ variants, (Ty.record v.2).Spelled fun _ => True) (name : String) :
    Makes (planSum m name (variants.map fun v => (v.1, v)) none []) fun added new items =>
      Grows (Fields.keys variants) (inlineCountVariants variants) added new ∧
        items.map Item.name = Fields.keys variants ++ [name] ∧ ∀ item ∈ items, item.Tidy := by
  have hrecords : ∀ v ∈ variants.map fun v => (v.1, v),
      Makes (planRecord m v.1 (Option.getD none v.1) (some (name, v.2.1)) [] v.2.2) fun added new item =>
        Grows (Fields.keys variants) (inlineCountFields v.2.2) added new ∧ item.Tidy ∧ v.1 = item.name := by
    refine List.forall_mem_map.2 fun v hv => (planRecord_grows (hs v hv) _ _ _).mono ?_
    rintro added new item ⟨hg, hn, ht⟩
    exact ⟨hg.mono (List.cons_subset.2 ⟨Fields.mem_keys_of_mem hv, List.nil_subset _⟩) le_rfl, ht, hn.symm⟩
  refine Makes.bind (mapM_grows hrecords) ?_
  rintro records added new ⟨hg, hrecords⟩
  obtain ⟨htidy, hnames⟩ := (List.forall₂_and_left _ _).1 (List.Forall₂.flip hrecords)
  have hnames := map_eq_of_forall₂ hnames.flip
  refine .pure ?_
  simp only [List.append_nil, List.map_map, Function.comp_def] at hg hnames ⊢
  rw [← inlineCountVariants_eq] at hg
  refine ⟨hg, ?_, List.forall_mem_append.2 ⟨htidy, List.forall_mem_singleton.2 ?_⟩⟩
  · rw [List.map_append, ← hnames]
    rfl
  · have hmembers : (Item.enum name [] (variants.map fun v => (v.1, v.1))).members = Fields.keys variants := by
      rw [Item.members, List.map_map]
      rfl
    refine ⟨?_, ?_⟩
    · rw [hmembers]
      exact hd
    · rw [hmembers]
      exact List.forall_mem_map.2 hi

/-! ### Declarations -/

theorem tidy_of_members {item : Item} (h : item.members = []) : item.Tidy := ⟨by simp [h], by simp [h]⟩

/-- An item is named after the declaration that makes it, or it is declared as one of its tags. -/
theorem mem_itemNames (hr : m.Ruled)
    {name x : String} {decl : Decl} (hg : m.get? name = some decl) (hx : x ∈ itemNames name decl) :
    (∃ i, m.get? x = some (.variant name i)) ∨ (x = name ∧ ∀ parent i, decl ≠ .variant parent i) := by
  cases decl with
  | sum variants =>
    rcases List.mem_cons.1 hx with rfl | hx
    · exact .inr ⟨rfl, by simp⟩
    · obtain ⟨v, hv, rfl⟩ := List.mem_map.1 hx
      obtain ⟨i, hv⟩ := List.mem_iff_getElem?.1 hv
      exact .inl ⟨i, hr.tags name variants hg i v hv⟩
  | variant parent index => cases hx
  | «alias» | struct | table => exact .inr ⟨List.mem_singleton.1 hx, by simp⟩

theorem itemNames_subset (hr : m.Ruled)
    {name : String} {decl : Decl} (hg : m.get? name = some decl) :
    itemNames name decl ⊆ Fields.keys m.decls := by
  intro x hx
  rcases mem_itemNames hr hg hx with ⟨i, hi⟩ | ⟨rfl, -⟩
  · exact Fields.mem_keys_of_mem (Fields.mem_of_get? hi)
  · exact Fields.mem_keys_of_mem (Fields.mem_of_get? hg)

theorem nodup_itemNames (hr : m.Ruled)
    {name : String} {decl : Decl} (hg : m.get? name = some decl) : (itemNames name decl).Nodup := by
  cases decl with
  | sum variants =>
    refine List.nodup_cons.2 ⟨fun hm => ?_, Module.distinct_of_tags (hr.tags name variants hg)⟩
    obtain ⟨v, hv, hn⟩ := List.mem_map.1 hm
    obtain ⟨i, hv⟩ := List.mem_iff_getElem?.1 hv
    have ht := hr.tags name variants hg i v hv
    rw [hn, hg] at ht
    cases ht
  | variant parent index => exact List.nodup_nil
  | «alias» | struct | table => exact List.nodup_singleton _

/-- Every declared name has its item from one declaration. -/
theorem perm_itemNames (hr : m.Ruled) :
    (m.decls.flatMap fun d => itemNames d.1 d.2).Perm (Fields.keys m.decls) := by
  have hg : ∀ d ∈ m.decls, m.get? d.1 = some d.2 := fun d hd => Fields.Distinct.get?_eq_some hr.distinct hd
  have hnodup : (m.decls.flatMap fun d => itemNames d.1 d.2).Nodup := by
    refine List.nodup_flatMap.2 ⟨fun d hd => nodup_itemNames hr (hg d hd), ?_⟩
    refine (List.pairwise_map.1 hr.distinct).imp_of_mem fun {d e} hd he hne x hxd hxe => hne ?_
    rcases mem_itemNames hr (hg d hd) hxd with ⟨i, hi⟩ | ⟨hxd, hd'⟩ <;>
      rcases mem_itemNames hr (hg e he) hxe with ⟨j, hj⟩ | ⟨hxe, he'⟩
    · rw [hi] at hj
      exact (Decl.variant.inj (Option.some.inj hj)).1
    · rw [hxe, hg e he] at hi
      exact absurd (Option.some.inj hi) (he' _ _)
    · rw [hxd, hg d hd] at hj
      exact absurd (Option.some.inj hj) (hd' _ _)
    · exact hxd.symm.trans hxe
  refine (List.perm_ext_iff_of_nodup hnodup hr.distinct).2 fun x => ⟨fun hx => ?_, fun hx => ?_⟩
  · obtain ⟨d, hd, hx⟩ := List.mem_flatMap.1 hx
    exact itemNames_subset hr (hg d hd) hx
  · obtain ⟨decl, hd⟩ := Fields.mem_keys.1 hx
    cases decl with
    | variant parent index =>
      -- A tag comes with its sum.
      obtain ⟨variants, fields, hp, hv⟩ := hr.parents x parent index (hg _ hd)
      have hmem := Fields.mem_keys_of_mem (List.mem_of_getElem? hv)
      exact List.mem_flatMap.2 ⟨_, Fields.mem_of_get? hp, List.mem_cons_of_mem _ hmem⟩
    | _ => exact List.mem_flatMap.2 ⟨_, hd, List.mem_cons_self⟩

/-- What a declaration or an inline type makes: items of these names, with what waits under them. -/
def Yields (names : List String) (added : List Role) (new : List Inline) (items : List Item) : Prop :=
  Grows names (queueWeight new) added new ∧ (items.map Item.name).Perm names ∧ ∀ item ∈ items, item.Tidy

theorem planRecord_yields {fields : Fields Ty} (hs : (Ty.record fields).Spelled fun _ => True) (name : String)
    (tag : Option (String × String)) (docs : List String) :
    Makes (do return [← planRecord m name owner tag docs fields]) fun added new items =>
      Yields [name] added new items ∧ queueWeight new ≤ inlineCountFields fields := by
  refine (planRecord_grows hs name tag docs).bind ?_
  rintro item added new ⟨hg, rfl, ht⟩
  refine .pure ?_
  simp only [List.append_nil]
  exact ⟨⟨⟨hg.names, hg.waiting, le_rfl⟩, .refl _, by simpa using ht⟩, hg.weight⟩

theorem planSynonym_yields {t : Ty} (ht : t.Spelled fun _ => True) (name : String) :
    Makes (planAlias.planSynonym m name t) (Yields [name]) := by
  rw [planAlias.planSynonym]
  split
  all_goals
    refine (fieldTy_grows ht (.refl name) _).bind fun τ added new hg => .pure ?_
    simp only [List.append_nil]
    exact ⟨⟨hg.names, hg.waiting, le_rfl⟩, .refl _, List.forall_mem_singleton.2 (tidy_of_members rfl)⟩

theorem planAlias_yields {t : Ty} (ht : t.Spelled fun _ => True) (name : String) :
    Makes (planAlias m name t) (Yields [name]) := by
  have hs := ht.of_within (Ty.within_stripAnnot t)
  rw [planAlias]
  split
  · rename_i variants he
    rw [he] at hs
    cases hs
  · rename_i fields he
    rw [he] at hs
    split
    · exact planSynonym_yields ht name
    · exact (planRecord_yields hs name none t.docs).mono fun _ _ _ h => h.1
  · exact planSynonym_yields ht name

theorem planDecl_yields (hr : m.Ruled)
    {name : String} {decl : Decl} (hg : m.get? name = some decl) :
    Makes (planDecl m name decl) (Yields (itemNames name decl)) := by
  have hs := hr.spelled name decl hg
  cases decl with
  | «alias» t => exact planAlias_yields hs name
  | struct fields =>
    have hs' : (Ty.record fields).Spelled fun _ => True := .record hs.distinct hs.identifiers hs.types
    exact (planRecord_yields hs' name none []).mono fun _ _ _ h => h.1
  | sum variants =>
    have hi : ∀ v ∈ variants, Identifier v.1 := by
      intro v hv
      obtain ⟨i, hv⟩ := List.mem_iff_getElem?.1 hv
      exact hr.identifiers _ (Fields.mem_keys_of_mem (Fields.mem_of_get? (hr.tags name variants hg i v hv)))
    have hs' : ∀ v ∈ variants, (Ty.record v.2).Spelled fun _ => True :=
      fun v hv => .record (hs v hv).distinct (hs v hv).identifiers (hs v hv).types
    refine (planSum_grows (Module.distinct_of_tags (hr.tags name variants hg)) hi hs' name).mono ?_
    rintro added new items ⟨hg, hn, ht⟩
    refine ⟨⟨hg.names, (hg.mono (List.subset_cons_self _ _) le_rfl).waiting, le_rfl⟩, ?_, ht⟩
    rw [hn]
    exact List.perm_append_singleton name _
  | variant parent index => exact .pure ⟨.nil _ _, .refl _, by simp⟩
  | table spec => exact .pure ⟨.nil _ _, .refl _, List.forall_mem_singleton.2 (tidy_of_members rfl)⟩

theorem planInline_yields {bases : List String} {inline : Inline} (h : Waiting bases inline) :
    Makes (planInline m inline) fun added new items =>
      Yields [inline.role.name] added new items ∧ queueWeight new + 1 ≤ inline.weight := by
  obtain ⟨hs, -, -⟩ := h
  refine (planRecord_yields hs _ none []).mono ?_
  rintro added new items ⟨hy, hw⟩
  exact ⟨hy, Nat.succ_le_succ hw⟩

end

/-! ### Runs -/

/-- A name that was made for an inline type. -/
def Auxiliary (name : String) : Prop :=
  ∃ base tail, Identifier base ∧ Tail tail ∧ tail ≠ [] ∧ name.toList = base.toList ++ tail

/-- Names that are taken are different identifiers, and what waits has one of them. -/
structure Fair (p : Plan) : Prop where
  distinct : p.taken.Nodup
  identifiers : ∀ name ∈ p.taken, Identifier name
  waiting : ∀ i ∈ p.queue, Waiting p.taken i
  named : ∀ i ∈ p.queue, i.role.name ∈ p.taken

theorem Auxiliary.identifier {name : String} (h : Auxiliary name) : Identifier name := by
  obtain ⟨base, tail, ⟨c, cs, hb, hc, hcs⟩, ht, -, hn⟩ := h
  refine ⟨c, cs ++ tail, by rw [hn, hb, List.cons_append], hc, ?_⟩
  exact List.forall_mem_append.2 ⟨hcs, fun x hx => (ht.1 x hx).1⟩

/-- A name that is free goes on behind the name that it was made from. -/
theorem Fair.auxiliary {p q : Plan} {added : List Role} {new : List Inline} {bases : List String} {w : Nat}
    (h : Fair p) (hb : bases ⊆ p.taken) (ha : Adds p q added new) (hg : Grows bases w added new) :
    ∀ name ∈ added.map Role.name, Auxiliary name := by
  have hd := ha.distinct h.distinct
  rw [ha.taken] at hd
  have hfree := (List.nodup_append.1 hd).2.2
  intro name hn
  have hn' := hn
  rw [hg.names] at hn'
  obtain ⟨i, hi, rfl⟩ := List.mem_map.1 hn'
  obtain ⟨hs, hm, tail, ht, he⟩ := hg.waiting i hi
  refine ⟨_, tail, h.identifiers _ (hb hm), ht, ?_, he⟩
  rintro rfl
  rw [List.append_nil, String.toList_inj] at he
  exact hfree _ (hb hm) _ hn he.symm

theorem Fair.add {p q : Plan} {added : List Role} {new : List Inline} {bases : List String} {w : Nat}
    (h : Fair p) (hb : bases ⊆ p.taken) (ha : Adds p q added new) (hg : Grows bases w added new) : Fair q where
  distinct := ha.distinct h.distinct
  identifiers := by
    rw [ha.taken]
    exact List.forall_mem_append.2 ⟨h.identifiers, fun name hn => (h.auxiliary hb ha hg name hn).identifier⟩
  waiting := by
    rw [ha.queue, ha.taken]
    have hsub : p.taken ⊆ p.taken ++ added.map Role.name := List.subset_append_left _ _
    refine List.forall_mem_append.2 ⟨fun i hi => (h.waiting i hi).mono hsub, fun i hi => ?_⟩
    exact (hg.waiting i hi).mono (List.Subset.trans hb hsub)
  named := by
    rw [ha.queue, ha.taken, hg.names]
    refine List.forall_mem_append.2 ⟨fun i hi => ?_, fun i hi => ?_⟩
    · exact List.mem_append_left _ (h.named i hi)
    · exact List.mem_append_right _ (List.mem_map_of_mem hi)

/-- From `p` to `q` items were made for these names and for all inline types on the way, and nothing waits
any more. -/
structure Made (p q : Plan) (names : List String) (items : List Item) : Prop where
  fair : Fair q
  empty : q.queue = []
  extra : ∃ extra, q.taken = p.taken ++ extra ∧ (∀ name ∈ extra, Auxiliary name) ∧
    (items.map Item.name).Perm (names ++ extra)
  tidy : ∀ item ∈ items, item.Tidy

section

variable {m : Module} {p q r : Plan} {names names' : List String} {items items' : List Item}

theorem Made.nil (h : Fair p) (hq : p.queue = []) : Made p p [] [] :=
  ⟨h, hq, ⟨[], by simp, by simp, by simp⟩, by simp⟩

theorem Made.append (h : Made p q names items) (h' : Made q r names' items') :
    Made p r (names ++ names') (items ++ items') := by
  obtain ⟨extra, ht, ha, hp⟩ := h.extra
  obtain ⟨extra', ht', ha', hp'⟩ := h'.extra
  refine ⟨h'.fair, h'.empty, ⟨extra ++ extra', by rw [ht', ht, List.append_assoc],
    List.forall_mem_append.2 ⟨ha, ha'⟩, ?_⟩, List.forall_mem_append.2 ⟨h.tidy, h'.tidy⟩⟩
  rw [List.map_append, List.append_assoc]
  refine (hp.append hp').trans ?_
  rw [List.append_assoc]
  exact (List.perm_append_comm_assoc extra names' extra').append_left names

theorem Made.taken_subset (h : Made p q names items) : p.taken ⊆ q.taken := by
  obtain ⟨extra, ht, -⟩ := h.extra
  rw [ht]
  exact List.subset_append_left _ _

/-- Items whose inline types are made next. -/
theorem Made.cons {added : List Role} {new : List Inline} (h : Fair p) (hn : names ⊆ p.taken)
    (ha : Adds p q added new) (hy : Yields names added new items)
    (h' : Made q r (q.queue.map fun i => i.role.name) items') :
    Made p r (names ++ p.queue.map fun i => i.role.name) (items ++ items') := by
  obtain ⟨hg, hp, htidy⟩ := hy
  obtain ⟨extra, ht, hx, hp'⟩ := h'.extra
  refine ⟨h'.fair, h'.empty, ⟨added.map Role.name ++ extra, by rw [ht, ha.taken, List.append_assoc],
    List.forall_mem_append.2 ⟨h.auxiliary hn ha hg, hx⟩, ?_⟩, List.forall_mem_append.2 ⟨htidy, h'.tidy⟩⟩
  rw [ha.queue, List.map_append] at hp'
  rw [List.map_append, hg.names]
  refine (hp.append hp').trans (.of_eq ?_)
  simp only [List.append_assoc]

/-- Everything that waits gets its item, and so does what waits inside it. -/
theorem drain_made {fuel : Nat} (h : Fair p) (hw : queueWeight p.queue ≤ fuel) :
    Made p ((drain m fuel).run p).2 (p.queue.map fun i => i.role.name) ((drain m fuel).run p).1 := by
  induction fuel generalizing p with
  | zero =>
    have hq := queue_eq_nil hw
    rw [hq]
    exact .nil h hq
  | succ fuel ih =>
    obtain ⟨taken, queue⟩ := p
    cases queue with
    | nil => exact .nil h rfl
    | cons inline rest =>
      obtain ⟨hwait, hrest⟩ := List.forall_mem_cons.1 h.waiting
      obtain ⟨hname, hnames⟩ := List.forall_mem_cons.1 h.named
      have hfair : Fair ⟨taken, rest⟩ := ⟨h.distinct, h.identifiers, hrest, hnames⟩
      have hbase : [inline.role.name] ⊆ taken := List.cons_subset.2 ⟨hname, List.nil_subset _⟩
      obtain ⟨added, new, hadds, hy, hnew⟩ := planInline_yields (m := m) hwait ⟨taken, rest⟩
      have hw' : queueWeight ((planInline m inline).run ⟨taken, rest⟩).2.queue ≤ fuel := by
        rw [hadds.queue, queueWeight_append]
        simp only [queueWeight] at hw
        show queueWeight rest + queueWeight new ≤ fuel
        omega
      have hmade := Made.cons hfair hbase hadds hy (ih (hfair.add hbase hadds hy.1) hw')
      exact ⟨hmade.fair, hmade.empty, hmade.extra, hmade.tidy⟩

/-- Declaration after declaration. -/
theorem planDecls_made (hr : m.Ruled)
    {decls : Fields Decl} (hg : ∀ d ∈ decls, m.get? d.1 = some d.2) (h : Fair p) (hq : p.queue = [])
    (hk : Fields.keys m.decls ⊆ p.taken) :
    let x : Planner (List (List Item)) := decls.mapM fun (name, decl) => do
      let own ← planDecl m name decl
      return own ++ (← drainAll m)
    Made p (x.run p).2 (decls.flatMap fun d => itemNames d.1 d.2) (x.run p).1.flatten := by
  induction decls generalizing p with
  | nil => exact .nil h hq
  | cons d decls ih =>
    obtain ⟨hd, hdecls⟩ := List.forall_mem_cons.1 hg
    obtain ⟨added, new, hadds, hy⟩ := planDecl_yields hr hd p
    have hn := List.Subset.trans (itemNames_subset hr hd) hk
    have hmade := Made.cons h hn hadds hy (drain_made (m := m) (h.add hn hadds hy.1) le_rfl)
    rw [hq, List.map_nil, List.append_nil] at hmade
    rw [List.mapM_cons]
    exact hmade.append (ih hdecls hmade.fair hmade.empty (List.Subset.trans hk hmade.taken_subset))

end

/-! ### Identifiers -/

/-- A name that was made is no word without a raw form, and not what such a word is escaped to. -/
theorem Auxiliary.not_escaped {name : String} (h : Auxiliary name) :
    ∀ word ∈ pathWords, name ≠ word ∧ name ≠ word ++ "_" := by
  obtain ⟨base, tail, ⟨c, cs, hb, -, -⟩, ht, hne, hn⟩ := h
  intro word hw
  constructor
  · -- Behind their first letter these words have small letters only.
    rintro rfl
    have hsmall : ∀ word ∈ pathWords, ∀ c ∈ word.toList.tail, 'a' ≤ c := by simp [pathWords]
    obtain ⟨t, ts, rfl⟩ := List.exists_cons_of_ne_nil hne
    have hmem : t ∈ name.toList.tail := by simp [hn, hb]
    exact absurd (ht.2 t rfl) (not_lt.2 (hsmall name hw t hmem))
  · rintro rfl
    obtain ⟨init, z, rfl⟩ := (List.eq_nil_or_concat tail).resolve_left hne
    rw [List.concat_eq_append] at ht hn
    rw [String.toList_append, ← List.append_assoc] at hn
    obtain ⟨-, hz⟩ := List.append_inj' hn rfl
    exact (ht.1 z (by simp)).2 (by simpa using hz.symm)

/-- Names that clash are declared. -/
theorem clash_append {names extra : List String} (h : ∀ name ∈ extra, Auxiliary name) :
    Clash (names ++ extra) ↔ Clash names := by
  constructor
  · rintro ⟨word, hw, hin, hin'⟩
    refine ⟨word, hw, (List.mem_append.1 hin).resolve_right fun hm => ?_,
      (List.mem_append.1 hin').resolve_right fun hm => ?_⟩
    · exact ((h _ hm).not_escaped word hw).1 rfl
    · exact ((h _ hm).not_escaped word hw).2 rfl
  · rintro ⟨word, hw, hin, hin'⟩
    exact ⟨word, hw, List.mem_append_left _ hin, List.mem_append_left _ hin'⟩

/-- The items of a compiled module, and the fields and arms of each, have different names; after escaping they
still have different identifiers, except where a word without a raw form is declared beside the name that it is
escaped to. -/
theorem items_identifiers {available : Fields Module} {src : String} {m : Module}
    (h : Source.compile available src = .ok m) :
    ((items m).map Item.name).Nodup ∧
      (((items m).map fun item => identifier item.name).Nodup ↔ ¬ Clash (Fields.keys m.decls)) ∧
      ∀ item ∈ items m, item.members.Nodup ∧
        ((item.members.map identifier).Nodup ↔ ¬ Clash item.members) := by
  have hr := ruled_of_compile h
  have hg : ∀ d ∈ m.decls, m.get? d.1 = some d.2 := fun d hd => Fields.Distinct.get?_eq_some hr.distinct hd
  have hfair : Fair ⟨Fields.keys m.decls, []⟩ := ⟨hr.distinct, hr.identifiers, by simp, by simp⟩
  have hmade := planDecls_made hr hg hfair rfl (List.Subset.refl _)
  obtain ⟨extra, ht, haux, hp⟩ := hmade.extra
  -- What is taken in the end is declared or made for an inline type, and every such name has one item.
  have hdistinct := hmade.fair.distinct
  have hidentifiers := hmade.fair.identifiers
  rw [ht] at hdistinct hidentifiers
  have hnames : ((items m).map Item.name).Perm (Fields.keys m.decls ++ extra) :=
    hp.trans ((perm_itemNames hr).append_right extra)
  refine ⟨hnames.nodup_iff.2 hdistinct, ?_, fun item hi => ?_⟩
  · have hids := (hnames.map identifier).nodup_iff
    rw [List.map_map] at hids
    rw [← clash_append haux, ← nodup_identifiers_iff hdistinct hidentifiers]
    exact hids
  · have htidy := hmade.tidy item hi
    exact ⟨htidy.distinct, nodup_identifiers_iff htidy.distinct htidy.identifiers⟩

/-- Two declarations with one identifier, and an inline record. -/
def selves : Module :=
  ⟨"m", [], [("Self", .struct [("a", .record [("x", .prim .i32)])]), ("Self_", .struct [])]⟩

theorem compile_selves :
    Source.compile [] "module m struct Self \x7b a :: \x7b x :: I32 \x7d \x7d struct Self_ \x7b \x7d" =
      .ok selves := by
  cbv

theorem items_identifiers_selves :
    Source.compile [] "module m struct Self \x7b a :: \x7b x :: I32 \x7d \x7d struct Self_ \x7b \x7d" =
        .ok selves ∧
      ((items selves).map Item.name).Nodup ∧
      ¬ ((items selves).map fun item => identifier item.name).Nodup := by
  obtain ⟨hnames, hids, -⟩ := items_identifiers compile_selves
  refine ⟨compile_selves, hnames, fun hn => hids.1 hn ⟨"Self", ?_, ?_, ?_⟩⟩ <;> decide

theorem compile_token :
    Source.compile [] "module m struct Token \x7b self :: Boolean, self_ :: Boolean \x7d" =
      .ok ⟨"m", [], [("Token", .struct [("self", .prim .boolean), ("self_", .prim .boolean)])]⟩ := by
  cbv

/-- A struct with two fields of one identifier. -/
theorem identifiers_repeat_token :
    ∃ m, Source.compile [] "module m struct Token \x7b self :: Boolean, self_ :: Boolean \x7d" = .ok m ∧
      ∃ item ∈ items m, ¬ (item.members.map identifier).Nodup := by
  refine ⟨_, compile_token, .record "Token" none []
    [⟨"self", .prim .boolean, []⟩, ⟨"self_", .prim .boolean, []⟩], ?_, by decide⟩
  exact List.mem_singleton.2 rfl

end Wireform.Emit
