import Mathlib
import Wireform.Emit.Plan
import Wireform.Proofs.Emit.Reach
import Wireform.Proofs.Text.Integer

/-!
# What the planner makes

A planner takes names that are free and leaves inline types in the queue; it never takes anything back.
`Makes` says what a planner adds and what its result has to do with that. Each function of the planner
has one such statement: the items that a field contains by value are held by its type and do not hold
the owner, or they are made for inline types that hold no more than the type does.
-/

namespace Wireform.Emit

/-! ### Names in items -/

mutual

/-- Items of the module that a type contains by value: outside lists, objects, maps and boxes. -/
def FieldTy.embedded : FieldTy → List String
  | .optional t => t.embedded
  | .tuple elems => embeddedAll elems
  | .declared name => [name]
  | .auxiliary name => [name]
  | .prim _ | .list _ | .object _ | .map _ _ | .boxed _ | .imported _ _ => []

def embeddedAll : List FieldTy → List String
  | [] => []
  | t :: ts => t.embedded ++ embeddedAll ts

end

mutual

/-- Items that it would contain by value, were they not boxed. -/
def FieldTy.boxes : FieldTy → List String
  | .optional t => t.boxes
  | .tuple elems => boxesAll elems
  | .boxed t => t.embedded
  | .prim _ | .list _ | .object _ | .map _ _ | .declared _ | .imported _ _ | .auxiliary _ => []

def boxesAll : List FieldTy → List String
  | [] => []
  | t :: ts => t.boxes ++ boxesAll ts

end

mutual

/-- Items of the module that a type mentions anywhere. -/
def FieldTy.mentioned : FieldTy → List String
  | .prim _ => []
  | .optional t => t.mentioned
  | .list t => t.mentioned
  | .object t => t.mentioned
  | .map k v => k.mentioned ++ v.mentioned
  | .tuple elems => mentionedAll elems
  | .boxed t => t.mentioned
  | .declared name => [name]
  | .imported _ _ => []
  | .auxiliary name => [name]

def mentionedAll : List FieldTy → List String
  | [] => []
  | t :: ts => t.mentioned ++ mentionedAll ts

end

namespace Item

/-- Items that a value of the item contains by value. -/
def embedded : Item → List String
  | .record _ _ _ fields => fields.flatMap fun f => f.ty.embedded
  | .enum _ _ arms => arms.map Prod.snd
  | .synonym _ _ t => t.embedded
  | .wrapper _ _ t => t.embedded
  | .table _ _ => []

/-- Items that a value of the item has in boxes. -/
def boxes : Item → List String
  | .record _ _ _ fields => fields.flatMap fun f => f.ty.boxes
  | .synonym _ _ t => t.boxes
  | .wrapper _ _ t => t.boxes
  | .enum _ _ _ | .table _ _ => []

/-- Items that the definition of the item mentions. -/
def mentioned : Item → List String
  | .record _ _ _ fields => fields.flatMap fun f => f.ty.mentioned
  | .enum _ _ arms => arms.map Prod.snd
  | .synonym _ _ t => t.mentioned
  | .wrapper _ _ t => t.mentioned
  | .table _ _ => []

end Item

theorem embeddedAll_eq (ts : List FieldTy) : embeddedAll ts = ts.flatMap FieldTy.embedded := by
  induction ts with
  | nil => rfl
  | cons t ts ih => rw [embeddedAll, ih, List.flatMap_cons]

theorem boxesAll_eq (ts : List FieldTy) : boxesAll ts = ts.flatMap FieldTy.boxes := by
  induction ts with
  | nil => rfl
  | cons t ts ih => rw [boxesAll, ih, List.flatMap_cons]

theorem mentionedAll_eq (ts : List FieldTy) : mentionedAll ts = ts.flatMap FieldTy.mentioned := by
  induction ts with
  | nil => rfl
  | cons t ts ih => rw [mentionedAll, ih, List.flatMap_cons]

/-! ### Fresh names -/

theorem candidates_nodup (hint : String) (n : Nat) : (candidates hint n).Nodup := by
  refine List.nodup_cons.2 ⟨fun h => ?_, ?_⟩
  · obtain ⟨i, -, hi⟩ := List.mem_map.1 h
    have hn := Text.natural?_ofNat (i + 2)
    rw [String.append_eq_left_iff.1 hi] at hn
    cases hn
  · refine List.nodup_range.map fun i k h => ?_
    have := Text.ofNat_injective ((String.append_right_inj hint).1 h)
    omega

/-- There are more candidates than names that are taken. -/
theorem freshName_not_mem (taken : List String) (hint : String) : freshName taken hint ∉ taken := by
  unfold freshName
  cases h : (candidates hint taken.length).find? fun name => !taken.contains name with
  | some name => simpa using List.find?_some h
  | none =>
    have hsub : candidates hint taken.length ⊆ taken := by
      intro name hn
      simpa using List.find?_eq_none.1 h name hn
    have hle := ((candidates_nodup hint taken.length).subperm hsub).length_le
    simp only [candidates, List.length_cons, List.length_map, List.length_range] at hle
    omega

/-! ### What is added -/

/-- What a name was taken for: the declaration whose size is at stake, and the declarations that the
item is to hold by value. -/
structure Role where
  name : String
  owner : String
  held : List String

def Inline.role : Inline → Role
  | .record name fields owner => ⟨name, owner, heldByFields fields⟩
  | .sum name variants owner => ⟨name, owner, heldByVariants variants⟩

/-- The role of a structure that was named for a variant. -/
def variantRole (owner : String) (v : String × Variant) : Role := ⟨v.1, owner, heldByFields v.2.2⟩

def Inline.mentioned : Inline → List String
  | .record _ fields _ => mentionedByFields fields
  | .sum _ variants _ => mentionedByVariants variants

/-- From `p` to `q` free names were taken for these roles, and these inline types were left. -/
structure Adds (p q : Plan) (added : List Role) (new : List Inline) : Prop where
  taken : q.taken = p.taken ++ added.map Role.name
  queue : q.queue = p.queue ++ new
  distinct : p.taken.Nodup → q.taken.Nodup

theorem Adds.trans {p q r : Plan} {a₁ a₂ : List Role} {n₁ n₂ : List Inline} (h : Adds p q a₁ n₁)
    (h' : Adds q r a₂ n₂) : Adds p r (a₁ ++ a₂) (n₁ ++ n₂) where
  taken := by rw [h'.taken, h.taken, List.map_append, List.append_assoc]
  queue := by rw [h'.queue, h.queue, List.append_assoc]
  distinct hp := h'.distinct (h.distinct hp)

/-- Whatever the plan is, the planner only adds to it, and `post` is true of what it adds and of its
result. -/
def Makes {α : Type} (x : Planner α) (post : List Role → List Inline → α → Prop) : Prop :=
  ∀ p, ∃ added new, Adds p (x.run p).2 added new ∧ post added new (x.run p).1

namespace Makes

variable {α β : Type} {x : Planner α} {post : List Role → List Inline → α → Prop}

theorem pure {a : α} (h : post [] [] a) : Makes (Pure.pure a) post :=
  fun _ => ⟨[], [], ⟨(List.append_nil _).symm, (List.append_nil _).symm, id⟩, h⟩

theorem bind {f : α → Planner β} {after : List Role → List Inline → β → Prop} (hx : Makes x post)
    (hf : ∀ a added new, post added new a →
      Makes (f a) fun added' new' b => after (added ++ added') (new ++ new') b) :
    Makes (x >>= f) after := by
  intro p
  obtain ⟨a₁, n₁, h₁, hpost⟩ := hx p
  obtain ⟨a₂, n₂, h₂, hafter⟩ := hf _ _ _ hpost (x.run p).2
  exact ⟨a₁ ++ a₂, n₁ ++ n₂, h₁.trans h₂, hafter⟩

theorem mono {post' : List Role → List Inline → α → Prop} (hx : Makes x post)
    (h : ∀ added new a, post added new a → post' added new a) : Makes x post' := by
  intro p
  obtain ⟨added, new, hp, hpost⟩ := hx p
  exact ⟨added, new, hp, h _ _ _ hpost⟩

end Makes

/-- A name can be taken for any role. -/
theorem takeName_makes (hint owner : String) (held : List String) :
    Makes (takeName hint) fun added new name => added = [⟨name, owner, held⟩] ∧ new = [] := by
  intro p
  refine ⟨_, _, ⟨rfl, (List.append_nil _).symm, fun hp => ?_⟩, rfl, rfl⟩
  exact List.nodup_append.2 ⟨hp, List.nodup_singleton _, fun a ha b hb he =>
    freshName_not_mem p.taken hint (by rwa [List.mem_singleton.1 hb, ← he] at *)⟩

theorem enqueue_makes (inline : Inline) :
    Makes (enqueue inline) fun added new _ => added = [] ∧ new = [inline] :=
  fun _ => ⟨[], [inline], ⟨(List.append_nil _).symm, rfl, id⟩, rfl, rfl⟩

/-- The roles are those of the inline types, which belong to declarations, mention nothing but what is
`mentioned` and come to `weight` items at most. -/
structure Waits (m : Module) (mentioned : List String) (weight : Nat) (added : List Role)
    (new : List Inline) : Prop where
  roles : added = new.map Inline.role
  owners : ∀ i ∈ new, i.role.owner ∈ Fields.keys m.decls
  mentioned : ∀ i ∈ new, i.mentioned ⊆ mentioned
  weight : queueWeight new ≤ weight

theorem queueWeight_append (queue new : List Inline) :
    queueWeight (queue ++ new) = queueWeight queue + queueWeight new := by
  induction queue with
  | nil => simp [queueWeight]
  | cons i queue ih =>
    simp only [List.cons_append, queueWeight, ih]
    omega

namespace Waits

variable {m : Module} {ms ms' : List String} {w w' : Nat} {a a' : List Role} {n n' : List Inline}

theorem nil (m : Module) (ms : List String) (w : Nat) : Waits m ms w [] [] :=
  ⟨rfl, by simp, by simp, Nat.zero_le w⟩

theorem append (h : Waits m ms w a n) (h' : Waits m ms' w' a' n') :
    Waits m (ms ++ ms') (w + w') (a ++ a') (n ++ n') where
  roles := by rw [h.roles, h'.roles, List.map_append]
  owners := List.forall_mem_append.2 ⟨h.owners, h'.owners⟩
  mentioned := List.forall_mem_append.2
    ⟨fun i hi => List.Subset.trans (h.mentioned i hi) (List.subset_append_left _ _),
      fun i hi => List.Subset.trans (h'.mentioned i hi) (List.subset_append_right _ _)⟩
  weight := by
    have := h.weight
    have := h'.weight
    rw [queueWeight_append]
    omega

end Waits

/-- What stands in a position of `owner`. An item that is contained by value is held there and does not
hold the owner, if that is asked for, or it was added for the same owner and holds no more; an item that
is mentioned is mentioned there, or it was added. -/
structure Formed (m : Module) (owner : String) (flat : Bool) (held mentioned : List String)
    (added : List Role) (embeds names : List String) : Prop where
  embeds : ∀ n ∈ embeds, (n ∈ held ∧ (flat = true → ¬ Holds m n owner)) ∨
    ∃ r ∈ added, r.name = n ∧ r.owner = owner ∧ r.held ⊆ held
  names : ∀ n ∈ names, n ∈ mentioned ∨ n ∈ added.map Role.name

namespace Formed

variable {m : Module} {owner : String} {flat : Bool} {held held' ms ms' : List String}
  {a a' : List Role} {es es' ns ns' : List String}

theorem nil (m : Module) (owner : String) (flat : Bool) (held ms : List String) (a : List Role) :
    Formed m owner flat held ms a [] [] := ⟨by simp, by simp⟩

theorem mono (h : Formed m owner flat held ms a es ns) (hh : held ⊆ held') (hm : ms ⊆ ms')
    (ha : a ⊆ a') : Formed m owner flat held' ms' a' es ns where
  embeds n hn := by
    rcases h.embeds n hn with ⟨hin, hflat⟩ | ⟨r, hr, he, ho, hs⟩
    · exact .inl ⟨hh hin, hflat⟩
    · exact .inr ⟨r, ha hr, he, ho, List.Subset.trans hs hh⟩
  names n hn := (h.names n hn).imp (fun hin => hm hin) fun hin => List.map_subset _ ha hin

theorem append (h : Formed m owner flat held ms a es ns) (h' : Formed m owner flat held' ms' a' es' ns') :
    Formed m owner flat (held ++ held') (ms ++ ms') (a ++ a') (es ++ es') (ns ++ ns') := by
  have h₁ := h.mono (List.subset_append_left held held') (List.subset_append_left ms ms')
    (List.subset_append_left a a')
  have h₂ := h'.mono (List.subset_append_right held held') (List.subset_append_right ms ms')
    (List.subset_append_right a a')
  exact ⟨List.forall_mem_append.2 ⟨h₁.embeds, h₂.embeds⟩, List.forall_mem_append.2 ⟨h₁.names, h₂.names⟩⟩

/-- In a container nothing is contained by value. -/
theorem contain (h : Formed m owner flat held ms a es ns) {flat' : Bool} :
    Formed m owner flat' [] ms a [] ns := ⟨by simp, h.names⟩

end Formed

/-- Whatever is to be held is contained by value or boxed, or it is left to an item that was added. -/
def Kept (held : List String) (added : List Role) (embeds boxes : List String) : Prop :=
  ∀ n ∈ held, n ∈ embeds ∨ n ∈ boxes ∨ ∃ r ∈ added, r.name ∈ embeds ∧ n ∈ r.held

namespace Kept

variable {held held' es es' bs bs' : List String} {a a' : List Role}

theorem nil (a : List Role) (es bs : List String) : Kept [] a es bs := by simp [Kept]

theorem mono (h : Kept held a es bs) (ha : a ⊆ a') (he : es ⊆ es') (hb : bs ⊆ bs') :
    Kept held a' es' bs' := by
  intro n hn
  rcases h n hn with hin | hin | ⟨r, hr, hin, hh⟩
  · exact .inl (he hin)
  · exact .inr (.inl (hb hin))
  · exact .inr (.inr ⟨r, ha hr, he hin, hh⟩)

theorem append (h : Kept held a es bs) (h' : Kept held' a' es' bs') :
    Kept (held ++ held') (a ++ a') (es ++ es') (bs ++ bs') :=
  List.forall_mem_append.2
    ⟨h.mono (List.subset_append_left _ _) (List.subset_append_left _ _) (List.subset_append_left _ _),
      h'.mono (List.subset_append_right _ _) (List.subset_append_right _ _) (List.subset_append_right _ _)⟩

end Kept

/-! ### Fields -/

section

variable {m : Module} {owner : String}

/-- What `fieldTy` does at a type. -/
def FieldMade (m : Module) (owner : String) (flat : Bool) (t : Ty) (added : List Role)
    (new : List Inline) (τ : FieldTy) : Prop :=
  Waits m (mentionedBy t) (inlineCount t) added new ∧
    Formed m owner flat (heldBy t) (mentionedBy t) added τ.embedded τ.mentioned ∧
    Kept (heldBy t) added τ.embedded τ.boxes

/-- A name is taken for an inline type, and the type waits under it. -/
theorem later_makes {hint : String} {inline : String → Inline} {t : Ty} {flat : Bool}
    (ho : owner ∈ Fields.keys m.decls) (hr : ∀ name, (inline name).role = ⟨name, owner, heldBy t⟩)
    (hm : ∀ name, (inline name).mentioned = mentionedBy t)
    (hw : ∀ name, (inline name).weight = inlineCount t) :
    Makes (do
      let name ← takeName hint
      enqueue (inline name)
      return .auxiliary name) (FieldMade m owner flat t) := by
  refine (takeName_makes hint owner (heldBy t)).bind ?_
  rintro name added new ⟨ha, hn⟩
  refine (enqueue_makes _).bind ?_
  rintro _ added' new' ⟨ha', hn'⟩
  refine .pure ?_
  subst ha hn ha' hn'
  refine ⟨⟨by simp [hr], by simpa [hr] using ho, by simp [hm], by simp [queueWeight, hw]⟩, ⟨?_, ?_⟩,
    fun n hn => .inr (.inr ?_)⟩
  · simp [FieldTy.embedded]
  · simp [FieldTy.mentioned]
  · simpa [FieldTy.embedded] using hn

theorem mapM_fieldTy_makes {β : Type} {fields : Fields Ty} {flat : Bool} (hint : String × Ty → String)
    (make : String × Ty → FieldTy → β) (type : β → FieldTy) (ht : ∀ f τ, type (make f τ) = τ)
    (h : ∀ f ∈ fields, ∀ hint, Makes (fieldTy m owner f.2 hint flat) (FieldMade m owner flat f.2)) :
    Makes (fields.mapM fun f => do return make f (← fieldTy m owner f.2 (hint f) flat))
      fun added new results =>
        Waits m (mentionedByFields fields) (inlineCountFields fields) added new ∧
          Formed m owner flat (heldByFields fields) (mentionedByFields fields) added
            (results.flatMap fun b => (type b).embedded) (results.flatMap fun b => (type b).mentioned) ∧
          Kept (heldByFields fields) added (results.flatMap fun b => (type b).embedded)
            (results.flatMap fun b => (type b).boxes) := by
  induction fields with
  | nil => exact .pure ⟨.nil _ _ _, .nil _ _ _ _ _ _, .nil _ _ _⟩
  | cons f fields ih =>
    obtain ⟨hf, hfields⟩ := List.forall_mem_cons.1 h
    rw [List.mapM_cons]
    have hone : Makes (do return make f (← fieldTy m owner f.2 (hint f) flat)) fun added new b =>
        FieldMade m owner flat f.2 added new (type b) := by
      refine (hf (hint f)).bind fun τ added new hτ => .pure ?_
      simpa [ht] using hτ
    refine hone.bind ?_
    rintro b added new ⟨hw, hb, hk⟩
    refine (ih hfields).bind ?_
    rintro bs added' new' ⟨hw', hbs, hk'⟩
    refine .pure ?_
    simp only [List.append_nil, List.flatMap_cons]
    exact ⟨hw.append hw', hb.append hbs, hk.append hk'⟩

theorem elemTys_eq (m : Module) (owner : String) (fields : Fields Ty) (hint : String) (flat : Bool) :
    elemTys m owner fields hint flat = fields.mapM fun f => fieldTy m owner f.2 hint flat := by
  induction fields with
  | nil => rfl
  | cons f fields ih => rw [elemTys, ih, List.mapM_cons]

theorem fieldTy_makes (ho : owner ∈ Fields.keys m.decls) (t : Ty) (hint : String) (flat : Bool) :
    Makes (fieldTy m owner t hint flat) (FieldMade m owner flat t) := by
  induction t using Ty.parts_induction generalizing hint flat with
  | _ t ih =>
    cases t with
    | prim p =>
      rw [fieldTy]
      exact .pure ⟨.nil _ _ _, .nil _ _ _ _ _ _, .nil _ _ _⟩
    | annot doc t =>
      rw [fieldTy]
      exact ih t (by simp [Ty.parts]) hint flat
    | optional t =>
      rw [fieldTy]
      refine (ih t (by simp [Ty.parts]) hint flat).bind fun τ added new hτ => .pure ?_
      simp only [List.append_nil]
      exact hτ
    | list t | object t =>
      rw [fieldTy]
      refine (ih t (by simp [Ty.parts]) hint false).bind ?_
      rintro τ added new ⟨hw, hτ, -⟩
      refine .pure ?_
      simp only [List.append_nil]
      exact ⟨hw, hτ.contain, .nil _ _ _⟩
    | map k v =>
      rw [fieldTy]
      refine (ih k (by simp [Ty.parts]) _ false).bind ?_
      rintro κ added new ⟨hw, hκ, -⟩
      refine (ih v (by simp [Ty.parts]) _ false).bind ?_
      rintro τ added' new' ⟨hw', hτ, -⟩
      refine .pure ?_
      simp only [List.append_nil]
      exact ⟨hw.append hw', (hκ.append hτ).contain, .nil _ _ _⟩
    | record fields =>
      rw [fieldTy]
      split
      · rw [elemTys_eq]
        have helems := mapM_fieldTy_makes (fun _ => hint) (fun _ τ => τ) id (fun _ _ => rfl)
          fun f hf hint => ih f.2 (List.mem_map_of_mem hf) hint flat
        simp only [bind_pure] at helems
        refine helems.bind ?_
        rintro τs added new ⟨hw, hτs⟩
        refine .pure ?_
        simp only [List.append_nil]
        refine ⟨⟨hw.roles, hw.owners, hw.mentioned, hw.weight.trans (Nat.le_succ _)⟩, ?_⟩
        rw [FieldTy.embedded, embeddedAll_eq, FieldTy.mentioned, mentionedAll_eq, FieldTy.boxes, boxesAll_eq]
        exact hτs
      · exact later_makes ho (fun _ => rfl) (fun _ => rfl) fun _ => rfl
    | sum variants =>
      rw [fieldTy]
      exact later_makes ho (fun _ => rfl) (fun _ => rfl) fun _ => rfl
    | ref r =>
      obtain ⟨via, name, slot⟩ := r
      cases via with
      | some i =>
        rw [fieldTy]
        exact .pure ⟨.nil _ _ _, .nil _ _ _ _ _ _, .nil _ _ _⟩
      | none =>
        rw [fieldTy]
        refine .pure ⟨.nil _ _ _, ?_⟩
        split
        · refine ⟨⟨by simp [FieldTy.embedded], by simp [FieldTy.mentioned, mentionedBy]⟩, ?_⟩
          exact fun n hn => .inr (.inl hn)
        · rename_i hb
          refine ⟨⟨fun n hn => .inl ?_, by simp [FieldTy.mentioned, mentionedBy]⟩, fun n hn => .inl hn⟩
          rw [FieldTy.embedded, List.mem_singleton] at hn
          refine ⟨by rw [hn, heldBy]; exact List.mem_singleton_self _, fun hflat hholds => hb ?_⟩
          rw [hflat, Bool.true_and, holds_iff]
          exact hn ▸ hholds

/-! ### Records and sums -/

/-- The item is a record, and its fields stand in positions of `owner`. -/
def RecordMade (m : Module) (name owner : String) (fields : Fields Ty) (added : List Role)
    (item : Item) : Prop :=
  (∃ tag docs fs, item = .record name tag docs fs) ∧
    Formed m owner true (heldByFields fields) (mentionedByFields fields) added item.embedded item.mentioned ∧
    Kept (heldByFields fields) added item.embedded item.boxes

theorem RecordMade.mono {name : String} {fields : Fields Ty} {added added' : List Role} {item : Item}
    (h : RecordMade m name owner fields added item) (ha : added ⊆ added') :
    RecordMade m name owner fields added' item :=
  ⟨h.1, h.2.1.mono (List.Subset.refl _) (List.Subset.refl _) ha,
    h.2.2.mono ha (List.Subset.refl _) (List.Subset.refl _)⟩

theorem planRecord_makes (ho : owner ∈ Fields.keys m.decls) (name : String)
    (tag : Option (String × String)) (docs : List String) (fields : Fields Ty) :
    Makes (planRecord m name owner tag docs fields) fun added new item =>
      Waits m (mentionedByFields fields) (inlineCountFields fields) added new ∧
        RecordMade m name owner fields added item := by
  have hfields := mapM_fieldTy_makes (fun f => name ++ camel f.1)
    (fun f τ => (⟨f.1, τ, f.2.docs⟩ : Field)) Field.ty (fun _ _ => rfl)
    fun f (_ : f ∈ fields) hint => fieldTy_makes ho f.2 hint true
  refine Makes.bind hfields ?_
  rintro fs added new ⟨hw, hfs⟩
  refine .pure ?_
  simp only [List.append_nil]
  exact ⟨hw, ⟨tag, docs, fs, rfl⟩, hfs⟩

/-- One record per variant, then the sum. -/
theorem planSum_makes {variants : List (String × Variant)} {owner : Option String}
    (ho : ∀ v ∈ variants, owner.getD v.1 ∈ Fields.keys m.decls) (name : String) (docs : List String) :
    Makes (planSum m name variants owner docs) fun added new items =>
      Waits m (variants.flatMap fun v => mentionedByFields v.2.2)
          (variants.map fun v => inlineCountFields v.2.2).sum added new ∧
        ∃ records, items = records ++ [.enum name docs (variants.map fun v => (v.2.1, v.1))] ∧
          records.map Item.name = variants.map Prod.fst ∧
          ∀ item ∈ records, ∃ v ∈ variants, RecordMade m v.1 (owner.getD v.1) v.2.2 added item := by
  have hrecords : Makes (variants.mapM fun v =>
      planRecord m v.1 (owner.getD v.1) (some (name, v.2.1)) [] v.2.2) fun added new records =>
      Waits m (variants.flatMap fun v => mentionedByFields v.2.2)
          (variants.map fun v => inlineCountFields v.2.2).sum added new ∧
        records.map Item.name = variants.map Prod.fst ∧
        ∀ item ∈ records, ∃ v ∈ variants, RecordMade m v.1 (owner.getD v.1) v.2.2 added item := by
    induction variants with
    | nil => exact .pure ⟨.nil _ _ _, rfl, by simp⟩
    | cons v variants ih =>
      obtain ⟨hv, hvs⟩ := List.forall_mem_cons.1 ho
      rw [List.mapM_cons]
      refine (planRecord_makes hv _ _ _ _).bind ?_
      rintro item added new ⟨hw, hi⟩
      refine (ih hvs).bind ?_
      rintro items added' new' ⟨hw', hn, his⟩
      refine .pure ?_
      simp only [List.append_nil, List.flatMap_cons, List.map_cons, List.sum_cons]
      refine ⟨hw.append hw', ?_, List.forall_mem_cons.2 ⟨?_, fun item hin => ?_⟩⟩
      · obtain ⟨tag, docs, fs, rfl⟩ := hi.1
        rw [hn, Item.name]
      · exact ⟨v, List.mem_cons_self, hi.mono (List.subset_append_left _ _)⟩
      · obtain ⟨u, hu, hr⟩ := his item hin
        exact ⟨u, List.mem_cons_of_mem _ hu, hr.mono (List.subset_append_right _ _)⟩
  refine Makes.bind hrecords ?_
  rintro records added new ⟨hw, hr⟩
  refine .pure ?_
  simp only [List.append_nil]
  exact ⟨hw, records, rfl, hr⟩

/-- Names for the structures of variants can be taken for any owner. -/
theorem nameVariants_makes (name owner : String) (variants : List Variant) :
    Makes (nameVariants name variants) fun added new named =>
      new = [] ∧ named.map Prod.snd = variants ∧ added = named.map (variantRole owner) := by
  induction variants with
  | nil => exact .pure ⟨rfl, rfl, rfl⟩
  | cons v variants ih =>
    rw [nameVariants, List.mapM_cons]
    have hone : Makes (do return (← takeName (name ++ v.1), v)) fun added new x =>
        new = [] ∧ x.2 = v ∧ added = [variantRole owner x] := by
      refine (takeName_makes _ owner (heldByFields v.2)).bind ?_
      rintro item added new ⟨ha, hn⟩
      refine .pure ?_
      rw [List.append_nil, List.append_nil]
      exact ⟨hn, rfl, ha⟩
    refine hone.bind ?_
    rintro x added new ⟨hn, hx, ha⟩
    refine Makes.bind ih ?_
    rintro named added' new' ⟨hn', hs, ha'⟩
    refine .pure ?_
    subst hn ha hn' ha' hs
    simp [hx]

end

end Wireform.Emit
