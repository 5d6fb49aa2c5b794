import Mathlib
import Wireform.Proofs.Source.Acceptance
import Wireform.Proofs.Source.Printed

/-!
# Types from their surface text

The surface text of a type is read back as the type, with two exceptions. The parentheses around a tuple of
one element are those of a group, so the tuple is read as its element (`Ty.flat`), and documentation may have
characters that are printed with an escape that sources do not have. Printing adds no levels: a type that
some source spells stays within what the parser follows.
-/

namespace Wireform

namespace Ty

/-! ### Levels -/

/-- The type goes at most so many levels deep. -/
def Levels : Nat → Ty → Prop
  | 0, _ => False
  | n + 1, t => ∀ s ∈ t.parts, Levels n s

theorem Levels.succ {n : Nat} {t : Ty} (h : Levels n t) : Levels (n + 1) t := by
  induction n generalizing t with
  | zero => exact h.elim
  | succ n ih => exact fun s hs => ih (h s hs)

/-! ### Tuples of one element -/

/-- A single field with the name of a first element is no more than its type. -/
def ungroup : Fields Ty → Ty
  | [(name, t)] => if name = "_1" then t else .record [(name, t)]
  | fields => .record fields

theorem ungroup_cases (fields : Fields Ty) :
    (∃ s, fields = [("_1", s)] ∧ ungroup fields = s) ∨
      (∀ s, fields ≠ [("_1", s)]) ∧ ungroup fields = .record fields := by
  unfold ungroup
  split
  · rename_i name t
    split
    · rename_i hn
      exact .inl ⟨t, by rw [hn], rfl⟩
    · rename_i hn
      refine .inr ⟨fun s hs => hn ?_, rfl⟩
      cases hs
      rfl
  · rename_i hne
    exact .inr ⟨fun s => hne "_1" s, rfl⟩

mutual

/-- The type with its tuples of one element replaced by the element. -/
def flat : Ty → Ty
  | .prim p => .prim p
  | .optional t => .optional t.flat
  | .list t => .list t.flat
  | .object t => .object t.flat
  | .map k v => .map k.flat v.flat
  | .record fields => ungroup (flatFields fields)
  | .sum variants => .sum variants
  | .annot doc t => .annot doc t.flat
  | .ref r => .ref r

def flatFields : List (String × Ty) → List (String × Ty)
  | [] => []
  | (name, t) :: fields => (name, t.flat) :: flatFields fields

end

theorem flat_record (fields : Fields Ty) :
    (Ty.record fields).flat = ungroup (fields.map fun f => (f.1, f.2.flat)) := by
  have h : flatFields fields = fields.map fun f => (f.1, f.2.flat) := by
    induction fields with
    | nil => rfl
    | cons f fields ih => rw [flatFields, ih]; rfl
  rw [flat, h]

/-- Not a tuple of one element. -/
def Ungrouped (t : Ty) : Prop := ∀ s, t ≠ .record [("_1", s)]

variable {refs : Ref → Prop} {t : Ty}

theorem flat_eq_self (h : t.Spelled refs) (hu : ∀ s, t.Within s → s.Ungrouped) : t.flat = t := by
  induction h with
  | prim _ | ref _ => rfl
  | optional _ ih | list _ ih | object _ ih | annot _ _ ih =>
    rw [flat, ih ((forall_within.1 hu).2 _ (by simp [parts]))]
  | map _ _ ihk ihv =>
    have hparts := (forall_within.1 hu).2
    rw [flat, ihk (hparts _ (by simp [parts])), ihv (hparts _ (by simp [parts]))]
  | @record fields _ _ _ ih =>
    obtain ⟨ht, hparts⟩ := forall_within.1 hu
    have hsame : fields.map (fun f => (f.1, f.2.flat)) = fields := by
      refine (List.map_congr_left fun f hf => ?_).trans (List.map_id fields)
      rw [ih f hf (hparts _ (List.mem_map_of_mem hf))]
      rfl
    rw [flat_record, hsame]
    rcases ungroup_cases fields with ⟨s, rfl, -⟩ | ⟨-, h⟩
    · exact absurd rfl (ht s)
    · exact h

theorem ungrouped_flat (h : t.Spelled refs) : ∀ s, t.flat.Within s → s.Ungrouped := by
  induction h with
  | prim _ | ref _ => exact forall_within.2 ⟨by simp [flat, Ungrouped], by simp [flat, parts]⟩
  | optional _ ih | list _ ih | object _ ih | annot _ _ ih =>
    exact forall_within.2 ⟨by simp [flat, Ungrouped], by simpa [flat, parts] using ih⟩
  | map _ _ ihk ihv =>
    exact forall_within.2 ⟨by simp [flat, Ungrouped], by simpa [flat, parts] using ⟨ihk, ihv⟩⟩
  | @record fields _ _ _ ih =>
    rw [flat_record]
    rcases ungroup_cases (fields.map fun f => (f.1, f.2.flat)) with ⟨s, hs, he⟩ | ⟨hne, he⟩
    · obtain ⟨f, rfl, hf⟩ := List.map_eq_singleton_iff.1 hs
      obtain rfl : f.2.flat = s := congrArg Prod.snd hf
      rw [he]
      exact ih f (by simp)
    · rw [he]
      refine forall_within.2 ⟨fun s hs => hne s (Ty.record.inj hs), ?_⟩
      rw [parts, List.map_map]
      exact List.forall_mem_map.2 ih

theorem flat_eq_self_iff (h : t.Spelled refs) : t.flat = t ↔ ∀ s, t.Within s → s.Ungrouped :=
  ⟨fun he => he ▸ ungrouped_flat h, flat_eq_self h⟩

end Ty

namespace Source

variable {α : Type} {d : Draft} {source : List Char} {G : Rule α}

/-! ### What parses as a type -/

/-- The syntax trees that a tree is directly made of. -/
def TypeExpr.Part (x : TypeExpr) : TypeExpr → Prop
  | .path _ _ => False
  | .apply _ args _ _ => .type x ∈ args
  | .tuple elems => x ∈ elems
  | .record fields => ∃ f ∈ fields, f.2 = x

/-- The parts of a type are resolved from parts of its syntax tree. -/
theorem resolveType_part {e : TypeExpr} {t s : Ty} (h : resolveType d e = .ok t) (hs : s ∈ t.parts) :
    ∃ x, x.Part e ∧ resolveType d x = .ok s := by
  cases e with
  | path segments offset =>
    rcases resolveType_path_eq_ok h with ⟨p, rfl⟩ | ⟨r, -, rfl⟩ <;> cases hs
  | tuple elems =>
    rw [resolveType] at h
    obtain ⟨ts, hts, h⟩ := bind_eq_ok.1 h
    cases h
    obtain ⟨f, hf, rfl⟩ := List.mem_map.1 hs
    obtain ⟨i, hi, rfl⟩ := List.mem_mapIdx.1 hf
    exact resolveElems_mem hts _ (List.getElem_mem hi)
  | record fields =>
    rw [resolveType] at h
    obtain ⟨fs, hfs, h⟩ := bind_eq_ok.1 h
    cases h
    obtain ⟨f, hf, rfl⟩ := List.mem_map.1 hs
    obtain ⟨g, hg, hgf⟩ := resolveFields_mem hfs f hf
    exact ⟨g.2, ⟨g, hg, rfl⟩, hgf⟩
  | apply ctor args offset fragment =>
    have harg : ∀ a ∈ args, ∀ {e : SourceError} {u : Ty}, resolveArg d e a = .ok u →
        ∃ x, x.Part (.apply ctor args offset fragment) ∧ resolveType d x = .ok u := by
      intro a ha e u hu
      obtain ⟨x, rfl, hx⟩ := resolveArg_eq_ok hu
      exact ⟨x, ha, hx⟩
    unfold resolveType at h
    simp only at h
    split at h
    case h_4 =>
      obtain ⟨k, hk, h⟩ := bind_eq_ok.1 h
      obtain ⟨v, hv, h⟩ := bind_eq_ok.1 h
      cases h
      rcases List.mem_cons.1 hs with rfl | hs
      · exact harg _ (by simp) hk
      · rw [List.mem_singleton.1 hs]
        exact harg _ (by simp) hv
    case h_1 | h_2 | h_3 | h_5 =>
      obtain ⟨u, hu, h⟩ := bind_eq_ok.1 h
      cases h
      rw [List.mem_singleton.1 hs]
      exact harg _ (by simp) hu
    all_goals cases h

theorem Enclosed.item {close : TokenKind} {ts : List Token} {r : List α × Bool} (h : Enclosed close G ts r) :
    ∀ a ∈ r.1, ∃ us, G us a := by
  induction h with
  | none _ => simp
  | last ha _ => simpa using ⟨_, ha⟩
  | more ha _ _ ih => exact List.forall_mem_cons.2 ⟨⟨_, ha⟩, ih⟩

/-- A group is of the level below, and so are the parts of anything else. -/
theorem TypeForm.part {G : Rule TypeExpr} {ts : List Token} {e : TypeExpr} (h : TypeForm source G ts e) :
    (∃ us, G us e) ∨ ∀ x, x.Part e → ∃ us, G us x := by
  cases h with
  | path _ _ => exact .inr fun x hx => hx.elim
  | apply _ _ h =>
    refine .inr fun x hx => ?_
    obtain ⟨us, hu⟩ := h.item _ hx
    cases hu with
    | type hu => exact ⟨us, hu⟩
  | group _ h => exact .inl (h.item _ (by simp))
  | tuple _ h _ => exact .inr fun x hx => h.item x hx
  | record _ h =>
    refine .inr fun x hx => ?_
    obtain ⟨f, hf, rfl⟩ := hx
    obtain ⟨us, hu⟩ := h.item f hf
    cases hu with
    | named _ _ hu => exact ⟨_, hu⟩
    | plain hu => exact ⟨us, hu⟩

theorem levels_of_types {n : Nat} {ts : List Token} {e : TypeExpr} {t : Ty} (h : Types source n ts e)
    (hr : resolveType d e = .ok t) : t.Levels n := by
  induction n generalizing ts e t with
  | zero => exact h.elim
  | succ n ih =>
    rcases TypeForm.part h with ⟨us, hu⟩ | hparts
    · exact (ih hu hr).succ
    · intro s hs
      obtain ⟨x, hx, hxs⟩ := resolveType_part hr hs
      obtain ⟨us, hu⟩ := hparts x hx
      exact ih hu hxs

/-! ### Printed tokens form a type -/

/-- Tokens of these kinds form something with the property, wherever they stand. -/
def Makes (G : Rule α) (ks : List TokenKind) (Q : α → Prop) : Prop :=
  ∀ ts, kinds ts = ks → ∃ a, G ts a ∧ Q a

namespace Makes

variable {ks : List TokenKind} {kss : List (List TokenKind)} {Q : α → Prop} {Qs : List (α → Prop)}

theorem enclosed (close : TokenKind) (h : List.Forall₂ (Makes G) kss Qs) :
    Makes (Enclosed close G) ([.comma].intercalate kss ++ [close]) fun r =>
      r.2 = kss.isEmpty ∧ List.Forall₂ (fun Q a => Q a) Qs r.1 := by
  induction h with
  | nil =>
    intro ts hts
    obtain ⟨t, rfl, ht⟩ := List.map_eq_singleton_iff.1 hts
    exact ⟨([], true), .none ht, rfl, .nil⟩
  | @cons ks Q kss Qs hk hrest ih =>
    cases hrest with
    | nil =>
      intro ts hts
      rw [List.intercalate_singleton] at hts
      obtain ⟨us, vs, rfl, hus, hvs⟩ := List.map_eq_append_iff.1 hts
      obtain ⟨t, rfl, ht⟩ := List.map_eq_singleton_iff.1 hvs
      obtain ⟨a, ha, hQ⟩ := hk us hus
      exact ⟨([a], false), .last ha ht, rfl, .cons hQ .nil⟩
    | @cons ks' Q' kss Qs hk' hrest =>
      intro ts hts
      rw [List.intercalate_cons_cons, List.append_assoc, List.append_assoc] at hts
      obtain ⟨us, vs, rfl, hus, hvs⟩ := List.map_eq_append_iff.1 hts
      obtain ⟨t, vs, rfl, ht, hvs⟩ := List.map_eq_cons_iff.1 hvs
      obtain ⟨a, ha, hQ⟩ := hk us hus
      obtain ⟨⟨as, commas⟩, has, hcommas, hQs⟩ := ih vs hvs
      exact ⟨(a :: as, commas), .more ha ht has, hcommas, .cons hQ hQs⟩

theorem field {G : Rule TypeExpr} {Q : TypeExpr → Prop} (name : String) (h : Makes G ks Q) :
    Makes (FieldForm G) (.ident name :: .colons :: ks) fun f => f.1 = some name ∧ Q f.2 := by
  intro ts hts
  obtain ⟨t, us, rfl, ht, hus⟩ := List.map_eq_cons_iff.1 hts
  obtain ⟨colons, us, rfl, hcolons, hus⟩ := List.map_eq_cons_iff.1 hus
  obtain ⟨ty, hty, hQ⟩ := h us hus
  exact ⟨(some name, ty), .named ht hcolons hty, rfl, hQ⟩

theorem doc (G : Rule TypeExpr) (text : String) : Makes (ArgForm G) [.str text] (· = .doc text) := by
  intro ts hts
  obtain ⟨t, rfl, ht⟩ := List.map_eq_singleton_iff.1 hts
  exact ⟨.doc text, .doc ht, rfl⟩

theorem type {G : Rule TypeExpr} {Q : TypeExpr → Prop} (h : Makes G ks Q) :
    Makes (ArgForm G) ks fun a => ∃ x, a = .type x ∧ Q x := by
  intro ts hts
  obtain ⟨x, hx, hQ⟩ := h ts hts
  exact ⟨.type x, .type hx, x, rfl, hQ⟩

theorem apply {G : Rule TypeExpr} {Qs : List (TypeArg → Prop)} (source : List Char) (ctor : String)
    (h : List.Forall₂ (Makes (ArgForm G)) kss Qs) :
    Makes (TypeForm source G) (Ty.argTokens ctor kss) fun e =>
      ∃ args offset fragment, e = .apply ctor args offset fragment ∧ List.Forall₂ (fun Q a => Q a) Qs args := by
  intro ts hts
  obtain ⟨t, us, rfl, ht, hus⟩ := List.map_eq_cons_iff.1 hts
  obtain ⟨paren, us, rfl, hparen, hus⟩ := List.map_eq_cons_iff.1 hus
  obtain ⟨⟨args, commas⟩, hargs, -, hQs⟩ := enclosed .rparen h us hus
  exact ⟨_, .apply ht hparen hargs, args, _, _, rfl, hQs⟩

theorem mono {Q' : α → Prop} (h : Makes G ks Q) (hQ : ∀ a, Q a → Q' a) : Makes G ks Q' := by
  intro ts hts
  obtain ⟨a, ha, hq⟩ := h ts hts
  exact ⟨a, ha, hQ a hq⟩

end Makes

/-! ### What they resolve to -/

theorem resolveElems_of_forall₂ {ts : List Ty} {es : List TypeExpr}
    (h : List.Forall₂ (fun t e => resolveType d e = .ok t) ts es) : resolveElems d es = .ok ts := by
  induction h with
  | nil => rw [resolveElems]
  | cons ht _ ih =>
    rw [resolveElems, ht, ih]
    rfl

theorem resolveFields_of_forall₂ {fs : Fields Ty} {fields : List FieldExpr} {seen : List String}
    (h : List.Forall₂ (fun f g => g.1 = some f.1 ∧ resolveType d g.2 = .ok f.2) fs fields)
    (hd : Fields.Distinct fs) (hs : ∀ name ∈ Fields.keys fs, name ∉ seen) (i : Nat) :
    resolveFields d [] i seen fields = .ok fs := by
  induction h generalizing i seen with
  | nil => rw [resolveFields]
  | @cons f g fs fields hg _ ih =>
    obtain ⟨name?, e⟩ := g
    obtain ⟨rfl, he⟩ := hg
    obtain ⟨hnew, hd⟩ := List.nodup_cons.1 hd
    obtain ⟨hf, hs⟩ := List.forall_mem_cons.1 hs
    have hrest := @ih (f.1 :: seen) hd (fun name hn hm => (List.mem_cons.1 hm).elim
      (fun he => hnew (he ▸ hn)) (hs name hn)) (i + 1)
    have hf : seen.contains f.1 = false := by simpa using hf
    rw [resolveFields]
    simp only [Option.getD_some, List.contains_nil, Bool.false_eq_true, if_false, hf, he, ok_bind, hrest]
    rfl

end Source

/-- The names of the way to the declaration. -/
def Ref.segments (r : Ref) : List String :=
  match r.via with
  | some i => [i, r.name]
  | none => [r.name]

/-- The path of the reference is made of identifiers, and in the draft it means the reference. -/
def Draft.Addresses (d : Draft) (r : Ref) : Prop :=
  r.Plain ∧ ∀ offset, Source.resolveType d (.path r.segments offset) = .ok (.ref r)

theorem Draft.addresses_of_path {d : Draft} {segments : List String} {offset : Nat} {r : Ref}
    (hs : ∀ s ∈ segments, Source.Identifier s)
    (h : Source.resolveType d (.path segments offset) = .ok (.ref r)) : d.Addresses r := by
  have hpath : d.resolvePath segments = .ok r := by
    rcases Source.resolveType_path_eq_ok h with ⟨p, hp⟩ | ⟨r', hr, hp⟩
    · cases hp
    · cases hp
      exact hr
  have hany : ∀ offset', Source.resolveType d (.path segments offset') = .ok (.ref r) := by
    intro offset'
    unfold Source.resolveType at h ⊢
    exact h
  unfold resolvePath at hpath
  split at hpath
  · split at hpath
    · cases hpath
      exact ⟨⟨hs _ (by simp), by simp⟩, hany⟩
    · cases hpath
  · split at hpath
    · cases hpath
      exact ⟨⟨hs _ (by simp), by simpa using hs _ (by simp)⟩, hany⟩
    · cases hpath
  · cases hpath

theorem isTuple_iff {α : Type} {fields : Fields α} :
    isTuple fields = true ↔
      fields ≠ [] ∧ Fields.keys fields = (List.range fields.length).map ordinalName := by
  simp [isTuple]

theorem isTuple_singleton {α : Type} {f : String × α} : isTuple [f] = true ↔ f.1 = "_1" := by
  rw [isTuple_iff]
  simp [Fields.keys, show ordinalName 0 = "_1" from rfl]

theorem tuple_of_isTuple {fields : Fields Ty} (h : isTuple fields = true) (g : Ty → Ty) :
    Ty.tuple (fields.map fun f => g f.2) = .record (fields.map fun f => (f.1, g f.2)) := by
  have hkeys := (isTuple_iff.1 h).2
  rw [Ty.tuple]
  congr 1
  refine List.ext_getElem (by simp) fun i h₁ h₂ => ?_
  have hi : (Fields.keys fields)[i]? = ((List.range fields.length).map ordinalName)[i]? := by rw [hkeys]
  simp only [List.length_map] at h₂
  simp [Fields.keys, h₂] at hi
  simp [hi]

namespace Source

variable {d : Draft} {t : Ty} {G : Rule TypeExpr}

theorem Makes.word (source : List Char) (G : Rule TypeExpr) (name : String) :
    Makes (TypeForm source G) [.ident name] fun e => ∃ offset, e = .path [name] offset := by
  intro ts hts
  obtain ⟨t, rfl, ht⟩ := List.map_eq_singleton_iff.1 hts
  exact ⟨_, .path ht .nil, t.start, rfl⟩

theorem Makes.path (source : List Char) (G : Rule TypeExpr) (r : Ref) :
    Makes (TypeForm source G) r.tokens fun e => ∃ offset, e = .path r.segments offset := by
  obtain ⟨via, name, slot⟩ := r
  cases via with
  | none => exact .word source G name
  | some i =>
    intro ts hts
    obtain ⟨t, us, rfl, ht, hus⟩ := List.map_eq_cons_iff.1 hts
    obtain ⟨dot, us, rfl, hdot, hus⟩ := List.map_eq_cons_iff.1 hus
    obtain ⟨n, rfl, hn⟩ := List.map_eq_singleton_iff.1 hus
    have htail : Repeated (After .dot Word) ([dot, n] ++ []) [name] := .cons (.mk hdot (.mk hn)) .nil
    exact ⟨_, .path ht htail, t.start, rfl⟩

section

variable {fields : Fields Ty}

/-- The elements of a tuple; a single one stands in the parentheses of a group. -/
theorem makes_elems (source : List Char) (hi : isTuple fields = true)
    (h : ∀ f ∈ fields, Makes G f.2.tokens fun e => resolveType d e = .ok f.2.flat) :
    Makes (TypeForm source G) (Ty.record fields).tokens fun e =>
      resolveType d e = .ok (Ty.record fields).flat := by
  have hparts : List.Forall₂ (Makes G) (Ty.elemTokens fields)
      (fields.map fun f e => resolveType d e = .ok f.2.flat) := by
    rw [Ty.elemTokens_eq, List.forall₂_map_left_iff, List.forall₂_map_right_iff, List.forall₂_same]
    exact h
  intro ts hts
  rw [Ty.tokens, if_pos hi] at hts
  obtain ⟨paren, us, rfl, hparen, hus⟩ := List.map_eq_cons_iff.1 hts
  obtain ⟨⟨elems, commas⟩, henc, hcommas, helems⟩ := Makes.enclosed .rparen hparts us hus
  rw [List.forall₂_map_left_iff] at helems
  rw [Ty.flat_record]
  rcases Ty.ungroup_cases (fields.map fun f => (f.1, f.2.flat)) with ⟨s, hs, he⟩ | ⟨hne, he⟩
  · obtain ⟨f, rfl, hf⟩ := List.map_eq_singleton_iff.1 hs
    obtain rfl : f.2.flat = s := congrArg Prod.snd hf
    cases helems with
    | @cons _ x _ _ hx hnil =>
      cases hnil
      obtain rfl : commas = false := hcommas
      exact ⟨x, .group hparen henc, hx.trans (congrArg _ he.symm)⟩
  · refine ⟨.tuple elems, .tuple hparen henc ?_, ?_⟩
    · rintro x hx
      obtain ⟨rfl, -⟩ := Prod.mk.inj hx
      cases helems with
      | @cons f _ _ _ _ hnil =>
        cases hnil
        exact hne f.2.flat (by rw [← isTuple_singleton.1 hi]; rfl)
    · have hflat : List.Forall₂ (fun t e => resolveType d e = .ok t) (fields.map fun f => f.2.flat) elems :=
        List.forall₂_map_left_iff.2 helems
      show resolveType d (.tuple elems) = _
      rw [resolveType, resolveElems_of_forall₂ hflat, he, ← tuple_of_isTuple hi]
      rfl

theorem makes_fields (source : List Char) (hi : ¬ isTuple fields = true) (hd : Fields.Distinct fields)
    (h : ∀ f ∈ fields, Makes G f.2.tokens fun e => resolveType d e = .ok f.2.flat) :
    Makes (TypeForm source G) (Ty.record fields).tokens fun e =>
      resolveType d e = .ok (Ty.record fields).flat := by
  have hparts : List.Forall₂ (Makes (FieldForm G)) (Ty.fieldTokens fields)
      (fields.map fun f g => g.1 = some f.1 ∧ resolveType d g.2 = .ok f.2.flat) := by
    rw [Ty.fieldTokens_eq, List.forall₂_map_left_iff, List.forall₂_map_right_iff, List.forall₂_same]
    exact fun f hf => (h f hf).field f.1
  intro ts hts
  rw [Ty.tokens, if_neg hi] at hts
  obtain ⟨brace, us, rfl, hbrace, hus⟩ := List.map_eq_cons_iff.1 hts
  obtain ⟨⟨fs, commas⟩, henc, -, hfs⟩ := Makes.enclosed .rbrace hparts us hus
  rw [List.forall₂_map_left_iff] at hfs
  refine ⟨.record fs, .record hbrace henc, ?_⟩
  have hkeys : Fields.keys (fields.map fun f => (f.1, f.2.flat)) = Fields.keys fields := by
    simp [Fields.keys]
  have hflat : List.Forall₂ (fun f g => g.1 = some f.1 ∧ resolveType d g.2 = .ok f.2)
      (fields.map fun f => (f.1, f.2.flat)) fs := List.forall₂_map_left_iff.2 hfs
  show resolveType d (.record fs) = _
  rw [resolveType, resolveFields_of_forall₂ hflat (by rwa [Fields.Distinct, hkeys]) (by simp), Ty.flat_record]
  rcases Ty.ungroup_cases (fields.map fun f => (f.1, f.2.flat)) with ⟨s, hs, -⟩ | ⟨-, he⟩
  · obtain ⟨f, rfl, hf⟩ := List.map_eq_singleton_iff.1 hs
    exact absurd (isTuple_singleton.2 (congrArg Prod.fst hf)) hi
  · rw [he]
    rfl

end

/-- The tokens of the surface text form a type of as many levels, which resolves to the flat one. -/
theorem makes_tokens {n : Nat} (source : List Char) (h : t.Spelled d.Addresses) (hl : t.Levels n) :
    Makes (Types source n) t.tokens fun e => resolveType d e = .ok t.flat := by
  induction n generalizing t with
  | zero => exact hl.elim
  | succ n ih =>
    have hpart : ∀ s ∈ t.parts, Makes (Types source n) s.tokens fun e => resolveType d e = .ok s.flat :=
      fun s hs => ih (h.part hs) (hl s hs)
    cases h with
    | prim p =>
      refine (Makes.word source _ p.name).mono ?_
      rintro _ ⟨offset, rfl⟩
      cases p <;> rfl
    | ref hr =>
      refine (Makes.path source _ _).mono ?_
      rintro _ ⟨offset, rfl⟩
      exact hr.2 offset
    | optional _ | list _ | object _ =>
      rw [Ty.tokens]
      refine (Makes.apply source _ (.cons (hpart _ (by simp [Ty.parts])).type .nil)).mono ?_
      rintro _ ⟨_, offset, fragment, rfl, _ | ⟨⟨x, rfl, hx⟩, _ | _⟩⟩
      simp [resolveType, resolveArg, hx, Ty.flat]
    | map _ _ =>
      rw [Ty.tokens]
      refine (Makes.apply source "Map" (.cons (hpart _ (by simp [Ty.parts])).type
        (.cons (hpart _ (by simp [Ty.parts])).type .nil))).mono ?_
      rintro _ ⟨_, offset, fragment, rfl, _ | ⟨⟨x, rfl, hx⟩, _ | ⟨⟨y, rfl, hy⟩, _ | _⟩⟩⟩
      simp [resolveType, resolveArg, hx, hy, Ty.flat]
    | annot doc _ =>
      rw [Ty.tokens]
      refine (Makes.apply source "Annot" (.cons (.doc _ doc)
        (.cons (hpart _ (by simp [Ty.parts])).type .nil))).mono ?_
      rintro _ ⟨_, offset, fragment, rfl, _ | ⟨rfl, _ | ⟨⟨x, rfl, hx⟩, _ | _⟩⟩⟩
      simp [resolveType, resolveArg, hx, Ty.flat]
    | @record fields hd _ _ =>
      have hfields : ∀ f ∈ fields, Makes (Types source n) f.2.tokens fun e => resolveType d e = .ok f.2.flat :=
        fun f hf => hpart _ (List.mem_map_of_mem hf)
      by_cases hi : isTuple fields = true
      · exact makes_elems source hi hfields
      · exact makes_fields source hi hd hfields

/-! ### Whole texts -/

/-- A type and nothing after it. -/
def parseWhole : Parser TypeExpr := do
  let e ← parseType
  expect .eof
  return e

theorem runOn_parseWhole {src : String} {ts : List Token} {stop : Nat} {e : TypeExpr}
    (ht : tokenize src = .ok (ts ++ [⟨.eof, stop, stop⟩])) (h : Types src.toList maxTypeNesting ts e) :
    runOn parseWhole src = .ok e := by
  have hc : Cursor.ofSource src = .ok ⟨src.toList, ts ++ [⟨.eof, stop, stop⟩], 0⟩ := by
    rw [Cursor.ofSource, ht]
    rfl
  have hp : parseType ⟨src.toList, ts ++ [⟨.eof, stop, stop⟩], 0⟩ =
      .ok e ⟨src.toList, [⟨.eof, stop, stop⟩], endOf 0 ts⟩ :=
    parseTypeWithin_complete maxTypeNesting _ ts _ 0 e h (by simp [EndsType, nextKind])
  have hw : parseWhole ⟨src.toList, ts ++ [⟨.eof, stop, stop⟩], 0⟩ =
      .ok e ⟨src.toList, [⟨.eof, stop, stop⟩], endOf 0 ts⟩ := by
    rw [parseWhole, bind_run_of_ok hp]
    rfl
  rw [runOn, hc, ok_bind, EStateM.run, hw]

end Source

open Source

namespace Draft

variable {d : Draft} {t : Ty}

/-- The type that the text as a whole means in the draft. -/
def readType (d : Draft) (src : String) : Except SourceError Ty := do
  resolveType d (← runOn parseWhole src)

/-- Somewhere in a text the parser meets a type that means this one in the draft. -/
def Spells (d : Draft) (t : Ty) : Prop :=
  ∃ src before c c' e, tokenize src = .ok (before ++ c.ahead) ∧ c.source = src.toList ∧
    parseType c = .ok e c' ∧ resolveType d e = .ok t

theorem spells_of_readType {src : String} (h : d.readType src = .ok t) : d.Spells t := by
  obtain ⟨e, he, ht⟩ := bind_eq_ok.1 h
  obtain ⟨c, _, hs, htokens, -, hp⟩ := exists_run he
  obtain ⟨e', c', hp', hrest⟩ := bind_run_eq_ok.1 hp
  obtain ⟨_, _, -, hrest⟩ := bind_run_eq_ok.1 hrest
  obtain ⟨rfl, -⟩ := pure_run_eq_ok.1 hrest
  exact ⟨src, [], c, c', e', htokens, hs, hp', ht⟩

/-- Such a type is spelled in names, and it is no deeper than the parser goes. -/
theorem Spells.spelled (h : d.Spells t) : t.Spelled d.Addresses ∧ t.Levels maxTypeNesting := by
  obtain ⟨src, before, c, c', e, htokens, -, hp, ht⟩ := h
  have hplain : c.Plain := fun u hu => @lexFrom_plain .blank _ _ _ trivial htokens u (by simp [hu])
  have hend : Terminated c.ahead := by
    obtain ⟨us, eof, hus, heof, -⟩ := exists_lexes htokens
    refine Terminated.of_append ⟨us, eof, hus, heof⟩ ?_
    obtain ⟨source, ahead, behind⟩ := c
    rintro rfl
    cases hp
  obtain ⟨ts, -, hform⟩ := parseTypeWithin_sound maxTypeNesting c e c' hend hp
  refine ⟨resolveType_spelled_of (fun _ _ _ hs hr => addresses_of_path hs hr) ?_ ht, ?_⟩
  · exact (parseType_yields c e c' hplain hp).1
  · exact levels_of_types hform ht

/-- The surface text is read as the flat type, or not at all if some documentation is not legible. -/
theorem readType_render (h : t.Spelled d.Addresses) (hl : t.Levels maxTypeNesting) :
    (∀ k ∈ t.tokens, k.Legible) ∧ d.readType t.render = .ok t.flat ∨
      (∃ k ∈ t.tokens, ¬ k.Legible) ∧ ∃ e, d.readType t.render = .error e := by
  rcases (h.mono fun r hr => hr.1).prints 0 [] (by simp [Apart]) with ⟨hk, ts, stop, hts, he⟩ | ⟨hk, e, he⟩
  · rw [List.append_nil] at he
    obtain ⟨e, hform, hr⟩ := makes_tokens t.render.toList h hl ts hts
    refine .inl ⟨hk, ?_⟩
    rw [readType, runOn_parseWhole he hform]
    exact hr
  · rw [List.append_nil] at he
    refine .inr ⟨hk, e, ?_⟩
    rw [readType, runOn, Cursor.ofSource, tokenize, he]
    rfl

/-- The surface text of a type that some source spells is read back as the type exactly if the type has no
tuple of one element in it and its documentation needs no escapes but those of sources. -/
theorem readType_render_eq_self_iff (h : d.Spells t) :
    d.readType t.render = .ok t ↔
      (∀ s, ¬ t.Within (.record [("_1", s)])) ∧
        ∀ doc s, t.Within (.annot doc s) → ∀ c ∈ doc.toList, Text.Legible c := by
  obtain ⟨hs, hl⟩ := h.spelled
  have hflat : t.flat = t ↔ ∀ s, ¬ t.Within (.record [("_1", s)]) := by
    rw [Ty.flat_eq_self_iff hs]
    exact ⟨fun h s hw => h _ hw s rfl, fun h u hu s he => h s (he ▸ hu)⟩
  have hlegible : (∀ k ∈ t.tokens, k.Legible) ↔
      ∀ doc s, t.Within (.annot doc s) → ∀ c ∈ doc.toList, Text.Legible c := by
    rw [Ty.legible_tokens_iff hs]
    exact ⟨fun h doc s hw => h _ hw doc s rfl, fun h u hu doc s he => h doc s (he ▸ hu)⟩
  rw [← hflat, ← hlegible]
  rcases readType_render hs hl with ⟨hk, hr⟩ | ⟨⟨k, hk, hn⟩, e, hr⟩
  · rw [hr]
    exact ⟨fun he => ⟨Except.ok.inj he, hk⟩, fun he => congrArg _ he.1⟩
  · rw [hr]
    constructor
    · intro he
      cases he
    · exact fun he => absurd (he.2 k hk) hn

/-- A draft with an import and a name of its own. -/
def trips : Draft := ⟨"trips", [("plane", ⟨"plane", [], [("Point", .alias (.prim .f64))]⟩)], [("Stop", none)]⟩

def stop : Ty :=
  .map (.annot "\"\n\t\\" (.ref ⟨some "plane", "Point", 0⟩))
    (.record [("_1", .prim .i32), ("at", .tuple [.ref ⟨none, "Stop", 0⟩, .prim .str]), ("_3", .record [])])

/-- Spelled with a group, and with fields that take their positions as names. -/
theorem spells_stop : trips.Spells stop := by
  have h : trips.readType
      "Map((Annot(\"\\\"\\n\\t\\\\\", plane.Point)), \x7bI32, at :: (Stop, Str), ()\x7d)" = .ok stop := by cbv
  exact spells_of_readType h

def lone : Ty := .list (.tuple [.ref ⟨none, "Stop", 0⟩])

/-- A comma makes the parentheses a tuple. -/
theorem spells_lone : trips.Spells lone := by
  have h : trips.readType "List((Stop,))" = .ok lone := by cbv
  exact spells_of_readType h

/-- Documentation with a carriage return. -/
def muted : Ty := .annot "\r" (.prim .str)

theorem spells_muted : trips.Spells muted := by
  have h : trips.readType "Annot(\"\r\", Str)" = .ok muted := by cbv
  exact spells_of_readType h

theorem readType_render_stop :
    trips.Spells stop ∧ trips.readType stop.render = .ok stop ∧
      (∀ doc s, stop.Within (.annot doc s) → ∀ c ∈ doc.toList, Text.Legible c) ∧
      trips.Spells lone ∧ trips.readType lone.render ≠ .ok lone ∧
      trips.Spells muted ∧ trips.readType muted.render ≠ .ok muted := by
  have hshown : stop.render =
      "Map(Annot(\"\\\"\\n\\t\\\\\", plane.Point), \x7b_1 :: I32, at :: (Stop, Str), _3 :: \x7b\x7d\x7d)" := by
    decide +kernel
  have hread : trips.readType stop.render = .ok stop := by
    rw [hshown]
    cbv
  have hdocs := ((readType_render_eq_self_iff spells_stop).1 hread).2
  refine ⟨spells_stop, hread, hdocs, spells_lone, fun h => ?_, spells_muted, fun h => ?_⟩
  · exact ((readType_render_eq_self_iff spells_lone).1 h).1 _ (.single (List.mem_singleton.2 rfl))
  · have hreturn := ((readType_render_eq_self_iff spells_muted).1 h).2 _ _ .refl '\r' (by simp)
    exact Text.not_legible_of_unescape? (x := 'r') rfl rfl hreturn

end Draft

end Wireform
