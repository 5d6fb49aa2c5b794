import Mathlib
import Wireform.Proofs.Source.Grammar

/-!
# Trees but for their places

A tree remembers where its parts stand in the source, for messages. Two trees are alike (`Like`) if they
differ in nothing else. What the grammar makes of tokens depends on their places in this way only: tokens of
the same kinds stand for trees that are alike (`Carries`).
-/

namespace Wireform.Source

/-! ### Trees that are alike -/

/-- Two types, or twice the same text. -/
def TypeArg.SameSort : TypeArg → TypeArg → Prop
  | .type _, .type _ => True
  | .doc s, .doc s' => s = s'
  | _, _ => False

inductive TypeExpr.Like : TypeExpr → TypeExpr → Prop
  | path (segments : List String) (offset offset' : Nat) : Like (.path segments offset) (.path segments offset')
  | apply {parts : List (TypeArg × TypeArg)} (ctor : String) (offset offset' : Nat)
      (fragment fragment' : String) :
    (∀ p ∈ parts, p.1.SameSort p.2) → (∀ t t', (TypeArg.type t, TypeArg.type t') ∈ parts → Like t t') →
      Like (.apply ctor (parts.map Prod.fst) offset fragment)
        (.apply ctor (parts.map Prod.snd) offset' fragment')
  | tuple {parts : List (TypeExpr × TypeExpr)} : (∀ p ∈ parts, Like p.1 p.2) →
    Like (.tuple (parts.map Prod.fst)) (.tuple (parts.map Prod.snd))
  | record {parts : List (FieldExpr × FieldExpr)} : (∀ p ∈ parts, p.1.1 = p.2.1) →
    (∀ p ∈ parts, Like p.1.2 p.2.2) → Like (.record (parts.map Prod.fst)) (.record (parts.map Prod.snd))

def FieldExpr.Like (f g : FieldExpr) : Prop := f.1 = g.1 ∧ f.2.Like g.2

def TypeArg.Like (a b : TypeArg) : Prop := a.SameSort b ∧ ∀ t t', a = .type t → b = .type t' → t.Like t'

def VariantExpr.Like (v w : VariantExpr) : Prop := v.1 = w.1 ∧ List.Forall₂ FieldExpr.Like v.2 w.2

inductive TableItem.Like : TableItem → TableItem → Prop
  | ob (names : List String) : Like (.ob names) (.ob names)
  | hom (name dom codom : String) : Like (.hom name dom codom) (.hom name dom codom)
  | attr (name dom codom : String) : Like (.attr name dom codom) (.attr name dom codom)
  | attrType (name : String) {t t' : TypeExpr} : t.Like t' → Like (.attrType name t) (.attrType name t')

inductive DeclExpr.Like : DeclExpr → DeclExpr → Prop
  | alias (name : String) {t t' : TypeExpr} : t.Like t' → Like (.alias name t) (.alias name t')
  | struct (name : String) {fields fields' : List FieldExpr} :
    List.Forall₂ FieldExpr.Like fields fields' → Like (.struct name fields) (.struct name fields')
  | sum (name : String) {variants variants' : List VariantExpr} :
    List.Forall₂ VariantExpr.Like variants variants' → Like (.sum name variants) (.sum name variants')
  | table (name : String) {items items' : List TableItem} :
    List.Forall₂ TableItem.Like items items' → Like (.table name items) (.table name items')

theorem exists_pairs {α β : Type} {R : α → β → Prop} {l : List α} {l' : List β} (h : List.Forall₂ R l l') :
    ∃ parts : List (α × β), parts.map Prod.fst = l ∧ parts.map Prod.snd = l' ∧ ∀ p ∈ parts, R p.1 p.2 := by
  induction h with
  | nil => exact ⟨[], rfl, rfl, by simp⟩
  | @cons x y l l' hx _ ih =>
    obtain ⟨parts, rfl, rfl, hp⟩ := ih
    exact ⟨(x, y) :: parts, rfl, rfl, List.forall_mem_cons.2 ⟨hx, hp⟩⟩

namespace TypeExpr.Like

theorem apply_of_forall₂ (ctor : String) (offset offset' : Nat) (fragment fragment' : String)
    {args args' : List TypeArg} (h : List.Forall₂ TypeArg.Like args args') :
    Like (.apply ctor args offset fragment) (.apply ctor args' offset' fragment') := by
  obtain ⟨parts, rfl, rfl, hp⟩ := exists_pairs h
  exact .apply _ _ _ _ _ (fun p hm => (hp p hm).1) fun t t' hm => (hp _ hm).2 t t' rfl rfl

theorem tuple_of_forall₂ {elems elems' : List TypeExpr} (h : List.Forall₂ Like elems elems') :
    Like (.tuple elems) (.tuple elems') := by
  obtain ⟨parts, rfl, rfl, hp⟩ := exists_pairs h
  exact .tuple hp

theorem record_of_forall₂ {fields fields' : List FieldExpr} (h : List.Forall₂ FieldExpr.Like fields fields') :
    Like (.record fields) (.record fields') := by
  obtain ⟨parts, rfl, rfl, hp⟩ := exists_pairs h
  exact .record (fun p hm => (hp p hm).1) fun p hm => (hp p hm).2

end TypeExpr.Like

mutual

theorem TypeExpr.Like.refl : (t : TypeExpr) → t.Like t
  | .path segments offset => .path segments offset offset
  | .apply ctor args offset fragment => .apply_of_forall₂ ctor offset offset fragment fragment (reflArgs args)
  | .tuple elems => .tuple_of_forall₂ (reflElems elems)
  | .record fields => .record_of_forall₂ (reflFields fields)

theorem TypeExpr.Like.reflArgs : (args : List TypeArg) → List.Forall₂ TypeArg.Like args args
  | [] => .nil
  | .type t :: args => .cons ⟨trivial, by rintro _ _ ⟨⟩ ⟨⟩; exact refl t⟩ (reflArgs args)
  | .doc text :: args => .cons ⟨rfl, nofun⟩ (reflArgs args)

theorem TypeExpr.Like.reflElems : (elems : List TypeExpr) → List.Forall₂ TypeExpr.Like elems elems
  | [] => .nil
  | t :: elems => .cons (refl t) (reflElems elems)

theorem TypeExpr.Like.reflFields : (fields : List FieldExpr) → List.Forall₂ FieldExpr.Like fields fields
  | [] => .nil
  | (_, t) :: fields => .cons ⟨rfl, refl t⟩ (reflFields fields)

end

theorem DeclExpr.Like.refl (decl : DeclExpr) : decl.Like decl := by
  cases decl with
  | «alias» name t => exact .alias name (.refl t)
  | struct name fields => exact .struct name (TypeExpr.Like.reflFields fields)
  | sum name variants =>
    refine .sum name (List.forall₂_same.2 fun v _ => ?_)
    exact ⟨rfl, TypeExpr.Like.reflFields v.2⟩
  | table name items =>
    refine .table name (List.forall₂_same.2 fun item _ => ?_)
    cases item with
    | ob names => exact .ob names
    | hom name dom codom => exact .hom name dom codom
    | attr name dom codom => exact .attr name dom codom
    | attrType name t => exact .attrType name (.refl t)

/-! ### Tokens of the same kinds -/

section

variable {α : Type}

def kinds (ts : List Token) : List TokenKind := ts.map Token.kind

theorem kinds_eq_cons {us : List Token} {t : Token} {ts : List Token} (h : kinds us = kinds (t :: ts)) :
    ∃ u us', us = u :: us' ∧ u.kind = t.kind ∧ kinds us' = kinds ts :=
  List.map_eq_cons_iff.1 h

theorem kinds_eq_append {us ts ts' : List Token} (h : kinds us = kinds (ts ++ ts')) :
    ∃ vs vs', us = vs ++ vs' ∧ kinds vs = kinds ts ∧ kinds vs' = kinds ts' := by
  rw [kinds, kinds, List.map_append] at h
  exact List.map_eq_append_iff.1 h

theorem kinds_eq_nil {us : List Token} (h : kinds us = kinds []) : us = [] := List.map_eq_nil_iff.1 h

/-- What tokens stand for by the one rule, tokens of the same kinds stand for by the other, up to `L`. -/
def Carries (G H : Rule α) (L : α → α → Prop) : Prop :=
  ∀ ts a us, G ts a → kinds us = kinds ts → ∃ b, H us b ∧ L a b

variable {G H : Rule α} {L : α → α → Prop}

theorem Word.carries : Carries Word Word Eq := by
  rintro _ s us ⟨ht⟩ hk
  obtain ⟨u, _, rfl, hu, hk⟩ := kinds_eq_cons hk
  obtain rfl := kinds_eq_nil hk
  exact ⟨s, .mk (hu.trans ht), rfl⟩

theorem After.carries (kind : TokenKind) (h : Carries G H L) : Carries (After kind G) (After kind H) L := by
  rintro _ a us ⟨ht, hg⟩ hk
  obtain ⟨u, us, rfl, hu, hk⟩ := kinds_eq_cons hk
  obtain ⟨b, hb, hl⟩ := h _ a us hg hk
  exact ⟨b, .mk (hu.trans ht) hb, hl⟩

theorem Repeated.carries (h : Carries G H L) : Carries (Repeated G) (Repeated H) (List.Forall₂ L) := by
  intro ts as us hr hk
  induction hr generalizing us with
  | nil =>
    obtain rfl := kinds_eq_nil hk
    exact ⟨[], .nil, .nil⟩
  | cons hg _ ih =>
    obtain ⟨vs, vs', rfl, hk, hk'⟩ := kinds_eq_append hk
    obtain ⟨b, hb, hl⟩ := h _ _ vs hg hk
    obtain ⟨bs, hbs, hls⟩ := ih vs' hk'
    exact ⟨b :: bs, .cons hb hbs, .cons hl hls⟩

/-- Names are the same, one by one. -/
theorem Repeated.carries_words {k : TokenKind} {ts us : List Token} {names : List String}
    (h : Repeated (After k Word) ts names) (hk : kinds us = kinds ts) : Repeated (After k Word) us names := by
  obtain ⟨names', h', hl⟩ := Repeated.carries (After.carries k Word.carries) ts names us h hk
  rw [List.forall₂_eq_eq_eq] at hl
  exact hl ▸ h'

theorem Enclosed.carries (close : TokenKind) (h : Carries G H L) :
    Carries (Enclosed close G) (Enclosed close H) fun r s => List.Forall₂ L r.1 s.1 ∧ r.2 = s.2 := by
  intro ts r us hr hk
  induction hr generalizing us with
  | none ht =>
    obtain ⟨u, _, rfl, hu, hk⟩ := kinds_eq_cons hk
    obtain rfl := kinds_eq_nil hk
    exact ⟨([], true), .none (hu.trans ht), .nil, rfl⟩
  | last hg ht =>
    obtain ⟨vs, vs', rfl, hk₁, hk₂⟩ := kinds_eq_append hk
    obtain ⟨u, _, rfl, hu, hk₃⟩ := kinds_eq_cons hk₂
    obtain rfl := kinds_eq_nil hk₃
    obtain ⟨b, hb, hl⟩ := h _ _ vs hg hk₁
    exact ⟨([b], false), .last hb (hu.trans ht), .cons hl .nil, rfl⟩
  | more hg ht _ ih =>
    obtain ⟨vs, vs', rfl, hk₁, hk₂⟩ := kinds_eq_append hk
    obtain ⟨u, us', rfl, hu, hk₃⟩ := kinds_eq_cons hk₂
    obtain ⟨b, hb, hl⟩ := h _ _ vs hg hk₁
    obtain ⟨⟨bs, commas⟩, hbs, hls, rfl⟩ := ih us' hk₃
    exact ⟨(b :: bs, _), .more hb (hu.trans ht) hbs, .cons hl hls, rfl⟩

end

section

variable {G H : Rule TypeExpr}

theorem FieldForm.carries (h : Carries G H TypeExpr.Like) :
    Carries (FieldForm G) (FieldForm H) FieldExpr.Like := by
  intro ts f us hf hk
  cases hf with
  | named ht hc hg =>
    obtain ⟨u, us, rfl, hu, hk⟩ := kinds_eq_cons hk
    obtain ⟨v, us, rfl, hv, hk⟩ := kinds_eq_cons hk
    obtain ⟨ty, hty, hl⟩ := h _ _ us hg hk
    exact ⟨_, .named (hu.trans ht) (hv.trans hc) hty, rfl, hl⟩
  | plain hg =>
    obtain ⟨ty, hty, hl⟩ := h _ _ us hg hk
    exact ⟨_, .plain hty, rfl, hl⟩

theorem ArgForm.carries (h : Carries G H TypeExpr.Like) : Carries (ArgForm G) (ArgForm H) TypeArg.Like := by
  intro ts a us ha hk
  cases ha with
  | doc ht =>
    obtain ⟨u, _, rfl, hu, hk⟩ := kinds_eq_cons hk
    obtain rfl := kinds_eq_nil hk
    exact ⟨_, .doc (hu.trans ht), rfl, nofun⟩
  | type hg =>
    obtain ⟨ty, hty, hl⟩ := h _ _ us hg hk
    refine ⟨_, .type hty, trivial, ?_⟩
    rintro _ _ ⟨⟩ ⟨⟩
    exact hl

theorem TypeForm.carries (source source' : List Char) (h : Carries G H TypeExpr.Like) :
    Carries (TypeForm source G) (TypeForm source' H) TypeExpr.Like := by
  intro ts ty us ht hk
  cases ht with
  | path ht hr =>
    obtain ⟨u, us, rfl, hu, hk⟩ := kinds_eq_cons hk
    exact ⟨_, .path (hu.trans ht) (hr.carries_words hk), .path _ _ _⟩
  | apply ht hp hg =>
    obtain ⟨u, us, rfl, hu, hk⟩ := kinds_eq_cons hk
    obtain ⟨v, us, rfl, hv, hk⟩ := kinds_eq_cons hk
    obtain ⟨⟨args, commas⟩, hargs, hl, rfl⟩ := Enclosed.carries _ (ArgForm.carries h) _ _ us hg hk
    exact ⟨_, .apply (hu.trans ht) (hv.trans hp) hargs, .apply_of_forall₂ _ _ _ _ _ hl⟩
  | group hp hg =>
    obtain ⟨u, us, rfl, hu, hk⟩ := kinds_eq_cons hk
    obtain ⟨⟨elems, commas⟩, helems, hl, rfl⟩ := Enclosed.carries _ h _ _ us hg hk
    obtain ⟨ty', _, hty, hnil, rfl⟩ := List.forall₂_cons_left_iff.1 hl
    obtain rfl := List.forall₂_nil_left_iff.1 hnil
    exact ⟨ty', .group (hu.trans hp) helems, hty⟩
  | tuple hp hg hne =>
    obtain ⟨u, us, rfl, hu, hk⟩ := kinds_eq_cons hk
    obtain ⟨⟨elems, commas⟩, helems, hl, rfl⟩ := Enclosed.carries _ h _ _ us hg hk
    refine ⟨_, .tuple (hu.trans hp) helems fun t he => ?_, .tuple_of_forall₂ hl⟩
    cases he
    obtain ⟨x, _, -, hnil, hx⟩ := List.forall₂_cons_right_iff.1 hl
    obtain rfl := List.forall₂_nil_right_iff.1 hnil
    exact hne x (Prod.ext hx rfl)
  | record hb hg =>
    obtain ⟨u, us, rfl, hu, hk⟩ := kinds_eq_cons hk
    obtain ⟨⟨fields, commas⟩, hfields, hl, rfl⟩ := Enclosed.carries _ (FieldForm.carries h) _ _ us hg hk
    exact ⟨_, .record (hu.trans hb) hfields, .record_of_forall₂ hl⟩

end

theorem Types.carries (source source' : List Char) (levels : Nat) :
    Carries (Types source levels) (Types source' levels) TypeExpr.Like := by
  induction levels with
  | zero => exact fun _ _ _ h => h.elim
  | succ levels ih => exact TypeForm.carries source source' ih

theorem FieldsForm.carries (source source' : List Char) (close : TokenKind) :
    Carries (FieldsForm source close) (FieldsForm source' close) fun r s =>
      List.Forall₂ FieldExpr.Like r.1 s.1 ∧ r.2 = s.2 :=
  Enclosed.carries close (FieldForm.carries (Types.carries source source' maxTypeNesting))

theorem VariantForm.carries (source source' : List Char) :
    Carries (VariantForm source) (VariantForm source') VariantExpr.Like := by
  intro ts v us hv hk
  cases hv with
  | plain ht =>
    obtain ⟨u, _, rfl, hu, hk⟩ := kinds_eq_cons hk
    obtain rfl := kinds_eq_nil hk
    exact ⟨_, .plain (hu.trans ht), rfl, .nil⟩
  | fields ht hp hg =>
    obtain ⟨u, us, rfl, hu, hk⟩ := kinds_eq_cons hk
    obtain ⟨w, us, rfl, hw, hk⟩ := kinds_eq_cons hk
    obtain ⟨⟨fields, commas⟩, hf, hl, rfl⟩ := FieldsForm.carries source source' _ _ _ us hg hk
    exact ⟨_, .fields (hu.trans ht) (hw.trans hp) hf, rfl, hl⟩

theorem ArrowForm.carries : Carries ArrowForm ArrowForm Eq := by
  rintro _ _ us ⟨h₁, h₂, h₃, h₄, h₅⟩ hk
  obtain ⟨u₁, us, rfl, hu₁, hk⟩ := kinds_eq_cons hk
  obtain ⟨u₂, us, rfl, hu₂, hk⟩ := kinds_eq_cons hk
  obtain ⟨u₃, us, rfl, hu₃, hk⟩ := kinds_eq_cons hk
  obtain ⟨u₄, us, rfl, hu₄, hk⟩ := kinds_eq_cons hk
  obtain ⟨u₅, us, rfl, hu₅, hk⟩ := kinds_eq_cons hk
  obtain rfl := kinds_eq_nil hk
  exact ⟨_, .mk (hu₁.trans h₁) (hu₂.trans h₂) (hu₃.trans h₃) (hu₄.trans h₄) (hu₅.trans h₅), rfl⟩

theorem TableItemForm.carries (source source' : List Char) :
    Carries (TableItemForm source) (TableItemForm source') TableItem.Like := by
  intro ts item us h hk
  obtain ⟨word, us, rfl, hw, hk⟩ : ∃ word us', us = word :: us' ∧ word.kind = nextKind ts ∧
      kinds us' = kinds ts.tail := by
    cases h <;> exact kinds_eq_cons hk
  cases h with
  | ob ht hn hr =>
    obtain ⟨n, us, rfl, hu, hk⟩ := kinds_eq_cons hk
    exact ⟨_, .ob (hw.trans ht) (hu.trans hn) (hr.carries_words hk), .ob _⟩
  | hom ht hg =>
    obtain ⟨_, ha, rfl⟩ := ArrowForm.carries _ _ us hg hk
    exact ⟨_, .hom (hw.trans ht) ha, .hom _ _ _⟩
  | attr ht hg =>
    obtain ⟨_, ha, rfl⟩ := ArrowForm.carries _ _ us hg hk
    exact ⟨_, .attr (hw.trans ht) ha, .attr _ _ _⟩
  | attrType ht hn he hg =>
    obtain ⟨n, us, rfl, hu, hk⟩ := kinds_eq_cons hk
    obtain ⟨eq, us, rfl, hv, hk⟩ := kinds_eq_cons hk
    obtain ⟨ty, hty, hl⟩ := Types.carries source source' _ _ _ us hg hk
    exact ⟨_, .attrType (hw.trans ht) (hu.trans hn) (hv.trans he) hty, .attrType _ hl⟩

theorem Optionally.carries {k : TokenKind} {ts us : List Token} (h : Optionally k ts)
    (hk : kinds us = kinds ts) : Optionally k us := by
  rcases h with rfl | ⟨t, rfl, ht⟩
  · exact .inl (kinds_eq_nil hk)
  · obtain ⟨u, _, rfl, hu, hk⟩ := kinds_eq_cons hk
    obtain rfl := kinds_eq_nil hk
    exact .inr ⟨u, rfl, hu.trans ht⟩

theorem DeclForm.carries (source source' : List Char) :
    Carries (DeclForm source) (DeclForm source') DeclExpr.Like := by
  intro ts decl us h hk
  cases h with
  | «alias» h₁ h₂ h₃ hg =>
    obtain ⟨u₁, us, rfl, hu₁, hk⟩ := kinds_eq_cons hk
    obtain ⟨u₂, us, rfl, hu₂, hk⟩ := kinds_eq_cons hk
    obtain ⟨u₃, us, rfl, hu₃, hk⟩ := kinds_eq_cons hk
    obtain ⟨ty, hty, hl⟩ := Types.carries source source' _ _ _ us hg hk
    exact ⟨_, .alias (hu₁.trans h₁) (hu₂.trans h₂) (hu₃.trans h₃) hty, .alias _ hl⟩
  | struct h₁ h₂ h₃ hg =>
    obtain ⟨u₁, us, rfl, hu₁, hk⟩ := kinds_eq_cons hk
    obtain ⟨u₂, us, rfl, hu₂, hk⟩ := kinds_eq_cons hk
    obtain ⟨u₃, us, rfl, hu₃, hk⟩ := kinds_eq_cons hk
    obtain ⟨⟨fields, commas⟩, hf, hl, rfl⟩ := FieldsForm.carries source source' _ _ _ us hg hk
    exact ⟨_, .struct (hu₁.trans h₁) (hu₂.trans h₂) (hu₃.trans h₃) hf, .struct _ hl⟩
  | sum h₁ h₂ h₃ hbar hg hgs hclose =>
    obtain ⟨u₁, us, rfl, hu₁, hk⟩ := kinds_eq_cons hk
    obtain ⟨u₂, us, rfl, hu₂, hk⟩ := kinds_eq_cons hk
    obtain ⟨u₃, us, rfl, hu₃, hk⟩ := kinds_eq_cons hk
    obtain ⟨us, last, rfl, hk, hlast⟩ := kinds_eq_append hk
    obtain ⟨us, vs, rfl, hk, hvs⟩ := kinds_eq_append hk
    obtain ⟨bar, us, rfl, hkbar, hus⟩ := kinds_eq_append hk
    obtain ⟨u₄, _, rfl, hu₄, hnil⟩ := kinds_eq_cons hlast
    obtain rfl := kinds_eq_nil hnil
    obtain ⟨first, hfirst, hl⟩ := VariantForm.carries source source' _ _ us hg hus
    obtain ⟨rest, hrest, hls⟩ :=
      Repeated.carries (After.carries _ (VariantForm.carries source source')) _ _ vs hgs hvs
    exact ⟨_, .sum (hu₁.trans h₁) (hu₂.trans h₂) (hu₃.trans h₃) (hbar.carries hkbar) hfirst hrest
      (hu₄.trans hclose), .sum _ (.cons hl hls)⟩
  | table h₁ h₂ h₃ hg hclose =>
    obtain ⟨u₁, us, rfl, hu₁, hk⟩ := kinds_eq_cons hk
    obtain ⟨u₂, us, rfl, hu₂, hk⟩ := kinds_eq_cons hk
    obtain ⟨u₃, us, rfl, hu₃, hk⟩ := kinds_eq_cons hk
    obtain ⟨us, last, rfl, hitem, hlast⟩ := kinds_eq_append hk
    obtain ⟨u₄, _, rfl, hu₄, hnil⟩ := kinds_eq_cons hlast
    obtain rfl := kinds_eq_nil hnil
    obtain ⟨items, hitems, hl⟩ :=
      Repeated.carries (TableItemForm.carries source source') _ _ us hg hitem
    exact ⟨_, .table (hu₁.trans h₁) (hu₂.trans h₂) (hu₃.trans h₃) hitems (hu₄.trans hclose), .table _ hl⟩

end Wireform.Source
