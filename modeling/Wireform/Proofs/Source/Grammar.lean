import Mathlib
import Wireform.Source.Parser

/-!
# The grammar of the declaration language

Each form of the language is a rule between tokens and what they stand for. Lists may have a comma after
their last item and may be empty, parentheses around a single type group, and any constructor may have
texts among its arguments. A type is formed level by level, from types of the level below.

Whether a text has a form depends on the kinds of its tokens only. Their places get into the tree, and the
source does where a message quotes it.
-/

namespace Wireform.Source

/-- A way to write something. -/
abbrev Rule (α : Type) := List Token → α → Prop

section

variable {α : Type}

/-- An identifier. -/
inductive Word : Rule String
  | mk {t : Token} {s : String} : t.kind = .ident s → Word [t] s

/-- Something with a token of the given kind in front. -/
inductive After (kind : TokenKind) (G : Rule α) : Rule α
  | mk {t : Token} {ts : List Token} {a : α} : t.kind = kind → G ts a → After kind G (t :: ts) a

/-- One after the other. -/
inductive Repeated (G : Rule α) : Rule (List α)
  | nil : Repeated G [] []
  | cons {ts us : List Token} {a : α} {as : List α} :
    G ts a → Repeated G us as → Repeated G (ts ++ us) (a :: as)

/-- Items with commas between them up to a closing token, and whether every item has its comma. -/
inductive Enclosed (close : TokenKind) (G : Rule α) : Rule (List α × Bool)
  | none {t : Token} : t.kind = close → Enclosed close G [t] ([], true)
  | last {ts : List Token} {t : Token} {a : α} :
    G ts a → t.kind = close → Enclosed close G (ts ++ [t]) ([a], false)
  | more {ts us : List Token} {t : Token} {a : α} {as : List α} {commas : Bool} :
    G ts a → t.kind = .comma → Enclosed close G us (as, commas) →
      Enclosed close G (ts ++ t :: us) (a :: as, commas)

end

/-! ### Types -/

/-- The end of the last token. -/
def endOf (behind : Nat) (ts : List Token) : Nat := ts.foldl (fun _ t => t.stop) behind

/-- With a name, or without one. -/
inductive FieldForm (G : Rule TypeExpr) : Rule FieldExpr
  | named {t colons : Token} {ts : List Token} {name : String} {ty : TypeExpr} :
    t.kind = .ident name → colons.kind = .colons → G ts ty →
      FieldForm G (t :: colons :: ts) (some name, ty)
  | plain {ts : List Token} {ty : TypeExpr} : G ts ty → FieldForm G ts (none, ty)

inductive ArgForm (G : Rule TypeExpr) : Rule TypeArg
  | doc {t : Token} {text : String} : t.kind = .str text → ArgForm G [t] (.doc text)
  | type {ts : List Token} {ty : TypeExpr} : G ts ty → ArgForm G ts (.type ty)

/-- A type whose parts are formed by `G`. -/
inductive TypeForm (source : List Char) (G : Rule TypeExpr) : Rule TypeExpr
  | path {t : Token} {ts : List Token} {name : String} {names : List String} :
    t.kind = .ident name → Repeated (After .dot Word) ts names →
      TypeForm source G (t :: ts) (.path (name :: names) t.start)
  | apply {t paren : Token} {ts : List Token} {ctor : String} {args : List TypeArg} {commas : Bool} :
    t.kind = .ident ctor → paren.kind = .lparen → Enclosed .rparen (ArgForm G) ts (args, commas) →
      TypeForm source G (t :: paren :: ts)
        (.apply ctor args t.start (String.ofList (sliceFrom t.start (endOf paren.stop ts) 0 source)))
  /-- Without a comma the parentheses only group. -/
  | group {paren : Token} {ts : List Token} {ty : TypeExpr} :
    paren.kind = .lparen → Enclosed .rparen G ts ([ty], false) → TypeForm source G (paren :: ts) ty
  | tuple {paren : Token} {ts : List Token} {elems : List TypeExpr} {commas : Bool} :
    paren.kind = .lparen → Enclosed .rparen G ts (elems, commas) → (∀ t, (elems, commas) ≠ ([t], false)) →
      TypeForm source G (paren :: ts) (.tuple elems)
  | record {brace : Token} {ts : List Token} {fields : List FieldExpr} {commas : Bool} :
    brace.kind = .lbrace → Enclosed .rbrace (FieldForm G) ts (fields, commas) →
      TypeForm source G (brace :: ts) (.record fields)

/-- Types of at most so many levels. -/
def Types (source : List Char) : Nat → Rule TypeExpr
  | 0 => fun _ _ => False
  | levels + 1 => TypeForm source (Types source levels)

/-! ### Declarations -/

abbrev FieldsForm (source : List Char) (close : TokenKind) : Rule (List FieldExpr × Bool) :=
  Enclosed close (FieldForm (Types source maxTypeNesting))

inductive VariantForm (source : List Char) : Rule VariantExpr
  | plain {t : Token} {tag : String} : t.kind = .ident tag → VariantForm source [t] (tag, [])
  | fields {t paren : Token} {ts : List Token} {tag : String} {fields : List FieldExpr} {commas : Bool} :
    t.kind = .ident tag → paren.kind = .lparen → FieldsForm source .rparen ts (fields, commas) →
      VariantForm source (t :: paren :: ts) (tag, fields)

/-- `name :: Dom -> Codom` -/
inductive ArrowForm : Rule (String × String × String)
  | mk {n colons d arrow c : Token} {name dom codom : String} :
    n.kind = .ident name → colons.kind = .colons → d.kind = .ident dom → arrow.kind = .arrow →
      c.kind = .ident codom → ArrowForm [n, colons, d, arrow, c] (name, dom, codom)

inductive TableItemForm (source : List Char) : Rule TableItem
  | ob {word n : Token} {ts : List Token} {name : String} {names : List String} :
    word.kind = .ident "ob" → n.kind = .ident name → Repeated (After .comma Word) ts names →
      TableItemForm source (word :: n :: ts) (.ob (name :: names))
  | hom {word : Token} {ts : List Token} {name dom codom : String} :
    word.kind = .ident "hom" → ArrowForm ts (name, dom, codom) →
      TableItemForm source (word :: ts) (.hom name dom codom)
  | attr {word : Token} {ts : List Token} {name dom codom : String} :
    word.kind = .ident "attr" → ArrowForm ts (name, dom, codom) →
      TableItemForm source (word :: ts) (.attr name dom codom)
  | attrType {word n eq : Token} {ts : List Token} {name : String} {ty : TypeExpr} :
    word.kind = .ident "attrtype" → n.kind = .ident name → eq.kind = .eq →
      Types source maxTypeNesting ts ty → TableItemForm source (word :: n :: eq :: ts) (.attrType name ty)

/-- A token that may be left out. -/
def Optionally (kind : TokenKind) (ts : List Token) : Prop := ts = [] ∨ ∃ t, ts = [t] ∧ t.kind = kind

inductive DeclForm (source : List Char) : Rule DeclExpr
  | alias {word n eq : Token} {ts : List Token} {name : String} {ty : TypeExpr} :
    word.kind = .ident "alias" → n.kind = .ident name → eq.kind = .eq →
      Types source maxTypeNesting ts ty → DeclForm source (word :: n :: eq :: ts) (.alias name ty)
  | struct {word n brace : Token} {ts : List Token} {name : String} {fields : List FieldExpr}
      {commas : Bool} :
    word.kind = .ident "struct" → n.kind = .ident name → brace.kind = .lbrace →
      FieldsForm source .rbrace ts (fields, commas) →
        DeclForm source (word :: n :: brace :: ts) (.struct name fields)
  | sum {word n brace close : Token} {bar ts us : List Token} {name : String} {first : VariantExpr}
      {rest : List VariantExpr} :
    word.kind = .ident "sum" → n.kind = .ident name → brace.kind = .lbrace → Optionally .pipe bar →
      VariantForm source ts first → Repeated (After .pipe (VariantForm source)) us rest →
        close.kind = .rbrace →
          DeclForm source (word :: n :: brace :: (bar ++ ts ++ us ++ [close])) (.sum name (first :: rest))
  | table {word n brace close : Token} {ts : List Token} {name : String} {items : List TableItem} :
    word.kind = .ident "table" → n.kind = .ident name → brace.kind = .lbrace →
      Repeated (TableItemForm source) ts items → close.kind = .rbrace →
        DeclForm source (word :: n :: brace :: (ts ++ [close])) (.table name items)

inductive FileForm (source : List Char) : Rule SourceFile
  | mk {word n : Token} {ts us : List Token} {name : String} {imports : List String}
      {decls : List DeclExpr} :
    word.kind = .ident "module" → n.kind = .ident name →
      Repeated (After (.ident "import") Word) ts imports → Repeated (DeclForm source) us decls →
        FileForm source (word :: n :: (ts ++ us)) ⟨name, imports, decls⟩

/-! ### First tokens -/

/-- The kind of the next token. -/
def nextKind (ts : List Token) : TokenKind :=
  match ts with
  | [] => .eof
  | t :: _ => t.kind

theorem nextKind_append {ts : List Token} (h : ts ≠ []) (rest : List Token) :
    nextKind (ts ++ rest) = nextKind ts := by
  cases ts with
  | nil => exact absurd rfl h
  | cons t ts => rfl

section

variable {α : Type} {k : TokenKind}

theorem Repeated.next {G : Rule α} {ts : List Token} {as : List α} (h : Repeated (After k G) ts as) :
    ts = [] ∨ ts ≠ [] ∧ nextKind ts = k := by
  cases h with
  | nil => exact .inl rfl
  | cons ha _ =>
    obtain ⟨ht, -⟩ := ha
    exact .inr ⟨by simp, ht⟩

theorem Repeated.length_le {G : Rule α} {ts : List Token} {as : List α} (h : Repeated (After k G) ts as) :
    as.length ≤ ts.length := by
  induction h with
  | nil => exact Nat.le_refl 0
  | cons ha _ ih =>
    obtain ⟨-, -⟩ := ha
    simp only [List.length_cons, List.length_append]
    omega

/-- What every text of a rule starts with. -/
def Starts (G : Rule α) (start : TokenKind → Prop) : Prop :=
  ∀ ts a, G ts a → ts ≠ [] ∧ start (nextKind ts)

theorem Repeated.length_le_of_starts {G : Rule α} {start : TokenKind → Prop} (hs : Starts G start)
    {ts : List Token} {as : List α} (h : Repeated G ts as) : as.length ≤ ts.length := by
  induction h with
  | nil => exact Nat.le_refl 0
  | cons ha _ ih =>
    have := List.length_pos_of_ne_nil (hs _ _ ha).1
    simp only [List.length_cons, List.length_append]
    omega

end

def StartsType (next : TokenKind) : Prop := (∃ name, next = .ident name) ∨ next = .lparen ∨ next = .lbrace

theorem TypeForm.starts (source : List Char) (G : Rule TypeExpr) : Starts (TypeForm source G) StartsType := by
  intro ts ty h
  cases h with
  | path ht _ => exact ⟨by simp, .inl ⟨_, ht⟩⟩
  | apply ht _ _ => exact ⟨by simp, .inl ⟨_, ht⟩⟩
  | group hp _ => exact ⟨by simp, .inr (.inl hp)⟩
  | tuple hp _ _ => exact ⟨by simp, .inr (.inl hp)⟩
  | record hb _ => exact ⟨by simp, .inr (.inr hb)⟩

theorem Types.starts (source : List Char) (levels : Nat) : Starts (Types source levels) StartsType := by
  cases levels with
  | zero => exact fun _ _ h => h.elim
  | succ levels => exact TypeForm.starts source _

theorem FieldForm.starts {G : Rule TypeExpr} (h : Starts G StartsType) : Starts (FieldForm G) StartsType := by
  intro ts f hf
  cases hf with
  | named ht _ _ => exact ⟨by simp, .inl ⟨_, ht⟩⟩
  | plain hg => exact h _ _ hg

theorem ArgForm.starts {G : Rule TypeExpr} (h : Starts G StartsType) :
    Starts (ArgForm G) fun next => (∃ text, next = .str text) ∨ StartsType next := by
  intro ts a ha
  cases ha with
  | doc ht => exact ⟨by simp, .inl ⟨_, ht⟩⟩
  | type hg => exact ⟨(h _ _ hg).1, .inr (h _ _ hg).2⟩

theorem VariantForm.starts (source : List Char) :
    Starts (VariantForm source) fun next => ∃ tag, next = .ident tag := by
  intro ts v h
  cases h with
  | plain hk | fields hk _ _ => exact ⟨by simp, _, hk⟩

theorem TableItemForm.starts (source : List Char) :
    Starts (TableItemForm source) fun next => ∃ word, next = .ident word := by
  intro ts item h
  cases h with
  | ob hk _ _ | hom hk _ | attr hk _ | attrType hk _ _ _ => exact ⟨by simp, _, hk⟩

theorem DeclForm.starts (source : List Char) :
    Starts (DeclForm source) fun next => ∃ word, next = .ident word ∧ word ≠ "import" := by
  intro ts decl h
  cases h with
  | «alias» hk _ _ _ | struct hk _ _ _ | sum hk _ _ _ _ _ _ | table hk _ _ _ _ =>
    exact ⟨by simp, _, hk, by simp⟩

/-- A name in front of a type is not followed by the colons of a field. -/
def NotNamed (G : Rule TypeExpr) : Prop :=
  ∀ t ts ty name, G (t :: ts) ty → t.kind = .ident name → nextKind ts ≠ .colons

theorem TypeForm.notNamed (source : List Char) (G : Rule TypeExpr) : NotNamed (TypeForm source G) := by
  intro t ts ty name h ht hc
  cases h with
  | path _ hr =>
    rcases hr.next with rfl | ⟨-, hk⟩
    · cases hc
    · rw [hk] at hc
      cases hc
  | @apply _ paren _ _ _ _ _ hp _ =>
    have hc : paren.kind = .colons := hc
    rw [hp] at hc
    cases hc
  | group hp _ | tuple hp _ _ | record hp _ =>
    rw [hp] at ht
    cases ht

theorem Types.notNamed (source : List Char) (levels : Nat) : NotNamed (Types source levels) := by
  cases levels with
  | zero => exact fun _ _ _ _ h => h.elim
  | succ levels => exact TypeForm.notNamed source _

end Wireform.Source
