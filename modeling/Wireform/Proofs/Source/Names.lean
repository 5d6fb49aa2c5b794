import Mathlib
import Wireform.Source.Resolve
import Wireform.Source.Parser
import Wireform.Proofs.Sequence

/-!
# Names in a source text

Every name that a parsed declaration introduces, be it of a type, a tag, a field or a member of a
table, is an identifier. A parser takes tokens from the front and makes none up; `Yields` carries that
through the parsers together with what they return.
-/

namespace Wireform.Source

/-- A letter or an underscore, and then letters, underscores and digits. -/
def Identifier (name : String) : Prop :=
  ∃ c cs, name.toList = c :: cs ∧ isIdentStart c = true ∧ ∀ x ∈ cs, isIdentContinue x = true

theorem identifier_iff {name : String} :
    Identifier name ↔ name.toList.head?.any isIdentStart ∧ name.toList.tail.all isIdentContinue := by
  unfold Identifier
  cases name.toList with
  | nil => simp
  | cons c cs => simp

instance (name : String) : Decidable (Identifier name) := decidable_of_iff' _ identifier_iff

theorem Identifier.not_mem {name : String} (h : Identifier name) {c : Char}
    (hc : isIdentContinue c = false) : c ∉ name.toList := by
  obtain ⟨first, rest, he, hf, hr⟩ := h
  rw [he, List.mem_cons, not_or]
  constructor
  · rintro rfl
    simp [isIdentContinue, hf] at hc
  · intro hm
    rw [hr c hm] at hc
    cases hc

def Plain (name : String) : Prop := '.' ∉ name.toList

theorem Identifier.plain {name : String} (h : Identifier name) : Plain name := h.not_mem (by decide)

def Token.Plain (t : Token) : Prop := ∀ s, t.kind = .ident s → Identifier s

/-! ### The lexer -/

/-- A word in the making is an identifier, its last character first. -/
def Pending.Plain : Pending → Prop
  | .word _ raw => Identifier (String.ofList raw.reverse)
  | _ => True

theorem Pending.plain_word {start : Nat} {c : Char} (h : isIdentStart c = true) :
    (Pending.word start [c]).Plain := ⟨c, [], by simp, h, by simp⟩

theorem Pending.Plain.cons {start : Nat} {c : Char} {raw : List Char}
    (h : (Pending.word start raw).Plain) (hc : isIdentContinue c = true) :
    (Pending.word start (c :: raw)).Plain := by
  obtain ⟨first, rest, he, hf, hr⟩ := h
  rw [String.toList_ofList] at he
  refine ⟨first, rest ++ [c], by simp [he], hf, ?_⟩
  exact List.forall_mem_append.2 ⟨hr, by simpa using hc⟩

theorem wordToken_plain {start stop : Nat} {raw : List Char}
    (h : (Pending.word start raw).Plain) : (wordToken start stop raw).Plain := by
  rintro s ⟨⟩
  exact h

theorem singleToken?_ne_ident {c : Char} {kind : TokenKind} (h : singleToken? c = some kind)
    (s : String) : kind ≠ .ident s := by
  rintro rfl
  unfold singleToken? at h
  repeat' split at h
  all_goals cases h

theorem begin_plain {pos : Nat} {c : Char} {tokens : List Token} {next : Pending}
    (h : begin pos c = .ok (tokens, next)) : (∀ t ∈ tokens, t.Plain) ∧ next.Plain := by
  unfold begin at h
  split at h
  · cases h; simp [Pending.Plain]
  split at h
  · cases h; simp [Pending.Plain]
  split at h
  · cases h; simp [Pending.Plain]
  split at h
  · cases h; simp [Pending.Plain]
  split at h
  · rename_i hc
    cases h
    exact ⟨by simp, Pending.plain_word hc⟩
  split at h
  · rename_i kind hk
    cases h
    refine ⟨fun t ht s hs => ?_, trivial⟩
    rw [List.mem_singleton.1 ht] at hs
    exact absurd hs (singleToken?_ne_ident hk s)
  · cases h

theorem step_plain {pending next : Pending} {pos : Nat} {c : Char} {tokens : List Token}
    (hp : pending.Plain) (h : step pending pos c = .ok (tokens, next)) :
    (∀ t ∈ tokens, t.Plain) ∧ next.Plain := by
  unfold step at h
  split at h
  · exact begin_plain h
  · cases h
    refine ⟨by simp, ?_⟩
    split <;> trivial
  · split at h
    · rename_i hc
      cases h
      exact ⟨by simp, hp.cons hc⟩
    · obtain ⟨⟨tokens', next'⟩, hb, h⟩ := bind_eq_ok.1 h
      cases h
      obtain ⟨ht, hn⟩ := begin_plain hb
      exact ⟨List.forall_mem_cons.2 ⟨wordToken_plain hp, ht⟩, hn⟩
  · split at h
    · rename_i kind hk
      cases h
      refine ⟨fun t ht s hs => ?_, trivial⟩
      rw [List.mem_singleton.1 ht] at hs
      obtain rfl : kind = .ident s := hs
      unfold halfToken? at hk
      repeat' split at hk
      all_goals cases hk
    · cases h
  · split at h
    · cases h
      refine ⟨fun t ht s hs => ?_, trivial⟩
      rw [List.mem_singleton.1 ht] at hs
      cases hs
    split at h
    · cases h; exact ⟨by simp, trivial⟩
    · cases h; exact ⟨by simp, trivial⟩
  · split at h
    · cases h; exact ⟨by simp, trivial⟩
    · cases h

theorem finish_plain {pending : Pending} {pos : Nat} {tokens : List Token} (hp : pending.Plain)
    (h : finish pending pos = .ok tokens) : ∀ t ∈ tokens, t.Plain := by
  have heof : Token.Plain ⟨.eof, pos, pos⟩ := by rintro s ⟨⟩
  unfold finish at h
  split at h
  · cases h; simpa using heof
  · cases h; simpa using heof
  · cases h
    exact List.forall_mem_cons.2 ⟨wordToken_plain hp, by simpa using heof⟩
  all_goals cases h

theorem lexFrom_plain {pending : Pending} {pos : Nat} {cs : List Char} {tokens : List Token}
    (hp : pending.Plain) (h : lexFrom pending pos cs = .ok tokens) : ∀ t ∈ tokens, t.Plain := by
  induction cs generalizing pending pos tokens with
  | nil => exact finish_plain hp h
  | cons c cs ih =>
    unfold lexFrom at h
    split at h
    · cases h
    rename_i first next hs
    split at h
    · cases h
    rename_i rest hr
    cases h
    obtain ⟨ht, hn⟩ := step_plain hp hs
    exact List.forall_mem_append.2 ⟨ht, ih hn hr⟩

/-! ### The parser -/

/-- The words ahead are identifiers. -/
def Cursor.Plain (c : Cursor) : Prop := ∀ t ∈ c.ahead, t.Plain

theorem Cursor.ofSource_plain {src : String} {c : Cursor} (h : Cursor.ofSource src = .ok c) :
    c.Plain := by
  obtain ⟨tokens, ht, h⟩ := bind_eq_ok.1 h
  cases h
  exact @lexFrom_plain .blank _ _ _ trivial ht

theorem Cursor.advance_plain {c : Cursor} (h : c.Plain) : c.advance.Plain := by
  unfold Cursor.advance
  split
  · rename_i t ts ht
    split
    · exact h
    · exact fun t' ht' => h t' (by rw [ht]; exact List.mem_cons_of_mem _ ht')
  · exact h

theorem Cursor.token_plain {c : Cursor} (h : c.Plain) : c.token.Plain := by
  unfold Cursor.token
  cases ha : c.ahead with
  | nil => rintro s ⟨⟩
  | cons t ts => exact h t (by simp [ha])

/-- Whenever the parser succeeds with only identifiers ahead, what is left ahead has only identifiers,
and the result has the property. -/
def Yields {α : Type} (p : Parser α) (Q : α → Prop) : Prop :=
  ∀ c a c', c.Plain → p c = .ok a c' → Q a ∧ c'.Plain

namespace Yields

variable {α β : Type} {p : Parser α} {Q Q' : α → Prop} {f : α → Parser β} {R : β → Prop}

theorem pure {a : α} (h : Q a) : Yields (Pure.pure a) Q := by
  rintro c _ _ hc ⟨⟩
  exact ⟨h, hc⟩

theorem bind (hp : Yields p Q) (hf : ∀ a, Q a → Yields (f a) R) : Yields (p >>= f) R := by
  intro c b c'' hc h
  obtain ⟨a, c', ha, h⟩ := bind_run_eq_ok.1 h
  obtain ⟨hq, hc'⟩ := hp c a c' hc ha
  exact hf a hq c' b c'' hc' h

theorem throw (e : SourceError) : Yields (MonadExcept.throw e : Parser α) Q := by
  intro c a c' _ h
  cases h

theorem fail (why : Complaint) : Yields (Source.fail why : Parser α) Q := by
  intro c a c' _ h
  cases h

theorem get : Yields (MonadState.get : Parser Cursor) Cursor.Plain := by
  rintro c _ _ hc ⟨⟩
  exact ⟨hc, hc⟩

theorem ite {b : Prop} [Decidable b] {q : Parser α} (hp : Yields p Q) (hq : Yields q Q) :
    Yields (if b then p else q) Q := by
  split
  · exact hp
  · exact hq

end Yields

theorem peek_yields : Yields peek fun kind => ∀ s, kind = .ident s → Identifier s :=
  Yields.get.bind fun _ hc => .pure (Cursor.token_plain hc)

theorem advance_yields : Yields advance fun _ => True := by
  rintro c _ _ hc ⟨⟩
  exact ⟨trivial, Cursor.advance_plain hc⟩

theorem eat_yields (kind : TokenKind) : Yields (eat kind) fun _ => True :=
  peek_yields.bind fun _ _ => .ite (advance_yields.bind fun _ _ => .pure trivial) (.pure trivial)

theorem expect_yields (kind : TokenKind) : Yields (expect kind) fun _ => True :=
  (eat_yields kind).bind fun _ _ => .ite (.pure trivial) (.fail _)

theorem ident_yields : Yields ident Identifier := by
  refine peek_yields.bind fun kind hk => ?_
  split
  · exact advance_yields.bind fun _ _ => .pure (hk _ rfl)
  · exact .fail _

section

variable {α : Type} {more : Parser Bool} {item : Parser α} {Q : α → Prop}

theorem whileSome_yields (hm : Yields more fun _ => True) (hi : Yields item Q) (fuel : Nat) :
    Yields (whileSome more item fuel) fun xs => ∀ x ∈ xs, Q x := by
  induction fuel with
  | zero => exact .pure (by simp)
  | succ fuel ih =>
    refine hm.bind fun _ _ => .ite ?_ (.pure (by simp))
    exact hi.bind fun x hx => ih.bind fun xs hxs => .pure (List.forall_mem_cons.2 ⟨hx, hxs⟩)

theorem many_yields (hm : Yields more fun _ => True) (hi : Yields item Q) :
    Yields (many more item) fun xs => ∀ x ∈ xs, Q x :=
  Yields.get.bind fun _ _ => whileSome_yields hm hi _

theorem untilClose_yields (close : TokenKind) (hi : Yields item Q) (fuel : Nat) :
    Yields (untilClose close item fuel) fun r => ∀ x ∈ r.1, Q x := by
  induction fuel with
  | zero => exact .pure (by simp)
  | succ fuel ih =>
    refine (eat_yields close).bind fun _ _ => .ite (.pure (by simp)) ?_
    refine hi.bind fun x hx => (eat_yields _).bind fun _ _ => .ite ?_ ?_
    · exact ih.bind fun _ hxs => .pure (List.forall_mem_cons.2 ⟨hx, hxs⟩)
    · exact (expect_yields close).bind fun _ _ => .pure (by simpa using hx)

theorem delimited_yields (close : TokenKind) (hi : Yields item Q) :
    Yields (delimited close item) fun r => ∀ x ∈ r.1, Q x :=
  Yields.get.bind fun _ _ => untilClose_yields close hi _

end

/-! ### Types -/

/-- The names of fields in the type are identifiers, and so are the segments of paths. -/
inductive TypeExpr.Named : TypeExpr → Prop
  | path {segments : List String} {offset : Nat} :
    (∀ s ∈ segments, Identifier s) → Named (.path segments offset)
  | apply {ctor : String} {args : List TypeArg} {offset : Nat} {fragment : String} :
    (∀ t, TypeArg.type t ∈ args → Named t) → Named (.apply ctor args offset fragment)
  | tuple {elems : List TypeExpr} : (∀ t ∈ elems, Named t) → Named (.tuple elems)
  | record {fields : List (Option String × TypeExpr)} :
    (∀ f ∈ fields, ∀ name ∈ f.1, Identifier name) → (∀ f ∈ fields, Named f.2) →
      Named (.record fields)

def FieldExpr.Named (f : FieldExpr) : Prop := (∀ name ∈ f.1, Identifier name) ∧ f.2.Named

section

variable {type : Parser TypeExpr}

theorem parseField_yields (ht : Yields type TypeExpr.Named) :
    Yields (parseField type) FieldExpr.Named := by
  refine Yields.get.bind fun c hc => Yields.get.bind fun _ _ => ?_
  split
  · rename_i name hk _
    refine advance_yields.bind fun _ _ => advance_yields.bind fun _ _ => ht.bind fun t ht => ?_
    exact .pure ⟨by simpa using Cursor.token_plain hc name hk, ht⟩
  · exact ht.bind fun t ht => .pure ⟨by simp, ht⟩

theorem parseFields_yields (ht : Yields type TypeExpr.Named) (close : TokenKind) :
    Yields (parseFields type close) fun fs => ∀ f ∈ fs, FieldExpr.Named f :=
  (delimited_yields close (parseField_yields ht)).bind fun _ hf => .pure hf

theorem parseArg_yields (ht : Yields type TypeExpr.Named) :
    Yields (parseArg type) fun a => ∀ t, a = .type t → t.Named := by
  refine peek_yields.bind fun _ _ => ?_
  split
  · exact advance_yields.bind fun _ _ => .pure (by simp)
  · exact ht.bind fun t ht => .pure (by simpa using ht)

theorem parseTypeWith_yields (ht : Yields type TypeExpr.Named) :
    Yields (parseTypeWith type) TypeExpr.Named := by
  refine Yields.get.bind fun _ _ => peek_yields.bind fun kind hk => ?_
  split
  · rename_i name
    refine advance_yields.bind fun _ _ => (eat_yields _).bind fun _ _ => .ite ?_ ?_
    · refine (delimited_yields _ (parseArg_yields ht)).bind fun r hr => Yields.get.bind fun _ _ => ?_
      exact .pure (.apply fun t hm => hr _ hm t rfl)
    · refine (many_yields (eat_yields _) ident_yields).bind fun segments hs => ?_
      exact .pure (.path (List.forall_mem_cons.2 ⟨hk name rfl, hs⟩))
  · refine advance_yields.bind fun _ _ => (delimited_yields _ ht).bind fun r hr => ?_
    split
    · exact .pure (hr _ (by simp))
    · exact .pure (.tuple hr)
  · refine advance_yields.bind fun _ _ => (parseFields_yields ht _).bind fun fs hfs => ?_
    exact .pure (.record (fun f hf => (hfs f hf).1) fun f hf => (hfs f hf).2)
  · exact .fail _

end

theorem parseType_yields : Yields parseType TypeExpr.Named := by
  have h : ∀ levels, Yields (parseTypeWithin levels) TypeExpr.Named := by
    intro levels
    induction levels with
    | zero => exact .fail _
    | succ levels ih => exact parseTypeWith_yields ih
  exact h _

/-! ### Declarations -/

/-- A tag and its fields. -/
def VariantExpr.Named (v : VariantExpr) : Prop := Identifier v.1 ∧ ∀ f ∈ v.2, FieldExpr.Named f

/-- The names of the members that an item of a table introduces. -/
def TableItem.names : TableItem → List String
  | .ob names => names
  | .attrType name _ => [name]
  | .hom name _ _ => [name]
  | .attr name _ _ => [name]

structure TableItem.Named (item : TableItem) : Prop where
  names : ∀ name ∈ item.names, Identifier name
  types : ∀ name t, item = .attrType name t → t.Named

/-- All that the declaration introduces has identifiers as names. -/
def DeclExpr.Named : DeclExpr → Prop
  | .alias name t => Identifier name ∧ t.Named
  | .struct name fields => Identifier name ∧ ∀ f ∈ fields, FieldExpr.Named f
  | .sum name variants => Identifier name ∧ ∀ v ∈ variants, VariantExpr.Named v
  | .table name items => Identifier name ∧ ∀ item ∈ items, item.Named

theorem DeclExpr.Named.names {d : DeclExpr} (h : d.Named) : ∀ name ∈ d.names, Identifier name := by
  cases d with
  | sum name variants =>
    rw [DeclExpr.names, List.forall_mem_cons, List.forall_mem_map]
    exact ⟨h.1, fun v hv => (h.2 v hv).1⟩
  | _ => simpa [DeclExpr.names, DeclExpr.name] using h.1

theorem parseVariant_yields : Yields parseVariant VariantExpr.Named := by
  refine ident_yields.bind fun tag ht => (eat_yields _).bind fun _ _ => .ite ?_ (.pure ⟨ht, by simp⟩)
  exact (parseFields_yields parseType_yields _).bind fun _ hf => .pure ⟨ht, hf⟩

theorem parseArrow_yields : Yields parseArrow fun a => Identifier a.1 :=
  ident_yields.bind fun _ hn => (expect_yields _).bind fun _ _ => ident_yields.bind fun _ _ =>
    (expect_yields _).bind fun _ _ => ident_yields.bind fun _ _ => .pure hn

theorem parseTableItem_yields : Yields parseTableItem TableItem.Named := by
  refine Yields.get.bind fun c _ => ?_
  simp only
  split
  · refine advance_yields.bind fun _ _ => ?_
    split
    · refine ident_yields.bind fun name hn => ?_
      refine (many_yields (eat_yields _) ident_yields).bind fun names hns => ?_
      exact .pure ⟨List.forall_mem_cons.2 ⟨hn, hns⟩, by simp⟩
    · exact parseArrow_yields.bind fun _ ha => .pure ⟨by simpa [TableItem.names] using ha, by simp⟩
    · exact parseArrow_yields.bind fun _ ha => .pure ⟨by simpa [TableItem.names] using ha, by simp⟩
    · refine ident_yields.bind fun name hn => (expect_yields _).bind fun _ _ => ?_
      refine parseType_yields.bind fun t ht => .pure ⟨by simpa [TableItem.names] using hn, ?_⟩
      rintro _ _ ⟨⟩
      exact ht
    · exact .throw _
  · exact .fail _

theorem parseDecl_yields : Yields parseDecl DeclExpr.Named := by
  refine peek_yields.bind fun _ _ => ?_
  split
  · refine advance_yields.bind fun _ _ => ident_yields.bind fun name hn => ?_
    refine (expect_yields _).bind fun _ _ => ?_
    exact (parseFields_yields parseType_yields _).bind fun _ hf => .pure ⟨hn, hf⟩
  · refine advance_yields.bind fun _ _ => ident_yields.bind fun name hn => ?_
    refine (expect_yields _).bind fun _ _ => (eat_yields _).bind fun _ _ => ?_
    refine parseVariant_yields.bind fun first hf => ?_
    refine (many_yields (eat_yields _) parseVariant_yields).bind fun rest hr => ?_
    exact (expect_yields _).bind fun _ _ => .pure ⟨hn, List.forall_mem_cons.2 ⟨hf, hr⟩⟩
  · refine advance_yields.bind fun _ _ => ident_yields.bind fun name hn => ?_
    exact (expect_yields _).bind fun _ _ => parseType_yields.bind fun _ ht => .pure ⟨hn, ht⟩
  · refine advance_yields.bind fun _ _ => ident_yields.bind fun name hn => ?_
    refine (expect_yields _).bind fun _ _ => ?_
    exact (many_yields ((eat_yields _).bind fun _ _ => .pure trivial)
      parseTableItem_yields).bind fun _ hi => .pure ⟨hn, hi⟩
  · exact .fail _
  · exact .fail _

theorem atEnd_yields : Yields atEnd fun _ => True := peek_yields.bind fun _ _ => .pure trivial

theorem parseSingle_yields : Yields parseSingle DeclExpr.Named :=
  parseDecl_yields.bind fun _ hd => atEnd_yields.bind fun _ _ => .ite (.pure hd) (.fail _)

theorem parseFile_yields : Yields parseFile fun f => ∀ d ∈ f.decls, d.Named := by
  have hheader : Yields parseHeader fun _ => True := by
    refine Yields.bind (Q := fun _ => True) ?_ fun _ _ => ident_yields.bind fun _ _ => ?_
    · exact (eat_yields _).bind fun _ _ => .ite (.pure trivial) (.fail _)
    · exact (many_yields (eat_yields _) ident_yields).bind fun _ _ => .pure trivial
  refine hheader.bind fun _ _ => ?_
  exact (many_yields (atEnd_yields.bind fun _ _ => .pure trivial) parseDecl_yields).bind
    fun _ hd => .pure hd

/-- What a parser yields holds of what it makes of a text. -/
theorem runOn_eq_ok {α : Type} {p : Parser α} {Q : α → Prop} (hp : Yields p Q) {src : String} {a : α}
    (h : runOn p src = .ok a) : Q a := by
  obtain ⟨c, hc, h⟩ := bind_eq_ok.1 h
  split at h
  · rename_i a' c' hr
    cases h
    exact (hp c _ c' (Cursor.ofSource_plain hc) hr).1
  · cases h

end Wireform.Source
