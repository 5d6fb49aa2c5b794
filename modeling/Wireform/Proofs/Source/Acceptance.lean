import Mathlib
import Wireform.Proofs.Source.Derivation

/-!
# What a parser takes

Where the grammar allows the tokens at the front, and what follows cannot continue them, the parser takes
exactly these (`Complete`). So the declarations of a file do not run into each other: each of them is taken
as it would be alone.
-/

namespace Wireform.Source

variable {α : Type}

def Complete (p : Parser α) (G : List Char → Rule α) (follow : TokenKind → Prop) : Prop :=
  ∀ source ts rest behind a, G source ts a → follow (nextKind rest) →
    p ⟨source, ts ++ rest, behind⟩ = .ok a ⟨source, rest, endOf behind ts⟩

/-! ### Single tokens -/

section

variable {source : List Char} {t : Token} {ts rest : List Token} {behind : Nat} {k : TokenKind}

theorem peek_cons : peek ⟨source, t :: ts, behind⟩ = .ok t.kind ⟨source, t :: ts, behind⟩ := rfl

theorem advance_cons (h : t.kind ≠ .eof) :
    advance ⟨source, t :: ts, behind⟩ = .ok () ⟨source, ts, t.stop⟩ := by
  change EStateM.Result.ok () (Cursor.advance _) = _
  simp only [Cursor.advance, h, if_false]

theorem eat_cons (h : t.kind = k) (hk : k ≠ .eof) :
    eat k ⟨source, t :: ts, behind⟩ = .ok true ⟨source, ts, t.stop⟩ := by
  subst h
  unfold eat
  rw [bind_run_of_ok peek_cons]
  simp only [if_true]
  rw [bind_run_of_ok (advance_cons hk)]
  rfl

theorem eat_other (h : nextKind rest ≠ k) :
    eat k ⟨source, rest, behind⟩ = .ok false ⟨source, rest, behind⟩ := by
  have hp : peek ⟨source, rest, behind⟩ = .ok (nextKind rest) ⟨source, rest, behind⟩ := by
    cases rest <;> rfl
  unfold eat
  rw [bind_run_of_ok hp]
  simp only [h, if_false]
  rfl

theorem expect_cons (h : t.kind = k) (hk : k ≠ .eof) :
    expect k ⟨source, t :: ts, behind⟩ = .ok () ⟨source, ts, t.stop⟩ := by
  unfold expect
  rw [bind_run_of_ok (eat_cons h hk)]
  rfl

theorem expectWord_cons {word : String} (h : t.kind = .ident word) :
    expectWord word ⟨source, t :: ts, behind⟩ = .ok () ⟨source, ts, t.stop⟩ := by
  unfold expectWord
  rw [bind_run_of_ok (eat_cons h (by simp))]
  rfl

theorem ident_cons {name : String} (h : t.kind = .ident name) :
    ident ⟨source, t :: ts, behind⟩ = .ok name ⟨source, ts, t.stop⟩ := by
  unfold ident
  rw [bind_run_of_ok peek_cons, h]
  simp only
  rw [bind_run_of_ok (advance_cons (by simp [h]))]
  rfl

theorem ident_complete : Complete ident (fun _ => Word) fun _ => True := by
  rintro source _ rest behind name ⟨h⟩ -
  exact ident_cons h

theorem eat_of_optionally {k : TokenKind} {source : List Char} {ts rest : List Token} {behind : Nat}
    (hk : k ≠ .eof) (h : Optionally k ts) (hnext : nextKind rest ≠ k) :
    ∃ b, eat k ⟨source, ts ++ rest, behind⟩ = .ok b ⟨source, rest, endOf behind ts⟩ := by
  rcases h with rfl | ⟨t, rfl, ht⟩
  · exact ⟨false, eat_other hnext⟩
  · exact ⟨true, eat_cons ht hk⟩

end

/-! ### Lists -/

section

variable {item : Parser α} {G : List Char → Rule α} {k close : TokenKind} {follow : TokenKind → Prop}

/-- The items stop where the next token is not the one that starts another. -/
theorem whileSome_complete (hk : k ≠ .eof) (hi : Complete item G follow) (hnext : follow k)
    {fuel : Nat} {source : List Char} {ts rest : List Token} {behind : Nat} {as : List α}
    (h : Repeated (After k (G source)) ts as) (hf : as.length ≤ fuel) (hrest : follow (nextKind rest))
    (hstop : nextKind rest ≠ k) :
    whileSome (eat k) item fuel ⟨source, ts ++ rest, behind⟩ = .ok as ⟨source, rest, endOf behind ts⟩ := by
  induction h generalizing fuel behind with
  | nil =>
    cases fuel with
    | zero => rfl
    | succ fuel =>
      unfold whileSome
      rw [List.nil_append, bind_run_of_ok (eat_other hstop)]
      rfl
  | @cons ts us a as ha has ih =>
    obtain ⟨ht, hg⟩ := ha
    rename_i t ts
    cases fuel with
    | zero => simp at hf
    | succ fuel =>
      have hfollow : follow (nextKind (us ++ rest)) := by
        rcases has.next with rfl | ⟨hne, hk⟩
        · exact hrest
        · rw [nextKind_append hne, hk]
          exact hnext
      unfold whileSome
      rw [List.cons_append, List.cons_append, bind_run_of_ok (eat_cons ht hk)]
      simp only [if_true]
      rw [List.append_assoc, bind_run_of_ok (hi _ _ _ _ _ hg hfollow),
        bind_run_of_ok (ih (by simpa using hf))]
      simp only [endOf, List.foldl_cons, List.foldl_append]
      rfl

theorem many_complete (hk : k ≠ .eof) (hi : Complete item G follow) (hnext : follow k) :
    Complete (many (eat k) item) (fun source => Repeated (After k (G source)))
      fun next => follow next ∧ next ≠ k := by
  intro source ts rest behind as h hrest
  refine whileSome_complete hk hi hnext h ?_ hrest.1 hrest.2
  have := h.length_le
  simp only [List.length_append]
  omega

theorem untilClose_complete (hk : close ≠ .eof) (hi : Complete item G follow) (hcomma : follow .comma)
    (hclose : follow close) {source : List Char} (hstart : Starts (G source) (· ≠ close)) {fuel : Nat}
    {ts rest : List Token} {behind : Nat} {r : List α × Bool} (h : Enclosed close (G source) ts r)
    (hf : ts.length ≤ fuel) (hdiffer : close ≠ .comma) :
    untilClose close item fuel ⟨source, ts ++ rest, behind⟩ = .ok r ⟨source, rest, endOf behind ts⟩ := by
  induction h generalizing fuel behind with
  | none ht =>
    cases fuel with
    | zero => simp at hf
    | succ fuel =>
      unfold untilClose
      rw [List.singleton_append, bind_run_of_ok (eat_cons ht hk)]
      rfl
  | @last ts t a hg ht =>
    cases fuel with
    | zero => simp at hf
    | succ fuel =>
      obtain ⟨hne, hs⟩ := hstart ts a hg
      have hother : nextKind (ts ++ ([t] ++ rest)) ≠ close := by
        rw [nextKind_append hne]
        exact hs
      have hnext : nextKind ([t] ++ rest) = close := ht
      unfold untilClose
      rw [List.append_assoc, bind_run_of_ok (eat_other hother)]
      simp only [Bool.false_eq_true, if_false]
      rw [bind_run_of_ok (hi _ _ _ _ _ hg (hnext ▸ hclose)),
        bind_run_of_ok (eat_other (hnext ▸ hdiffer))]
      simp only [Bool.false_eq_true, if_false, List.singleton_append]
      rw [bind_run_of_ok (expect_cons ht hk)]
      simp only [endOf, List.foldl_append]
      rfl
  | @more ts us t a as commas hg ht _ ih =>
    cases fuel with
    | zero => simp at hf
    | succ fuel =>
      obtain ⟨hne, hs⟩ := hstart ts a hg
      have hother : nextKind (ts ++ (t :: us ++ rest)) ≠ close := by
        rw [nextKind_append hne]
        exact hs
      have hnext : nextKind (t :: us ++ rest) = .comma := ht
      have hlength : us.length ≤ fuel := by
        simp only [List.length_append, List.length_cons] at hf
        omega
      unfold untilClose
      rw [List.append_assoc, bind_run_of_ok (eat_other hother)]
      simp only [Bool.false_eq_true, if_false]
      rw [bind_run_of_ok (hi _ _ _ _ _ hg (hnext ▸ hcomma)), List.cons_append,
        bind_run_of_ok (eat_cons ht (by simp))]
      simp only [if_true]
      rw [bind_run_of_ok (ih hlength)]
      simp only [endOf, List.foldl_append, List.foldl_cons]
      rfl

theorem delimited_complete (hk : close ≠ .eof) (hi : Complete item G follow) (hcomma : follow .comma)
    (hclose : follow close) (hstart : ∀ source, Starts (G source) (· ≠ close)) (hdiffer : close ≠ .comma) :
    Complete (delimited close item) (fun source => Enclosed close (G source)) fun _ => True := by
  intro source ts rest behind r h _
  exact untilClose_complete hk hi hcomma hclose (hstart source) h (by simp) hdiffer

variable {more : Parser Bool}

/-- Items up to a token that none of them starts with. -/
theorem whileSome_until (stop : TokenKind)
    (hgo : ∀ c, nextKind c.ahead ≠ stop → more c = .ok true c) (hi : Complete item G follow)
    {source : List Char} (hstart : Starts (G source) fun next => follow next ∧ next ≠ stop) {fuel : Nat}
    {ts rest : List Token} {behind : Nat} {as : List α} {final : Cursor}
    (h : Repeated (G source) ts as) (hf : as.length < fuel) (hrest : follow (nextKind rest))
    (hend : more ⟨source, rest, endOf behind ts⟩ = .ok false final) :
    whileSome more item fuel ⟨source, ts ++ rest, behind⟩ = .ok as final := by
  induction h generalizing fuel behind with
  | nil =>
    cases fuel with
    | zero => omega
    | succ fuel =>
      have hend : more ⟨source, rest, behind⟩ = .ok false final := hend
      unfold whileSome
      rw [List.nil_append, bind_run_of_ok hend]
      rfl
  | @cons ts us a as hg has ih =>
    cases fuel with
    | zero => omega
    | succ fuel =>
      obtain ⟨hne, -, hs⟩ := hstart ts a hg
      have hother : nextKind (ts ++ (us ++ rest)) ≠ stop := by
        rw [nextKind_append hne]
        exact hs
      have hfollow : follow (nextKind (us ++ rest)) := by
        cases has with
        | nil => exact hrest
        | cons hb _ =>
          obtain ⟨hne', hs', -⟩ := hstart _ _ hb
          rw [List.append_assoc, nextKind_append hne']
          exact hs'
      unfold whileSome
      rw [List.append_assoc, bind_run_of_ok (hgo _ hother)]
      simp only [if_true]
      rw [bind_run_of_ok (hi _ _ _ _ _ hg hfollow), bind_run_of_ok (ih (by simpa using hf) ?_)]
      · rfl
      · simpa only [endOf, List.foldl_append] using hend

end

/-! ### Types -/

/-- A type does not end before one of these. -/
def EndsType (next : TokenKind) : Prop := next ≠ .dot ∧ next ≠ .lparen

theorem endsType_of {k : TokenKind} (h : k = .comma ∨ k = .rparen ∨ k = .rbrace) :
    EndsType k ∧ k ≠ .colons := by
  rcases h with rfl | rfl | rfl <;> simp [EndsType]

theorem StartsType.ne_close {next : TokenKind} (h : StartsType next) : next ≠ .rparen ∧ next ≠ .rbrace := by
  rcases h with ⟨name, rfl⟩ | rfl | rfl <;> simp

section

variable {type : Parser TypeExpr} {G : List Char → Rule TypeExpr}

/-- A field without a name is not taken for one with a name. -/
theorem not_colons_of_plain {G : Rule TypeExpr} (hstart : Starts G StartsType) (hnamed : NotNamed G)
    {source : List Char} {ts rest : List Token} {behind : Nat} {ty : TypeExpr} (hg : G ts ty)
    (hnext : nextKind rest ≠ .colons) {name : String}
    (hname : (Cursor.token ⟨source, ts ++ rest, behind⟩).kind = .ident name) :
    (Cursor.second ⟨source, ts ++ rest, behind⟩).kind ≠ .colons := by
  cases ts with
  | nil => exact absurd rfl (hstart _ _ hg).1
  | cons t us =>
    have ht : t.kind = .ident name := hname
    have hus := hnamed t us ty name hg ht
    cases us with
    | cons u us => exact hus
    | nil =>
      cases rest with
      | cons u rest => exact hnext
      | nil =>
        show t.kind ≠ .colons
        rw [ht]
        simp

theorem parseField_complete (ht : Complete type G EndsType) (hstart : ∀ source, Starts (G source) StartsType)
    (hnamed : ∀ source, NotNamed (G source)) :
    Complete (parseField type) (fun source => FieldForm (G source))
      fun next => EndsType next ∧ next ≠ .colons := by
  rintro source ts rest behind f h ⟨hend, hnext⟩
  unfold parseField
  rw [get_bind_run, get_bind_run]
  cases h with
  | @named t colons ts name ty hname hcolon hg =>
    have hk : (Cursor.token ⟨source, t :: colons :: (ts ++ rest), behind⟩).kind = .ident name := hname
    have hk' : (Cursor.second ⟨source, t :: colons :: (ts ++ rest), behind⟩).kind = .colons := hcolon
    rw [List.cons_append, List.cons_append, hk, hk']
    simp only
    rw [bind_run_of_ok (advance_cons (by simp [hname])), bind_run_of_ok (advance_cons (by simp [hcolon])),
      bind_run_of_ok (ht _ _ _ _ _ hg hend)]
    rfl
  | @plain ts ty hg =>
    have hplain := @not_colons_of_plain _ (hstart source) (hnamed source) source ts rest behind ty hg hnext
    generalize (Cursor.token ⟨source, ts ++ rest, behind⟩).kind = k at hplain ⊢
    generalize (Cursor.second ⟨source, ts ++ rest, behind⟩).kind = k' at hplain ⊢
    split
    · exact absurd rfl (hplain rfl)
    · rw [bind_run_of_ok (ht _ _ _ _ _ hg hend)]
      rfl

theorem parseArg_complete (ht : Complete type G EndsType) (hstart : ∀ source, Starts (G source) StartsType) :
    Complete (parseArg type) (fun source => ArgForm (G source)) EndsType := by
  intro source ts rest behind a h hend
  unfold parseArg
  cases h with
  | @doc t text hk =>
    rw [List.singleton_append, bind_run_of_ok peek_cons, hk]
    simp only
    rw [bind_run_of_ok (advance_cons (by simp [hk]))]
    rfl
  | @type ts ty hg =>
    obtain ⟨hne, hs⟩ := hstart source ts ty hg
    cases ts with
    | nil => exact absurd rfl hne
    | cons t ts =>
      have hk : ∀ text, t.kind ≠ .str text := by
        intro text he
        rcases hs with ⟨name, h⟩ | h | h <;> simp [nextKind, he] at h
      rw [List.cons_append, bind_run_of_ok peek_cons]
      generalize t.kind = k at hk ⊢
      split
      · exact absurd rfl (hk _)
      · rw [← List.cons_append, bind_run_of_ok (ht _ _ _ _ _ hg hend)]
        rfl

theorem parseFields_complete {close : TokenKind} (hclose : close = .rparen ∨ close = .rbrace)
    (ht : Complete type G EndsType) (hstart : ∀ source, Starts (G source) StartsType)
    (hnamed : ∀ source, NotNamed (G source)) :
    Complete (parseFields type close) (fun source ts fields =>
      ∃ commas, Enclosed close (FieldForm (G source)) ts (fields, commas)) fun _ => True := by
  rintro source ts rest behind fields ⟨commas, h⟩ -
  have hitems : Complete (delimited close (parseField type))
      (fun source => Enclosed close (FieldForm (G source))) fun _ => True := by
    refine delimited_complete ?_ (parseField_complete ht hstart hnamed) (endsType_of (.inl rfl))
      (endsType_of (.inr hclose)) (fun source ts f hf => ?_) ?_
    · rcases hclose with rfl | rfl <;> simp
    · obtain ⟨hne, hs⟩ := FieldForm.starts (hstart source) ts f hf
      refine ⟨hne, ?_⟩
      rcases hclose with rfl | rfl
      · exact hs.ne_close.1
      · exact hs.ne_close.2
    · rcases hclose with rfl | rfl <;> simp
  unfold parseFields
  rw [bind_run_of_ok (hitems _ _ _ _ _ h trivial)]
  rfl

theorem parseTypeWith_complete (ht : Complete type G EndsType)
    (hstart : ∀ source, Starts (G source) StartsType) (hnamed : ∀ source, NotNamed (G source)) :
    Complete (parseTypeWith type) (fun source => TypeForm source (G source)) EndsType := by
  intro source ts rest behind ty h hend
  have helems : Complete (delimited .rparen type) (fun source => Enclosed .rparen (G source)) fun _ => True := by
    refine delimited_complete (by simp) ht (endsType_of (.inl rfl)).1 (endsType_of (.inr (.inl rfl))).1
      (fun source ts f hf => ?_) (by simp)
    obtain ⟨hne, hs⟩ := hstart source ts f hf
    exact ⟨hne, hs.ne_close.1⟩
  unfold parseTypeWith
  rw [get_bind_run]
  cases h with
  | @path t ts name names hk hr =>
    have hparen : nextKind (ts ++ rest) ≠ .lparen := by
      rcases hr.next with rfl | ⟨hne, hdot⟩
      · exact hend.2
      · rw [nextKind_append hne, hdot]
        simp
    rw [List.cons_append, bind_run_of_ok peek_cons, hk]
    simp only
    rw [bind_run_of_ok (advance_cons (by simp [hk])), bind_run_of_ok (eat_other hparen)]
    simp only [Bool.false_eq_true, if_false]
    rw [bind_run_of_ok (many_complete (by simp) ident_complete trivial _ _ _ _ _ hr ⟨trivial, hend.1⟩)]
    rfl
  | @apply t paren ts ctor args commas hk hp hg =>
    have hargs : Complete (delimited .rparen (parseArg type))
        (fun source => Enclosed .rparen (ArgForm (G source))) fun _ => True := by
      refine delimited_complete (by simp) (parseArg_complete ht hstart) (endsType_of (.inl rfl)).1
        (endsType_of (.inr (.inl rfl))).1 (fun source ts f hf => ?_) (by simp)
      obtain ⟨hne, ⟨text, hs⟩ | hs⟩ := ArgForm.starts (hstart source) ts f hf
      · exact ⟨hne, by simp [hs]⟩
      · exact ⟨hne, hs.ne_close.1⟩
    rw [List.cons_append, List.cons_append, bind_run_of_ok peek_cons, hk]
    simp only
    rw [bind_run_of_ok (advance_cons (by simp [hk])), bind_run_of_ok (eat_cons hp (by simp))]
    simp only [if_true]
    rw [bind_run_of_ok (hargs _ _ _ _ _ hg trivial)]
    rfl
  | @group paren ts ty hp hg =>
    rw [List.cons_append, bind_run_of_ok peek_cons, hp]
    simp only
    rw [bind_run_of_ok (advance_cons (by simp [hp])), bind_run_of_ok (helems _ _ _ _ _ hg trivial)]
    rfl
  | @tuple paren ts elems commas hp hg hne =>
    rw [List.cons_append, bind_run_of_ok peek_cons, hp]
    simp only
    rw [bind_run_of_ok (advance_cons (by simp [hp])), bind_run_of_ok (helems _ _ _ _ _ hg trivial)]
    generalize hboth : (elems, commas) = both at hne ⊢
    split
    · exact absurd rfl (hne _)
    · cases hboth
      rfl
  | @record brace ts fields commas hb hg =>
    rw [List.cons_append, bind_run_of_ok peek_cons, hb]
    simp only
    rw [bind_run_of_ok (advance_cons (by simp [hb])),
      bind_run_of_ok (parseFields_complete (.inr rfl) ht hstart hnamed _ _ _ _ _ ⟨commas, hg⟩ trivial)]
    rfl

end

theorem parseTypeWithin_complete (levels : Nat) :
    Complete (parseTypeWithin levels) (fun source => Types source levels) EndsType := by
  induction levels with
  | zero => exact fun _ _ _ _ _ h => h.elim
  | succ levels ih =>
    exact parseTypeWith_complete ih (fun source => Types.starts source levels) fun source =>
      Types.notNamed source levels

/-! ### Declarations -/

theorem parseVariant_complete : Complete parseVariant VariantForm (· ≠ .lparen) := by
  intro source ts rest behind v h hnext
  unfold parseVariant
  cases h with
  | plain hk =>
    rw [List.singleton_append, bind_run_of_ok (ident_cons hk), bind_run_of_ok (eat_other hnext)]
    rfl
  | @fields t paren ts tag fields commas hk hp hg =>
    have hfields := parseFields_complete (.inl rfl) (parseTypeWithin_complete maxTypeNesting)
      (fun source => Types.starts source _) (fun source => Types.notNamed source _)
    rw [List.cons_append, List.cons_append, bind_run_of_ok (ident_cons hk),
      bind_run_of_ok (eat_cons hp (by simp))]
    simp only [if_true]
    rw [parseType, bind_run_of_ok (hfields _ _ _ _ _ ⟨commas, hg⟩ trivial)]
    rfl

theorem parseArrow_complete : Complete parseArrow (fun _ => ArrowForm) fun _ => True := by
  rintro source _ rest behind _ ⟨h₁, h₂, h₃, h₄, h₅⟩ -
  unfold parseArrow
  simp only [List.cons_append, List.nil_append]
  rw [bind_run_of_ok (ident_cons h₁), bind_run_of_ok (expect_cons h₂ (by simp)),
    bind_run_of_ok (ident_cons h₃), bind_run_of_ok (expect_cons h₄ (by simp)),
    bind_run_of_ok (ident_cons h₅)]
  rfl

/-- What can stand behind an item of a table. -/
def EndsItem (next : TokenKind) : Prop := EndsType next ∧ next ≠ .comma

theorem parseTableItem_complete : Complete parseTableItem TableItemForm EndsItem := by
  intro source ts rest behind item h hend
  unfold parseTableItem
  rw [get_bind_run]
  have hword : ∀ {t : Token} {us : List Token} {word : String}, t.kind = .ident word →
      (Cursor.token ⟨source, t :: us, behind⟩).kind = .ident word := fun h => h
  cases h with
  | @ob word n ts name names hk hn hr =>
    rw [List.cons_append, List.cons_append]
    simp only [hword hk]
    rw [bind_run_of_ok (advance_cons (by simp [hk])), bind_run_of_ok (ident_cons hn),
      bind_run_of_ok (many_complete (by simp) ident_complete trivial _ _ _ _ _ hr ⟨trivial, hend.2⟩)]
    rfl
  | @hom word ts name dom codom hk hg =>
    rw [List.cons_append]
    simp only [hword hk]
    rw [bind_run_of_ok (advance_cons (by simp [hk])),
      bind_run_of_ok (parseArrow_complete _ _ _ _ _ hg trivial)]
    rfl
  | @attr word ts name dom codom hk hg =>
    rw [List.cons_append]
    simp only [hword hk]
    rw [bind_run_of_ok (advance_cons (by simp [hk])),
      bind_run_of_ok (parseArrow_complete _ _ _ _ _ hg trivial)]
    rfl
  | @attrType word n eq ts name ty hk hn he hg =>
    rw [List.cons_append, List.cons_append, List.cons_append]
    simp only [hword hk]
    rw [bind_run_of_ok (advance_cons (by simp [hk])), bind_run_of_ok (ident_cons hn),
      bind_run_of_ok (expect_cons he (by simp)), parseType,
      bind_run_of_ok (parseTypeWithin_complete _ _ _ _ _ _ hg hend.1)]
    rfl

theorem parseDecl_complete : Complete parseDecl DeclForm EndsType := by
  intro source ts rest behind decl h hend
  unfold parseDecl
  cases h with
  | @«alias» word n eq ts name ty hk hn he hg =>
    rw [List.cons_append, List.cons_append, List.cons_append, bind_run_of_ok peek_cons, hk]
    simp only
    rw [bind_run_of_ok (advance_cons (by simp [hk])), bind_run_of_ok (ident_cons hn),
      bind_run_of_ok (expect_cons he (by simp)), parseType,
      bind_run_of_ok (parseTypeWithin_complete _ _ _ _ _ _ hg hend)]
    rfl
  | @struct word n brace ts name fields commas hk hn hb hg =>
    have hfields := parseFields_complete (.inr rfl) (parseTypeWithin_complete maxTypeNesting)
      (fun source => Types.starts source _) (fun source => Types.notNamed source _)
    rw [List.cons_append, List.cons_append, List.cons_append, bind_run_of_ok peek_cons, hk]
    simp only
    rw [bind_run_of_ok (advance_cons (by simp [hk])), bind_run_of_ok (ident_cons hn),
      bind_run_of_ok (expect_cons hb (by simp)), parseType,
      bind_run_of_ok (hfields _ _ _ _ _ ⟨commas, hg⟩ trivial)]
    rfl
  | @sum word n brace close bar ts us name first variants hk hn hb hbar hg hgs hclose =>
    have hend : nextKind (close :: rest) = .rbrace := hclose
    obtain ⟨hne, tag, htag⟩ := VariantForm.starts source ts first hg
    obtain ⟨b, hpipe⟩ := @eat_of_optionally .pipe source bar (ts ++ (us ++ (close :: rest))) brace.stop
      (by simp) hbar (by rw [nextKind_append hne, htag]; simp)
    have hnext : nextKind (us ++ (close :: rest)) ≠ .lparen := by
      rcases hgs.next with rfl | ⟨hne, hk⟩
      · simp [hend]
      · simp [nextKind_append hne, hk]
    have hrest := many_complete (by simp) parseVariant_complete (by simp) source us (close :: rest)
      (endOf (endOf brace.stop bar) ts) variants hgs (by simp [hend])
    simp only [List.cons_append, List.append_assoc, List.nil_append]
    rw [bind_run_of_ok peek_cons, hk]
    simp only
    rw [bind_run_of_ok (advance_cons (by simp [hk])), bind_run_of_ok (ident_cons hn),
      bind_run_of_ok (expect_cons hb (by simp)), bind_run_of_ok hpipe,
      bind_run_of_ok (parseVariant_complete _ _ _ _ _ hg hnext), bind_run_of_ok hrest,
      bind_run_of_ok (expect_cons hclose (by simp))]
    simp only [endOf, List.foldl_cons, List.foldl_append, List.foldl_nil]
    rfl
  | @table word n brace close ts name items hk hn hb hg hclose =>
    have hitems : many (do return !(← eat .rbrace)) parseTableItem
        ⟨source, ts ++ (close :: rest), brace.stop⟩ =
        .ok items ⟨source, rest, close.stop⟩ := by
      refine whileSome_until .rbrace (fun c hne => ?_) parseTableItem_complete
        (fun ts item hg => ?_) hg ?_ ?_ ?_
      · rw [bind_run_of_ok (eat_other hne)]
        rfl
      · obtain ⟨hne, word, hw⟩ := TableItemForm.starts source ts item hg
        rw [hw]
        exact ⟨hne, by simp [EndsItem, EndsType], by simp⟩
      · have := hg.length_le_of_starts (TableItemForm.starts source)
        simp only [List.length_append, List.length_cons]
        omega
      · have hnext : nextKind (close :: rest) = .rbrace := hclose
        rw [hnext]
        simp [EndsItem, EndsType]
      · rw [bind_run_of_ok (eat_cons hclose (by simp))]
        rfl
    rw [List.cons_append, List.cons_append, List.cons_append, List.append_assoc, List.singleton_append,
      bind_run_of_ok peek_cons, hk]
    simp only
    rw [bind_run_of_ok (advance_cons (by simp [hk])), bind_run_of_ok (ident_cons hn),
      bind_run_of_ok (expect_cons hb (by simp)), bind_run_of_ok hitems]
    simp only [endOf, List.foldl_cons, List.foldl_append, List.foldl_nil]
    rfl

/-! ### Files -/

/-- A file is read up to the end of the text. -/
theorem parseFile_complete {source : List Char} {ts : List Token} {e : Token} {behind : Nat}
    {file : SourceFile} (h : FileForm source ts file) (he : e.kind = .eof) :
    ∃ c, parseFile ⟨source, ts ++ [e], behind⟩ = .ok file c := by
  obtain ⟨hk, hn, himports, hdecls⟩ := h
  rename_i word n ts us name imports decls
  have hend : nextKind [e] = .eof := he
  have hnext : nextKind (us ++ [e]) ≠ .ident "import" := by
    cases hdecls with
    | nil => simp [hend]
    | cons hd _ =>
      obtain ⟨hne, word, hw, hword⟩ := DeclForm.starts source _ _ hd
      rw [List.append_assoc, nextKind_append hne, hw]
      simpa using hword
  have hnames := many_complete (by simp) ident_complete trivial source ts (us ++ [e]) n.stop imports
    himports ⟨trivial, hnext⟩
  have hall : many (do return !(← atEnd)) parseDecl ⟨source, us ++ [e], endOf n.stop ts⟩ =
      .ok decls ⟨source, [e], endOf (endOf n.stop ts) us⟩ := by
    have hmore : ∀ c, (do return !(← atEnd) : Parser Bool) c =
        .ok (!decide (nextKind c.ahead = .eof)) c := by
      intro c
      rw [← token_kind]
      rfl
    refine whileSome_until .eof (fun c hne => ?_) parseDecl_complete
      (fun ts decl hg => ?_) hdecls ?_ ?_ ?_
    · rw [hmore, decide_eq_false hne]
      rfl
    · obtain ⟨hne, word, hw, -⟩ := DeclForm.starts source ts decl hg
      rw [hw]
      exact ⟨hne, by simp [EndsType], by simp⟩
    · have := hdecls.length_le_of_starts (DeclForm.starts source)
      simp only [List.length_append, List.length_singleton]
      omega
    · rw [hend]
      simp [EndsType]
    · rw [hmore, decide_eq_true hend]
      rfl
  have hheader : parseHeader ⟨source, word :: n :: (ts ++ (us ++ [e])), behind⟩ =
      .ok (name, imports) ⟨source, us ++ [e], endOf n.stop ts⟩ := by
    unfold parseHeader
    rw [bind_run_of_ok (expectWord_cons hk), bind_run_of_ok (ident_cons hn), bind_run_of_ok hnames]
    rfl
  refine ⟨⟨source, [e], endOf (endOf n.stop ts) us⟩, ?_⟩
  unfold parseFile
  simp only [List.cons_append, List.append_assoc]
  rw [bind_run_of_ok hheader, bind_run_of_ok hall]
  rfl

end Wireform.Source
