import Mathlib
import Wireform.Source.Compile
import Wireform.Proofs.Source.Names

/-!
# Where errors come from

Lexing and parsing end in a parse error or not at all (`Complains`). Reserving, resolving and defining
names can fail for more reasons, but a missing import is not among them. A file is therefore refused for
a missing import only if its own header names one (`exists_missing_of_compile`).
-/

namespace Wireform

def SourceError.IsParse (e : SourceError) : Prop := ∃ offset fragment why, e = .parse offset fragment why

/-- The error is about something other than a missing import. -/
def SourceError.Inside (e : SourceError) : Prop := ∀ name, e ≠ .unknownImport name

theorem SourceError.IsParse.inside {e : SourceError} (h : e.IsParse) : e.Inside := by
  obtain ⟨offset, fragment, why, rfl⟩ := h
  simp [Inside]

namespace Source

/-! ### Lexing -/

theorem begin_raises (pos : Nat) (c : Char) : Raises SourceError.IsParse (begin pos c) := by
  unfold begin
  refine .ite (.ok _) (.ite (.ok _) (.ite (.ok _) (.ite (.ok _) (.ite (.ok _) ?_))))
  split
  · exact .ok _
  · exact .error ⟨_, _, _, rfl⟩

theorem step_raises (pending : Pending) (pos : Nat) (c : Char) :
    Raises SourceError.IsParse (step pending pos c) := by
  cases pending with
  | blank => exact begin_raises pos c
  | comment => exact .ok _
  | word start raw => exact .ite (.ok _) ((begin_raises pos c).bind fun _ => .ok _)
  | half start c' =>
    rw [step]
    split
    · exact .ok _
    · exact .error ⟨_, _, _, rfl⟩
  | quoted start raw text => exact .ite (.ok _) (.ite (.ok _) (.ok _))
  | escape start raw text slash =>
    rw [step]
    split
    · exact .ok _
    · exact .error ⟨_, _, _, rfl⟩

theorem finish_raises (pending : Pending) (pos : Nat) : Raises SourceError.IsParse (finish pending pos) := by
  cases pending with
  | blank | comment | word start raw => exact .ok _
  | half start c => exact .error ⟨_, _, _, rfl⟩
  | quoted start raw text | escape start raw text slash => exact .error ⟨_, _, _, rfl⟩

theorem lexFrom_raises (pending : Pending) (pos : Nat) (cs : List Char) :
    Raises SourceError.IsParse (lexFrom pending pos cs) := by
  induction cs generalizing pending pos with
  | nil => exact finish_raises pending pos
  | cons c cs ih =>
    rw [lexFrom]
    split
    · rename_i e he
      exact .error (step_raises pending pos c e he)
    · rename_i tokens next _
      split
      · rename_i e he
        exact .error (ih next _ e he)
      · exact .ok _

/-! ### Parsing -/

/-- If the parser fails, then with a parse error. -/
def Complains {α : Type} (p : Parser α) : Prop := ∀ c e c', p c = .error e c' → e.IsParse

namespace Complains

variable {α β : Type} {p q : Parser α} {f : α → Parser β}

theorem pure (a : α) : Complains (Pure.pure a) := by
  rintro c e c' ⟨⟩

theorem get : Complains (MonadState.get : Parser Cursor) := by
  rintro c e c' ⟨⟩

theorem bind (hp : Complains p) (hf : ∀ a, Complains (f a)) : Complains (p >>= f) := by
  intro c e c'' h
  cases hr : p c with
  | error e' c' =>
    rw [bind_run_of_error hr] at h
    cases h
    exact hp c e c'' hr
  | ok a c' =>
    rw [bind_run_of_ok hr] at h
    exact hf a c' e c'' h

theorem fail (why : Complaint) : Complains (Source.fail why : Parser α) := by
  rintro c e c' ⟨⟩
  exact ⟨_, _, _, rfl⟩

theorem ite {b : Prop} [Decidable b] (hp : Complains p) (hq : Complains q) :
    Complains (if b then p else q) := by
  split
  · exact hp
  · exact hq

end Complains

theorem peek_complains : Complains peek := Complains.get.bind fun _ => .pure _

theorem advance_complains : Complains advance := by
  rintro c e c' ⟨⟩

theorem eat_complains (kind : TokenKind) : Complains (eat kind) :=
  peek_complains.bind fun _ => .ite (advance_complains.bind fun _ => .pure _) (.pure _)

theorem expect_complains (kind : TokenKind) : Complains (expect kind) :=
  (eat_complains kind).bind fun _ => .ite (.pure _) (.fail _)

theorem ident_complains : Complains ident := by
  refine peek_complains.bind fun kind => ?_
  split
  · exact advance_complains.bind fun _ => .pure _
  · exact .fail _

section

variable {α : Type} {more : Parser Bool} {item : Parser α}

theorem whileSome_complains (hm : Complains more) (hi : Complains item) (fuel : Nat) :
    Complains (whileSome more item fuel) := by
  induction fuel with
  | zero => exact .pure _
  | succ fuel ih =>
    exact hm.bind fun _ => .ite (hi.bind fun _ => ih.bind fun _ => .pure _) (.pure _)

theorem many_complains (hm : Complains more) (hi : Complains item) : Complains (many more item) :=
  Complains.get.bind fun _ => whileSome_complains hm hi _

theorem untilClose_complains (close : TokenKind) (hi : Complains item) (fuel : Nat) :
    Complains (untilClose close item fuel) := by
  induction fuel with
  | zero => exact .pure _
  | succ fuel ih =>
    refine (eat_complains close).bind fun _ => .ite (.pure _) ?_
    refine hi.bind fun _ => (eat_complains _).bind fun _ => .ite ?_ ?_
    · exact ih.bind fun _ => .pure _
    · exact (expect_complains close).bind fun _ => .pure _

theorem delimited_complains (close : TokenKind) (hi : Complains item) : Complains (delimited close item) :=
  Complains.get.bind fun _ => untilClose_complains close hi _

end

section

variable {type : Parser TypeExpr}

theorem parseFields_complains (ht : Complains type) (close : TokenKind) :
    Complains (parseFields type close) := by
  refine (delimited_complains close ?_).bind fun _ => .pure _
  refine Complains.get.bind fun _ => Complains.get.bind fun _ => ?_
  split
  · exact advance_complains.bind fun _ => advance_complains.bind fun _ => ht.bind fun _ => .pure _
  · exact ht.bind fun _ => .pure _

theorem parseArg_complains (ht : Complains type) : Complains (parseArg type) := by
  refine peek_complains.bind fun _ => ?_
  split
  · exact advance_complains.bind fun _ => .pure _
  · exact ht.bind fun _ => .pure _

theorem parseTypeWith_complains (ht : Complains type) : Complains (parseTypeWith type) := by
  refine Complains.get.bind fun _ => peek_complains.bind fun _ => ?_
  split
  · refine advance_complains.bind fun _ => (eat_complains _).bind fun _ => .ite ?_ ?_
    · exact (delimited_complains _ (parseArg_complains ht)).bind fun _ => Complains.get.bind fun _ => .pure _
    · exact (many_complains (eat_complains _) ident_complains).bind fun _ => .pure _
  · refine advance_complains.bind fun _ => (delimited_complains _ ht).bind fun _ => ?_
    split
    · exact .pure _
    · exact .pure _
  · exact advance_complains.bind fun _ => (parseFields_complains ht _).bind fun _ => .pure _
  · exact .fail _

end

theorem parseType_complains : Complains parseType := by
  have h : ∀ levels, Complains (parseTypeWithin levels) := by
    intro levels
    induction levels with
    | zero => exact .fail _
    | succ levels ih => exact parseTypeWith_complains ih
  exact h _

theorem parseVariant_complains : Complains parseVariant :=
  ident_complains.bind fun _ => (eat_complains _).bind fun _ =>
    .ite ((parseFields_complains parseType_complains _).bind fun _ => .pure _) (.pure _)

theorem parseArrow_complains : Complains parseArrow :=
  ident_complains.bind fun _ => (expect_complains _).bind fun _ => ident_complains.bind fun _ =>
    (expect_complains _).bind fun _ => ident_complains.bind fun _ => .pure _

theorem parseTableItem_complains : Complains parseTableItem := by
  refine Complains.get.bind fun c => ?_
  simp only
  split
  · refine advance_complains.bind fun _ => ?_
    split
    · exact ident_complains.bind fun _ => (many_complains (eat_complains _) ident_complains).bind fun _ => .pure _
    · exact parseArrow_complains.bind fun _ => .pure _
    · exact parseArrow_complains.bind fun _ => .pure _
    · exact ident_complains.bind fun _ => (expect_complains _).bind fun _ =>
        parseType_complains.bind fun _ => .pure _
    · rintro c e c' ⟨⟩
      exact ⟨_, _, _, rfl⟩
  · exact .fail _

theorem parseDecl_complains : Complains parseDecl := by
  refine peek_complains.bind fun _ => ?_
  split
  · exact advance_complains.bind fun _ => ident_complains.bind fun _ => (expect_complains _).bind fun _ =>
      (parseFields_complains parseType_complains _).bind fun _ => .pure _
  · refine advance_complains.bind fun _ => ident_complains.bind fun _ => (expect_complains _).bind fun _ => ?_
    refine (eat_complains _).bind fun _ => parseVariant_complains.bind fun _ => ?_
    exact (many_complains (eat_complains _) parseVariant_complains).bind fun _ =>
      (expect_complains _).bind fun _ => .pure _
  · exact advance_complains.bind fun _ => ident_complains.bind fun _ => (expect_complains _).bind fun _ =>
      parseType_complains.bind fun _ => .pure _
  · refine advance_complains.bind fun _ => ident_complains.bind fun _ => (expect_complains _).bind fun _ => ?_
    exact (many_complains ((eat_complains _).bind fun _ => .pure _) parseTableItem_complains).bind
      fun _ => .pure _
  · exact .fail _
  · exact .fail _

theorem parseHeader_complains : Complains parseHeader := by
  refine Complains.bind ?_ fun _ => ident_complains.bind fun _ => ?_
  · exact (eat_complains _).bind fun _ => .ite (.pure _) (.fail _)
  · exact (many_complains (eat_complains _) ident_complains).bind fun _ => .pure _

theorem parseFile_complains : Complains parseFile := by
  refine parseHeader_complains.bind fun _ => ?_
  exact (many_complains ((peek_complains.bind fun _ => .pure _).bind fun _ => .pure _)
    parseDecl_complains).bind fun _ => .pure _

theorem runOn_raises {α : Type} {p : Parser α} (hp : Complains p) (src : String) :
    Raises SourceError.IsParse (runOn p src) := by
  refine Raises.bind ((lexFrom_raises .blank 0 src.toList).bind fun _ => .ok _) fun c => ?_
  split
  · exact .ok _
  · rename_i e c' he
    exact .error (hp c e c' he)

/-- The header of a file that parses is its header. -/
theorem header_of_parseFile {src : String} {file : SourceFile} (h : runOn parseFile src = .ok file) :
    header src = .ok (file.name, file.imports) := by
  unfold runOn at h
  obtain ⟨c, hc, h⟩ := bind_eq_ok.1 h
  split at h
  · rename_i f c' hf
    cases h
    obtain ⟨head, c₁, hhead, hrest⟩ := bind_run_eq_ok.1 hf
    obtain ⟨decls, c₂, -, hpure⟩ := bind_run_eq_ok.1 hrest
    obtain ⟨rfl, -⟩ := pure_run_eq_ok.1 hpure
    have hrun : parseHeader.run c = .ok head c₁ := hhead
    rw [header, runOn, hc, ok_bind, hrun]
  · cases h

/-! ### Resolving -/

theorem inside_parse (offset : Nat) (fragment : String) (why : Complaint) :
    (SourceError.parse offset fragment why).Inside := SourceError.IsParse.inside ⟨_, _, _, rfl⟩

theorem inside_unresolved (name : String) : (SourceError.unresolved name).Inside := by
  simp [SourceError.Inside]

theorem inside_duplicate (what : Duplicated) (name : String) : (SourceError.duplicate what name).Inside := by
  simp [SourceError.Inside]

theorem resolvePath_raises (d : Draft) (segments : List String) :
    Raises SourceError.Inside (d.resolvePath segments) := by
  unfold Draft.resolvePath
  split
  · split
    · exact .ok _
    · exact .error (inside_unresolved _)
  · split
    · exact .ok _
    · exact .error (inside_unresolved _)
  · exact .error (by simp [SourceError.Inside])

variable {d : Draft}

theorem resolveElems_raises {elems : List TypeExpr}
    (h : ∀ t ∈ elems, Raises SourceError.Inside (resolveType d t)) :
    Raises SourceError.Inside (resolveElems d elems) := by
  induction elems with
  | nil => exact .ok _
  | cons t elems ih =>
    rw [resolveElems]
    exact (h t (by simp)).bind fun _ => (ih fun t ht => h t (by simp [ht])).bind fun _ => .ok _

theorem resolveFields_raises {fields : List FieldExpr}
    (h : ∀ f ∈ fields, Raises SourceError.Inside (resolveType d f.2)) (reserved : List String) (i : Nat)
    (seen : List String) : Raises SourceError.Inside (resolveFields d reserved i seen fields) := by
  induction fields generalizing i seen with
  | nil => exact .ok _
  | cons f fields ih =>
    rw [resolveFields]
    refine .ite (.error (inside_parse _ _ _)) (.ite (.error (inside_duplicate _ _)) ?_)
    refine (h f (by simp)).bind fun _ => ?_
    exact (ih (fun f hf => h f (by simp [hf])) (i + 1) _).bind fun _ => .ok _

theorem resolveArg_raises {a : TypeArg} {e : SourceError} (he : e.Inside)
    (h : ∀ t, a = .type t → Raises SourceError.Inside (resolveType d t)) :
    Raises SourceError.Inside (resolveArg d e a) := by
  cases a with
  | type t =>
    rw [resolveArg]
    exact h t rfl
  | doc text => exact .error he

theorem resolveType_raises {t : TypeExpr} (ht : t.Named) : Raises SourceError.Inside (resolveType d t) := by
  induction ht with
  | @path segments offset _ =>
    unfold resolveType
    split
    · split
      · exact .ok _
      · exact (resolvePath_raises d _).bind fun _ => .ok _
    · exact (resolvePath_raises d _).bind fun _ => .ok _
  | tuple _ ih =>
    rw [resolveType]
    exact (resolveElems_raises ih).bind fun _ => .ok _
  | record _ _ ih =>
    rw [resolveType]
    exact (resolveFields_raises ih [] 0 []).bind fun _ => .ok _
  | @apply ctor args offset fragment _ ih =>
    have hbad := inside_parse offset fragment
    have harg : ∀ why, ∀ a ∈ args, Raises SourceError.Inside (resolveArg d (.parse offset fragment why) a) :=
      fun why a ha => resolveArg_raises (hbad why) fun t he => ih t (he ▸ ha)
    unfold resolveType
    simp only
    split
    · exact (harg _ _ (by simp)).bind fun _ => .ok _
    · exact (harg _ _ (by simp)).bind fun _ => .ok _
    · exact (harg _ _ (by simp)).bind fun _ => .ok _
    · exact (harg _ _ (by simp)).bind fun _ => (harg _ _ (by simp)).bind fun _ => .ok _
    · exact (harg _ _ (by simp)).bind fun _ => .ok _
    all_goals exact .error (hbad _)

theorem claim_raises (seen : List String) (name : String) : Raises SourceError.Inside (claim seen name) :=
  .ite (.error (inside_parse _ _ _)) (.ite (.error (inside_duplicate _ _)) (.ok _))

theorem resolveKinds_raises {items : List TableItem} (hi : ∀ item ∈ items, item.Named) (seen : List String) :
    Raises SourceError.Inside (resolveKinds d seen items) := by
  induction items generalizing seen with
  | nil => exact .ok _
  | cons item items ih =>
    obtain ⟨hitem, hitems⟩ := List.forall_mem_cons.1 hi
    have ih := ih hitems
    cases item with
    | ob names =>
      exact (Raises.foldlM (fun seen name _ => claim_raises seen name) seen).bind fun seen' =>
        (ih seen').bind fun _ => .ok _
    | attrType name t =>
      exact (claim_raises seen name).bind fun seen' => (resolveType_raises (hitem.types name t rfl)).bind
        fun _ => (ih seen').bind fun _ => .ok _
    | hom name dom codom => exact (claim_raises seen name).bind fun seen' => ih seen'
    | attr name dom codom => exact (claim_raises seen name).bind fun seen' => ih seen'

theorem oneOf_raises (names : List String) (name : String) : Raises SourceError.Inside (oneOf names name) :=
  .ite (.ok _) (.error (inside_unresolved _))

theorem resolveArrows_raises (objects types : List String) (items : List TableItem) :
    Raises SourceError.Inside (resolveArrows objects types items) := by
  induction items with
  | nil => exact .ok _
  | cons item items ih =>
    cases item with
    | hom name dom codom | attr name dom codom =>
      exact (oneOf_raises _ _).bind fun _ => (oneOf_raises _ _).bind fun _ => ih.bind fun _ => .ok _
    | ob _ | attrType _ _ => exact ih

theorem resolveDecl_raises {decl : DeclExpr} (h : decl.Named) :
    Raises SourceError.Inside (resolveDecl d decl) := by
  cases decl with
  | «alias» name t => exact (resolveType_raises h.2).bind fun _ => .ok _
  | struct name fields =>
    exact (resolveFields_raises (fun f hf => resolveType_raises (h.2 f hf).2) [] 0 []).bind fun _ => .ok _
  | sum name variants =>
    refine Raises.bind (.mapM fun v hv => ?_) fun _ => .ok _
    exact (resolveFields_raises (fun f hf => resolveType_raises ((h.2 v hv).2 f hf).2) _ 0 []).bind
      fun _ => .ok _
  | table name items =>
    refine Raises.bind ?_ fun _ => .ok _
    exact (resolveKinds_raises h.2 []).bind fun _ => (resolveArrows_raises _ _ items).bind fun _ => .ok _

/-! ### Compiling -/

theorem reserveNames_raises (d : Draft) (decl : DeclExpr) :
    Raises SourceError.Inside (reserveNames d decl) := by
  refine Raises.foldlM (fun d name _ => ?_) d
  refine Raises.bind (.ite (.error (inside_parse _ _ _)) (.ok _)) fun _ => ?_
  exact .ite (.error (inside_duplicate _ _)) (.ok _)

theorem define_raises (d : Draft) (name : String) (decl : Decl) :
    Raises SourceError.Inside (d.define name decl) := by
  unfold Draft.define
  split
  · exact .ok _
  · exact .error (inside_duplicate _ _)
  · exact .error (inside_unresolved _)

theorem defineDecl_raises {decl : DeclExpr} (h : decl.Named) : Raises SourceError.Inside (defineDecl d decl) :=
  (resolveDecl_raises h).bind fun _ => .foldlM (fun d body _ => define_raises d body.1 body.2) d

theorem bodies_raises (slots : Fields (Option Decl)) : Raises SourceError.Inside (Draft.bodies slots) := by
  induction slots with
  | nil => exact .ok _
  | cons slot slots ih =>
    obtain ⟨name, decl⟩ := slot
    cases decl with
    | none => exact .error (inside_unresolved _)
    | some decl => exact ih.bind fun _ => .ok _

theorem finish_draft_raises (d : Draft) : Raises SourceError.Inside d.finish := by
  refine (bodies_raises d.slots).bind fun decls => ?_
  split
  · exact .error (by simp [SourceError.Inside])
  · exact .ok _

/-- An import is missing only if it is not available. -/
theorem importInto_raises (available : Fields Module) (d : Draft) (name : String) :
    Raises (fun e => ∀ i, e = .unknownImport i → i = name ∧ available.get? name = none)
      (importInto available d name) := by
  unfold importInto
  split
  · refine .ite (.error ?_) (.ok _)
    rintro i ⟨⟩
  · rename_i hnone
    refine .error ?_
    rintro i ⟨⟩
    exact ⟨rfl, hnone⟩

/-- A file that is refused for a missing import has it in its header, and it is not available. -/
theorem exists_missing_of_compile {available : Fields Module} {src name : String}
    (h : compile available src = .error (.unknownImport name)) :
    ∃ modName imports, header src = .ok (modName, imports) ∧ name ∈ imports ∧
      available.get? name = none := by
  have hparse := runOn_raises parseFile_complains src
  cases hfile : runOn parseFile src with
  | error e =>
    rw [compile, hfile] at h
    cases h
    exact absurd rfl ((hparse _ hfile).inside name)
  | ok file =>
    refine ⟨_, _, header_of_parseFile hfile, ?_⟩
    have hnamed := runOn_eq_ok parseFile_yields hfile
    rw [compile, hfile, ok_bind] at h
    have hfold : Raises (fun e => ∀ i, e = .unknownImport i → i ∈ file.imports ∧ available.get? i = none)
        (compileFile available file) := by
      have hmono : ∀ {α : Type} {x : Except SourceError α}, Raises SourceError.Inside x →
          Raises (fun e => ∀ i, e = .unknownImport i → i ∈ file.imports ∧ available.get? i = none) x :=
        fun hx => hx.mono fun e he i hi => absurd hi (he i)
      refine Raises.bind (.foldlM (fun d i hi => ?_) _) fun d => ?_
      · refine (importInto_raises available d i).mono fun e he i' hi' => ?_
        obtain ⟨rfl, hnone⟩ := he i' hi'
        exact ⟨hi, hnone⟩
      refine Raises.bind (.foldlM (fun d decl _ => hmono (reserveNames_raises d decl)) _) fun d => ?_
      refine Raises.bind (.foldlM (fun d decl hd => hmono (defineDecl_raises (hnamed decl hd))) _) fun d => ?_
      exact hmono (finish_draft_raises d)
    exact hfold _ h name rfl

end Source

end Wireform
