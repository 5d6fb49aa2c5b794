import Mathlib
import Wireform.Proofs.Source.Acceptance
import Wireform.Proofs.Source.Lines

/-!
# The parser accepts its grammar

On the tokens of a text the parser returns a tree exactly if the grammar derives that tree from all of them
(`parse_iff_derives`): a choice it has made was the only one that could lead to the end. So there is one
tree at most. Any name can be applied like a constructor; whether it is one is found out when names are
resolved.
-/

namespace Wireform.Source

variable {α : Type}

/-- All tokens of a text: those that the rule allows, and the end. -/
inductive Whole (G : Rule α) : Rule α
  | mk {ts : List Token} {e : Token} {a : α} : G ts a → e.kind = .eof → Whole G (ts ++ [e]) a

/-- A parser of whole texts that takes what the rule allows, and nothing else. -/
structure Recognizes (p : Parser α) (G : List Char → Rule α) : Prop where
  sound : ∀ {c a c'}, Terminated c.ahead → p c = .ok a c' →
    ∃ ts, c.Reads ts c' ∧ G c.source ts a ∧ nextKind c'.ahead = .eof
  complete : ∀ {source ts e behind a}, G source ts a → e.kind = .eof →
    ∃ c, p ⟨source, ts ++ [e], behind⟩ = .ok a c

/-- A single declaration is read up to the end of the text. -/
theorem parseSingle_complete {source : List Char} {ts : List Token} {e : Token} {behind : Nat}
    {decl : DeclExpr} (h : DeclForm source ts decl) (he : e.kind = .eof) :
    ∃ c, parseSingle ⟨source, ts ++ [e], behind⟩ = .ok decl c := by
  have hend : nextKind [e] = .eof := he
  have hatEnd : atEnd ⟨source, [e], endOf behind ts⟩ = .ok true ⟨source, [e], endOf behind ts⟩ := by
    rw [atEnd, bind_run_of_ok peek_cons, he]
    rfl
  refine ⟨⟨source, [e], endOf behind ts⟩, ?_⟩
  unfold parseSingle
  rw [bind_run_of_ok (parseDecl_complete _ _ _ _ _ h (by simp [EndsType, hend])), bind_run_of_ok hatEnd]
  rfl

theorem parseSingle_recognizes : Recognizes parseSingle DeclForm where
  sound hc h := parseSingle_sound hc h
  complete h he := parseSingle_complete h he

theorem parseFile_recognizes : Recognizes parseFile FileForm where
  sound hc h := parseFile_sound hc h
  complete h he := parseFile_complete h he

section

variable {p : Parser α} {G : List Char → Rule α} {src : String} {ts : List Token} {a b : α}

theorem runOn_eq_ok_iff (ht : tokenize src = .ok ts) :
    runOn p src = .ok a ↔ ∃ c, p ⟨src.toList, ts, 0⟩ = .ok a c := by
  have hopen : Cursor.ofSource src = .ok ⟨src.toList, ts, 0⟩ := by
    rw [Cursor.ofSource, ht]
    rfl
  rw [runOn, hopen, ok_bind, EStateM.run]
  cases p ⟨src.toList, ts, 0⟩ <;> simp

theorem Recognizes.runOn_iff (h : Recognizes p G) (ht : tokenize src = .ok ts) :
    runOn p src = .ok a ↔ Whole (G src.toList) ts a := by
  rw [runOn_eq_ok_iff ht]
  constructor
  · rintro ⟨c', hp⟩
    obtain ⟨us, e, hus, he, -⟩ := exists_lexes ht
    obtain ⟨ts', hr, hg, hend⟩ := h.sound (c := ⟨src.toList, ts, 0⟩) ⟨us, e, hus, he⟩ hp
    obtain ⟨e, ha, he⟩ := ahead_eq_of_reads (c := ⟨src.toList, ts, 0⟩) ht hr hend
    obtain rfl : ts = ts' ++ [e] := ha
    exact .mk hg he
  · rintro ⟨hg, he⟩
    exact h.complete hg he

theorem Recognizes.unique (h : Recognizes p G) (ht : tokenize src = .ok ts) (ha : Whole (G src.toList) ts a)
    (hb : Whole (G src.toList) ts b) : a = b := by
  rw [← h.runOn_iff ht] at ha hb
  exact Except.ok.inj (ha.symm.trans hb)

end

/-- On the tokens of a text a declaration and a file are read exactly as the grammar derives them, types in
types up to the limit, and there is one way at most to derive them. -/
theorem parse_iff_derives {src : String} {ts : List Token} (ht : tokenize src = .ok ts) :
    (∀ decl, runOn parseSingle src = .ok decl ↔ Whole (DeclForm src.toList) ts decl) ∧
    (∀ file, runOn parseFile src = .ok file ↔ Whole (FileForm src.toList) ts file) ∧
    (∀ decl decl', Whole (DeclForm src.toList) ts decl → Whole (DeclForm src.toList) ts decl' → decl = decl') ∧
    ∀ file file', Whole (FileForm src.toList) ts file → Whole (FileForm src.toList) ts file' → file = file' :=
  ⟨fun _ => parseSingle_recognizes.runOn_iff ht, fun _ => parseFile_recognizes.runOn_iff ht,
    fun _ _ => parseSingle_recognizes.unique ht, fun _ _ => parseFile_recognizes.unique ht⟩

/-- Words of the language as names, a path of three names, a group in a tuple of one element, lists that are
empty or end with a comma, and a text among the arguments of any constructor. -/
def keywordsText : String :=
  "sum ob \x7b alias(struct :: a.b.c, Map(\"k\", ((Str),), ()),) | sum \x7d"

def keywordsDecl : DeclExpr :=
  .sum "ob" [("alias", [(some "struct", .path ["a", "b", "c"] 25),
    (none, .apply "Map" [.doc "k", .type (.tuple [.path ["Str"] 43]), .type (.tuple [])] 32
      "Map(\"k\", ((Str),), ())")]), ("sum", [])]

theorem parse_keywordsText : runOn parseSingle keywordsText = .ok keywordsDecl := by cbv

theorem parse_iff_derives_keywordsText :
    ∃ ts, tokenize keywordsText = .ok ts ∧ runOn parseSingle keywordsText = .ok keywordsDecl ∧
      Whole (DeclForm keywordsText.toList) ts keywordsDecl ∧
      ∀ decl, Whole (DeclForm keywordsText.toList) ts decl → decl = keywordsDecl := by
  obtain ⟨c, -, -, ht, -, -⟩ := exists_run parse_keywordsText
  obtain ⟨hsingle, -, hunique, -⟩ := parse_iff_derives ht
  have hderived := (hsingle keywordsDecl).1 parse_keywordsText
  exact ⟨c.ahead, ht, parse_keywordsText, hderived, fun decl h => hunique decl _ h hderived⟩

/-! ### Names that are applied -/

mutual

/-- The names that stand in front of arguments. -/
def TypeExpr.applied : TypeExpr → List String
  | .path _ _ => []
  | .apply ctor args _ _ => ctor :: appliedInArgs args
  | .tuple elems => appliedInElems elems
  | .record fields => appliedInFields fields

def TypeArg.applied : TypeArg → List String
  | .type t => t.applied
  | .doc _ => []

def appliedInArgs : List TypeArg → List String
  | [] => []
  | a :: args => a.applied ++ appliedInArgs args

def appliedInElems : List TypeExpr → List String
  | [] => []
  | t :: elems => t.applied ++ appliedInElems elems

def appliedInFields : List (Option String × TypeExpr) → List String
  | [] => []
  | (_, t) :: fields => t.applied ++ appliedInFields fields

end

def DeclExpr.applied : DeclExpr → List String
  | .alias _ t => t.applied
  | .struct _ fields => appliedInFields fields
  | .sum _ variants => variants.flatMap fun v => appliedInFields v.2
  | .table _ items => items.flatMap fun item =>
    match item with
    | .attrType _ t => t.applied
    | _ => []

/-- A declaration in which nothing is applied but the constructors there are. -/
def ListedForm (source : List Char) : Rule DeclExpr :=
  fun ts decl => DeclForm source ts decl ∧ ∀ ctor ∈ decl.applied, ctor ∈ typeCtors

theorem parse_unlisted :
    runOn parseSingle "alias A = Lst(I32)" =
      .ok (.alias "A" (.apply "Lst" [.type (.path ["I32"] 14)] 10 "Lst(I32)")) := by cbv

/-- The parser takes a name for a constructor that is none. -/
theorem parse_not_listed :
    ∃ ts decl, tokenize "alias A = Lst(I32)" = .ok ts ∧ runOn parseSingle "alias A = Lst(I32)" = .ok decl ∧
      ∀ decl', ¬ Whole (ListedForm "alias A = Lst(I32)".toList) ts decl' := by
  obtain ⟨c, -, -, ht, -, -⟩ := exists_run parse_unlisted
  refine ⟨c.ahead, _, ht, parse_unlisted, ?_⟩
  generalize c.ahead = ts at ht ⊢
  rintro decl' ⟨hlisted, he⟩
  have hform := parseSingle_recognizes.unique ht (.mk hlisted.1 he)
    ((parseSingle_recognizes.runOn_iff ht).1 parse_unlisted)
  have hctor := hlisted.2 "Lst" (by simp [hform, DeclExpr.applied, TypeExpr.applied])
  simp [typeCtors] at hctor

end Wireform.Source
