import Mathlib
import Wireform.Proofs.Source.Acceptance
import Wireform.Proofs.Source.Derivation
import Wireform.Proofs.Source.Names
import Wireform.Proofs.Source.Places

/-!
# Texts line by line

At the end of a line the lexer forgets what it is in the middle of, unless that is a string. So the tokens
of two texts with a line break between them are those of the first and then those of the second, but for
their places (`Lexes.line`). The parser sees no more than that: a text is a file exactly if its tokens are
those of a header and of some declarations (`Pieces`).
-/

namespace Wireform.Source

/-! ### Places -/

/-- The same token that far behind. -/
def Token.shift (k : Nat) (t : Token) : Token := ⟨t.kind, t.start + k, t.stop + k⟩

def Pending.shift (k : Nat) : Pending → Pending
  | .blank => .blank
  | .comment => .comment
  | .word start raw => .word (start + k) raw
  | .half start c => .half (start + k) c
  | .quoted start raw text => .quoted (start + k) raw text
  | .escape start raw text slash => .escape (start + k) raw text (slash + k)

theorem kinds_map_shift (k : Nat) (ts : List Token) : kinds (ts.map (Token.shift k)) = kinds ts := by
  simp [kinds, Function.comp_def, Token.shift]

section

variable {pending next : Pending} {pos : Nat} {c : Char} {cs : List Char} {tokens : List Token}

theorem begin_shift (k : Nat) (h : begin pos c = .ok (tokens, next)) :
    begin (pos + k) c = .ok (tokens.map (Token.shift k), next.shift k) := by
  unfold begin at h ⊢
  split_ifs at h ⊢ with h₁ h₂ h₃ h₄ h₅
  · cases h; rfl
  · cases h; rfl
  · cases h; rfl
  · cases h; rfl
  · cases h; rfl
  · split at h
    · cases h
      simp [Token.shift, Pending.shift, Nat.add_right_comm]
    · cases h

theorem step_shift (k : Nat) (h : step pending pos c = .ok (tokens, next)) :
    step (pending.shift k) (pos + k) c = .ok (tokens.map (Token.shift k), next.shift k) := by
  cases pending with
  | blank => exact begin_shift k h
  | comment =>
    cases h
    simp only [Pending.shift, step]
    split <;> rfl
  | word start raw =>
    simp only [Pending.shift, step] at h ⊢
    split_ifs at h ⊢ with hc
    · cases h
      rfl
    · obtain ⟨⟨tokens', next'⟩, hb, h⟩ := bind_eq_ok.1 h
      cases h
      rw [begin_shift k hb]
      rfl
  | half start c' =>
    simp only [Pending.shift, step] at h ⊢
    split at h
    · cases h
      simp [Token.shift, Nat.add_right_comm]
    · cases h
  | quoted start raw text =>
    simp only [Pending.shift, step] at h ⊢
    split_ifs at h ⊢ with h₁ h₂
    · cases h
      simp [Token.shift, Nat.add_right_comm]
    · cases h
      rfl
    · cases h
      rfl
  | escape start raw text slash =>
    simp only [Pending.shift, step] at h ⊢
    split at h
    · cases h
      rfl
    · cases h

theorem finish_shift (k : Nat) (h : finish pending pos = .ok tokens) :
    finish (pending.shift k) (pos + k) = .ok (tokens.map (Token.shift k)) := by
  cases pending with
  | blank | comment | word => cases h; rfl
  | half | quoted | escape => cases h

/-- A text has the same tokens wherever it starts. -/
theorem lexFrom_shift (k : Nat) (h : lexFrom pending pos cs = .ok tokens) :
    lexFrom (pending.shift k) (pos + k) cs = .ok (tokens.map (Token.shift k)) := by
  induction cs generalizing pending pos tokens with
  | nil => exact finish_shift k h
  | cons c cs ih =>
    unfold lexFrom at h ⊢
    split at h
    · cases h
    rename_i first next hs
    split at h
    · cases h
    rename_i rest hr
    cases h
    rw [step_shift k hs, Nat.add_right_comm]
    simp [ih hr]

/-! ### The ends of lines -/

theorem begin_ne_eof (h : begin pos c = .ok (tokens, next)) : ∀ t ∈ tokens, t.kind ≠ .eof := by
  unfold begin at h
  split_ifs at h with h₁ h₂ h₃ h₄ h₅
  · cases h; simp
  · cases h; simp
  · cases h; simp
  · cases h; simp
  · cases h; simp
  · split at h
    · rename_i kind hk
      cases h
      rw [List.forall_mem_singleton]
      rintro rfl
      unfold singleToken? at hk
      split_ifs at hk <;> cases hk
    · cases h

theorem step_ne_eof (h : step pending pos c = .ok (tokens, next)) : ∀ t ∈ tokens, t.kind ≠ .eof := by
  cases pending with
  | blank => exact begin_ne_eof h
  | comment => cases h; simp
  | word start raw =>
    simp only [step] at h
    split_ifs at h
    · cases h; simp
    · obtain ⟨⟨tokens', next'⟩, hb, h⟩ := bind_eq_ok.1 h
      cases h
      exact List.forall_mem_cons.2 ⟨by simp [wordToken], begin_ne_eof hb⟩
  | half start c' =>
    simp only [step] at h
    split at h
    · rename_i kind hk
      cases h
      rw [List.forall_mem_singleton]
      rintro rfl
      unfold halfToken? at hk
      split_ifs at hk <;> cases hk
    · cases h
  | quoted start raw text =>
    simp only [step] at h
    split_ifs at h <;> cases h <;> simp
  | escape start raw text slash =>
    simp only [step] at h
    split at h <;> cases h
    simp

/-- What is pending at the end of a text that is complete ends with the line. -/
theorem step_newline (h : finish pending pos = .ok tokens) :
    ∃ ts, tokens = ts ++ [⟨.eof, pos, pos⟩] ∧ step pending pos '\n' = .ok (ts, .blank) := by
  cases pending with
  | blank => cases h; exact ⟨[], rfl, rfl⟩
  | comment => cases h; exact ⟨[], rfl, rfl⟩
  | word start raw => cases h; exact ⟨[wordToken start pos raw], rfl, rfl⟩
  | half | quoted | escape => cases h

/-- The tokens of a text are followed by its end, or by those of the next line. -/
theorem lexFrom_line (h : lexFrom pending pos cs = .ok tokens) :
    ∃ ts e k, tokens = ts ++ [e] ∧ e.kind = .eof ∧ (∀ t ∈ ts, t.kind ≠ .eof) ∧
      ∀ rest us, lexFrom .blank k rest = .ok us → lexFrom pending pos (cs ++ '\n' :: rest) = .ok (ts ++ us) := by
  induction cs generalizing pending pos tokens with
  | nil =>
    obtain ⟨ts, rfl, hs⟩ := step_newline h
    refine ⟨ts, _, pos + 1, rfl, rfl, step_ne_eof hs, fun rest us hr => ?_⟩
    rw [List.nil_append, lexFrom, hs]
    simp [hr, show '\n'.utf8Size = 1 from rfl]
  | cons c cs ih =>
    unfold lexFrom at h
    split at h
    · cases h
    rename_i first next hs
    split at h
    · cases h
    rename_i rest hr
    cases h
    obtain ⟨ts, e, k, rfl, he, hne, hline⟩ := ih hr
    refine ⟨first ++ ts, e, k, by simp, he, List.forall_mem_append.2 ⟨step_ne_eof hs, hne⟩, ?_⟩
    intro rest us hrest
    rw [List.cons_append, lexFrom, hs]
    simp [hline rest us hrest]

end

/-! ### Kinds of tokens -/

/-- The tokens of a text before its end have these kinds. -/
def Lexes (src : String) (ks : List TokenKind) : Prop :=
  ∃ ts e, tokenize src = .ok (ts ++ [e]) ∧ kinds ts = ks ∧ e.kind = .eof ∧ .eof ∉ ks

theorem exists_lexes {src : String} {tokens : List Token} (h : tokenize src = .ok tokens) :
    ∃ ts e, tokens = ts ++ [e] ∧ e.kind = .eof ∧ Lexes src (kinds ts) := by
  obtain ⟨ts, e, -, rfl, he, hne, -⟩ := lexFrom_line h
  refine ⟨ts, e, rfl, he, ts, e, h, rfl, he, fun hm => ?_⟩
  obtain ⟨t, ht, hk⟩ := List.mem_map.1 hm
  exact hne t ht hk

namespace Lexes

variable {a b : String} {ks ls : List TokenKind}

theorem line (ha : Lexes a ks) (hb : Lexes b ls) : Lexes (a ++ "\n" ++ b) (ks ++ ls) := by
  obtain ⟨ts, e, hts, rfl, he, hks⟩ := ha
  obtain ⟨us, e', hus, rfl, he', hls⟩ := hb
  obtain ⟨ts', e'', k, heq, -, -, hline⟩ := lexFrom_line hts
  obtain ⟨rfl, -⟩ := List.append_inj' heq rfl
  have hb := hline b.toList _ (Nat.zero_add k ▸ lexFrom_shift k hus)
  rw [List.map_append, List.map_singleton, ← List.append_assoc] at hb
  refine ⟨ts ++ us.map (Token.shift k), e'.shift k, ?_, ?_, he', by simp [hks, hls]⟩
  · rw [tokenize]
    simpa using hb
  · rw [kinds, List.map_append, ← kinds, ← kinds, kinds_map_shift]

theorem lines {texts : List String} {kss : List (List TokenKind)} (h : List.Forall₂ Lexes texts kss)
    (hne : texts ≠ []) : Lexes ("\n".intercalate texts) kss.flatten := by
  induction h with
  | nil => exact absurd rfl hne
  | @cons text ks texts kss hk hrest ih =>
    cases hrest with
    | nil => simpa using hk
    | @cons text' ks' texts kss hk' hrest =>
      have := hk.line (ih (by simp))
      simpa [String.append_assoc] using this

end Lexes

/-! ### Words -/

theorem begin_word {c : Char} (pos : Nat) (h : isIdentStart c = true) : begin pos c = .ok ([], .word pos [c]) := by
  have hne : ∀ x, isIdentStart x = false → c ≠ x := by
    rintro x hx rfl
    rw [hx] at h
    cases h
  have h₁ := hne ' ' (by decide)
  have h₂ := hne '\t' (by decide)
  have h₃ := hne '\r' (by decide)
  have h₄ := hne '\n' (by decide)
  have h₅ := hne '#' (by decide)
  have h₆ := hne ':' (by decide)
  have h₇ := hne '-' (by decide)
  have h₈ := hne '"' (by decide)
  simp [begin, *]

theorem lexFrom_cons {pending next : Pending} {pos : Nat} {c : Char} {tokens : List Token}
    (h : step pending pos c = .ok (tokens, next)) (cs : List Char) :
    lexFrom pending pos (c :: cs) = (lexFrom next (pos + c.utf8Size) cs).map (tokens ++ ·) := by
  rw [lexFrom, h]
  cases hl : lexFrom next (pos + c.utf8Size) cs <;> simp [hl, Except.map]

/-- A character that ends no token. -/
theorem lexFrom_cons_of_inside {pending next : Pending} {pos : Nat} {c : Char}
    (h : step pending pos c = .ok ([], next)) (cs : List Char) :
    lexFrom pending pos (c :: cs) = lexFrom next (pos + c.utf8Size) cs := by
  rw [lexFrom_cons h]
  cases lexFrom next (pos + c.utf8Size) cs <;> rfl

theorem lexFrom_continue {cs : List Char} (h : ∀ c ∈ cs, isIdentContinue c = true) (start pos : Nat)
    (raw rest : List Char) :
    lexFrom (.word start raw) pos (cs ++ rest) =
      lexFrom (.word start (cs.reverse ++ raw)) (pos + String.utf8Len cs) rest := by
  induction cs generalizing pos raw with
  | nil => rfl
  | cons c cs ih =>
    obtain ⟨hc, hcs⟩ := List.forall_mem_cons.1 h
    have hs : step (.word start raw) pos c = .ok ([], .word start (c :: raw)) := if_pos hc
    rw [List.cons_append, lexFrom_cons_of_inside hs, ih hcs, String.utf8Len_cons, List.reverse_cons,
      List.append_assoc, List.singleton_append, Nat.add_assoc, Nat.add_comm c.utf8Size]

/-- An identifier is read as a whole. -/
theorem lexFrom_identifier {name : String} (h : Identifier name) (pos : Nat) (rest : List Char) :
    lexFrom .blank pos (name.toList ++ rest) =
      lexFrom (.word pos name.toList.reverse) (pos + String.utf8Len name.toList) rest := by
  obtain ⟨c, cs, he, hc, hcs⟩ := h
  have hs : step .blank pos c = .ok ([], .word pos [c]) := begin_word pos hc
  rw [he, List.cons_append, lexFrom_cons_of_inside hs, lexFrom_continue hcs, String.utf8Len_cons,
    List.reverse_cons, Nat.add_assoc, Nat.add_comm c.utf8Size]

/-- Two words, as in the lines of a header. -/
theorem Lexes.words {a b : String} (ha : Identifier a) (hb : Identifier b) :
    Lexes (a ++ " " ++ b) [.ident a, .ident b] := by
  have hk := lexFrom_identifier ha 0 (' ' :: b.toList)
  generalize 0 + String.utf8Len a.toList = k at hk
  have hl := lexFrom_identifier hb (k + 1) []
  rw [List.append_nil] at hl
  generalize k + 1 + String.utf8Len b.toList = l at hl
  have hblank : step (.word 0 a.toList.reverse) k ' ' = .ok ([wordToken 0 k a.toList.reverse], .blank) := rfl
  refine ⟨[wordToken 0 k a.toList.reverse, wordToken (k + 1) l b.toList.reverse], ⟨.eof, l, l⟩, ?_, ?_, rfl,
    by simp⟩
  · rw [tokenize, String.toList_append, String.toList_append, List.append_assoc]
    refine hk.trans ?_
    rw [lexFrom, hblank]
    simp [hl, lexFrom, finish, show ' '.utf8Size = 1 from rfl]
  · simp [kinds, wordToken]

/-! ### Declarations in a text -/

/-- Tokens of these kinds make up the declaration. -/
def Spells (ks : List TokenKind) (decl : DeclExpr) : Prop :=
  ∃ source ts, kinds ts = ks ∧ DeclForm source ts decl

theorem exists_run {α : Type} {p : Parser α} {src : String} {a : α} (h : runOn p src = .ok a) :
    ∃ c c', c.source = src.toList ∧ tokenize src = .ok c.ahead ∧ Terminated c.ahead ∧ p c = .ok a c' := by
  obtain ⟨c, hc, h⟩ := bind_eq_ok.1 h
  obtain ⟨tokens, ht, hc⟩ := bind_eq_ok.1 hc
  cases hc
  split at h
  · rename_i a' c' hp
    cases h
    obtain ⟨ts, e, rfl, he, -⟩ := exists_lexes ht
    exact ⟨_, c', rfl, ht, ⟨ts, e, rfl, he⟩, hp⟩
  · cases h

/-- No token but the last is the end, so what was read up to the end is the text. -/
theorem ahead_eq_of_reads {src : String} {c c' : Cursor} {us : List Token} (ht : tokenize src = .ok c.ahead)
    (hr : c.Reads us c') (hend : nextKind c'.ahead = .eof) : ∃ e, c.ahead = us ++ [e] ∧ e.kind = .eof := by
  obtain ⟨ts, e, ha, -, hlex⟩ := exists_lexes ht
  obtain ⟨vs, e', hv, he'⟩ := hr.terminated
  have hsplit : ts ++ [e] = us ++ vs ++ [e'] := by rw [List.append_assoc, ← hv, ← hr.ahead, ha]
  obtain ⟨rfl, -⟩ := List.append_inj' hsplit rfl
  cases vs with
  | nil => exact ⟨e', by rw [hr.ahead, hv, List.nil_append], he'⟩
  | cons v vs =>
    obtain ⟨-, -, -, -, -, hne⟩ := hlex
    rw [hv] at hend
    refine absurd (List.mem_map.2 ⟨v, ?_, hend⟩) hne
    simp

theorem lexes_of_reads {src : String} {c c' : Cursor} {us : List Token} (ht : tokenize src = .ok c.ahead)
    (hr : c.Reads us c') (hend : nextKind c'.ahead = .eof) : Lexes src (kinds us) := by
  obtain ⟨ts, e, ha, -, hlex⟩ := exists_lexes ht
  obtain ⟨e', ha', -⟩ := ahead_eq_of_reads ht hr hend
  obtain ⟨rfl, -⟩ := List.append_inj' (ha.symm.trans ha') rfl
  exact hlex

theorem exists_spells {src : String} {decl : DeclExpr} (h : runOn parseSingle src = .ok decl) :
    ∃ ks, Lexes src ks ∧ Spells ks decl := by
  obtain ⟨c, c', hs, ht, hc, h⟩ := exists_run h
  obtain ⟨ts, hr, hform, hend⟩ := parseSingle_sound hc h
  exact ⟨kinds ts, lexes_of_reads ht hr hend, c.source, ts, rfl, hform⟩

def headerKinds (name : String) (imports : List String) : List TokenKind :=
  .ident "module" :: .ident name :: imports.flatMap fun i => [.ident "import", .ident i]

/-- A text made of a header and then of pieces that are declarations. -/
structure Pieces (src name : String) (imports : List String) (pieces : List (List TokenKind)) : Prop where
  lexes : Lexes src (headerKinds name imports ++ pieces.flatten)
  spelled : ∀ ks ∈ pieces, ∃ decl, Spells ks decl

section

variable {ts : List Token} {imports : List String} {pieces : List (List TokenKind)} {decls : List DeclExpr}

theorem repeated_imports_iff :
    Repeated (After (.ident "import") Word) ts imports ↔
      kinds ts = imports.flatMap fun i => [.ident "import", .ident i] := by
  constructor
  · intro h
    induction h with
    | nil => rfl
    | cons ha _ ih =>
      obtain ⟨ht, hw⟩ := ha
      obtain ⟨hu⟩ := hw
      rw [List.flatMap_cons, ← ih]
      simp [kinds, ht, hu]
  · intro h
    induction imports generalizing ts with
    | nil =>
      obtain rfl := kinds_eq_nil h
      exact .nil
    | cons i imports ih =>
      obtain ⟨t, us, rfl, ht, h⟩ := List.map_eq_cons_iff.1 h
      obtain ⟨u, us, rfl, hu, h⟩ := List.map_eq_cons_iff.1 h
      exact .cons (.mk ht (.mk hu)) (ih h)

theorem exists_pieces_of_repeated {source : List Char} (h : Repeated (DeclForm source) ts decls) :
    ∃ pieces : List (List TokenKind), kinds ts = pieces.flatten ∧ ∀ ks ∈ pieces, ∃ decl, Spells ks decl := by
  induction h with
  | nil => exact ⟨[], rfl, by simp⟩
  | @cons us vs decl decls hd _ ih =>
    obtain ⟨pieces, hk, hp⟩ := ih
    refine ⟨kinds us :: pieces, ?_, List.forall_mem_cons.2 ⟨⟨decl, source, us, rfl, hd⟩, hp⟩⟩
    rw [List.flatten_cons, ← hk, kinds, List.map_append]
    rfl

theorem repeated_of_pieces (source : List Char) (h : kinds ts = pieces.flatten)
    (hd : List.Forall₂ Spells pieces decls) :
    ∃ decls', Repeated (DeclForm source) ts decls' ∧ List.Forall₂ Spells pieces decls' ∧
      List.Forall₂ DeclExpr.Like decls decls' := by
  induction hd generalizing ts with
  | nil =>
    obtain rfl := kinds_eq_nil h
    exact ⟨[], .nil, .nil, .nil⟩
  | cons hs _ ih =>
    obtain ⟨us, vs, rfl, hu, hv⟩ := List.map_eq_append_iff.1 h
    obtain ⟨source', ws, rfl, hform⟩ := hs
    obtain ⟨decl', hform', hl⟩ := DeclForm.carries source' source _ _ us hform hu
    obtain ⟨decls', hr, hs, hls⟩ := ih hv
    exact ⟨decl' :: decls', .cons hform' hr, .cons ⟨source, us, hu, hform'⟩ hs, .cons hl hls⟩

end

/-- A text that is read as a file has such pieces. -/
theorem exists_pieces {src : String} {file : SourceFile} (h : runOn parseFile src = .ok file) :
    ∃ pieces, Pieces src file.name file.imports pieces := by
  obtain ⟨c, c', hs, ht, hc, h⟩ := exists_run h
  obtain ⟨_, hr, hform, hend⟩ := parseFile_sound hc h
  have hlex := lexes_of_reads ht hr hend
  obtain ⟨hk, hn, himports, hdecls⟩ := hform
  obtain ⟨pieces, hp, hspelled⟩ := exists_pieces_of_repeated hdecls
  refine ⟨pieces, ?_, hspelled⟩
  rw [← hp, headerKinds, ← repeated_imports_iff.1 himports]
  simpa [kinds, hk, hn] using hlex

/-- A text with such pieces is read as a file, and its declarations are what the pieces spell. -/
theorem parseFile_of_lexes {src name : String} {imports : List String} {pieces : List (List TokenKind)}
    {decls : List DeclExpr} (h : Lexes src (headerKinds name imports ++ pieces.flatten))
    (hd : List.Forall₂ Spells pieces decls) :
    ∃ decls', runOn parseFile src = .ok ⟨name, imports, decls'⟩ ∧ List.Forall₂ Spells pieces decls' ∧
      List.Forall₂ DeclExpr.Like decls decls' := by
  obtain ⟨ts, e, ht, hk, he, -⟩ := h
  obtain ⟨header, body, rfl, hheader, hbody⟩ := List.map_eq_append_iff.1 hk
  obtain ⟨word, us, rfl, hword, hus⟩ := List.map_eq_cons_iff.1 hheader
  obtain ⟨n, us, rfl, hn, himports⟩ := List.map_eq_cons_iff.1 hus
  obtain ⟨decls', hdecls, hspells, hl⟩ := repeated_of_pieces src.toList hbody hd
  have hfile : FileForm src.toList _ _ := .mk hword hn (repeated_imports_iff.2 himports) hdecls
  obtain ⟨c, hc⟩ := @parseFile_complete src.toList _ e 0 _ hfile he
  refine ⟨decls', ?_, hspells, hl⟩
  have hopen : Cursor.ofSource src = .ok ⟨src.toList, word :: n :: (us ++ body) ++ [e], 0⟩ := by
    rw [Cursor.ofSource, ht]
    rfl
  rw [runOn, hopen, ok_bind, EStateM.run, hc]

end Wireform.Source
