import Mathlib
import Wireform.Proofs.Source.Lines
import Wireform.Proofs.Source.Resolve

/-!
# The tokens of a printed type

The surface text of a type is made of words, marks and quoted texts. The lexer takes it apart into just
these, wherever the text stands, as long as it knows the escapes in the quoted texts; at the first escape
that it does not know it stops (`Prints`).
-/

namespace Wireform

/-! ### Quoted texts -/

namespace Text

/-- Quotes show the character as it is, or by one of the escapes that sources have. -/
def Legible (c : Char) : Prop :=
  escapeChar c = c.toString ∨ escapeChar c ∈ ["\\n", "\\t", "\\\"", "\\\\"]

theorem escapeChar_cases (c : Char) :
    (c ≠ '"' ∧ c ≠ '\\' ∧ (escapeChar c).toList = [c]) ∨
      (∃ x, Source.unescape? x = some c ∧ (escapeChar c).toList = ['\\', x]) ∨
      ∃ x tail, Source.unescape? x = none ∧ (escapeChar c).toList = '\\' :: x :: tail := by
  unfold escapeChar
  split_ifs with h₁ h₂ h₃ h₄ h₅ h₆ h₇
  · exact .inr (.inl ⟨'"', by rw [h₁]; rfl, rfl⟩)
  · exact .inr (.inl ⟨'\\', by rw [h₂]; rfl, rfl⟩)
  · exact .inr (.inl ⟨'n', by rw [h₃]; rfl, rfl⟩)
  · exact .inr (.inr ⟨'r', [], rfl, rfl⟩)
  · exact .inr (.inl ⟨'t', by rw [h₅]; rfl, rfl⟩)
  · exact .inr (.inr ⟨'0', [], rfl, rfl⟩)
  · exact .inr (.inr ⟨'u', '{' :: (hexOfNat c.toNat).toList ++ ['}'], rfl, by simp⟩)
  · exact .inl ⟨h₁, h₂, by simp⟩

theorem legible_of_unescape? {c x : Char} (hx : Source.unescape? x = some c)
    (h : (escapeChar c).toList = ['\\', x]) : Legible c := by
  have he : escapeChar c = String.ofList ['\\', x] := by rw [← h, String.ofList_toList]
  unfold Source.unescape? at hx
  right
  rw [he]
  split_ifs at hx with h₁ h₂ h₃ h₄
  · subst h₁; decide
  · subst h₂; decide
  · subst h₃; decide
  · subst h₄; decide

theorem not_legible_of_unescape? {c x : Char} {tail : List Char} (hx : Source.unescape? x = none)
    (h : (escapeChar c).toList = '\\' :: x :: tail) : ¬ Legible c := by
  rintro (he | he)
  · rw [he] at h
    simp at h
  · simp only [List.mem_cons, List.not_mem_nil, or_false] at he
    rcases he with he | he | he | he
    all_goals
      rw [he] at h
      cases h
      cases hx

end Text

namespace Source

/-- Inside of a string the lexer reads a character from its quoted form, or does not know the escape. -/
theorem lexFrom_escapeChar (start pos : Nat) (raw text rest : List Char) (c : Char) :
    Text.Legible c ∧ (∃ raw' k, lexFrom (.quoted start raw text) pos ((Text.escapeChar c).toList ++ rest) =
      lexFrom (.quoted start raw' (c :: text)) k rest) ∨
    ¬ Text.Legible c ∧
      ∃ e, lexFrom (.quoted start raw text) pos ((Text.escapeChar c).toList ++ rest) = .error e := by
  rcases Text.escapeChar_cases c with ⟨hq, hs, h⟩ | ⟨x, hx, h⟩ | ⟨x, tail, hx, h⟩
  · have hstep : step (.quoted start raw text) pos c = .ok ([], .quoted start (c :: raw) (c :: text)) := by
      simp only [step, hq, hs, if_false]
    refine .inl ⟨.inl ?_, c :: raw, pos + c.utf8Size, ?_⟩
    · rw [← String.toList_inj, h]
      simp
    · rw [h, List.singleton_append, lexFrom_cons_of_inside hstep]
  · have hstep : step (.escape start ('\\' :: raw) text pos) (pos + 1) x =
        .ok ([], .quoted start (x :: '\\' :: raw) (c :: text)) := by
      simp only [step, hx]
    refine .inl ⟨Text.legible_of_unescape? hx h, x :: '\\' :: raw, pos + 1 + x.utf8Size, ?_⟩
    rw [h, List.cons_append, lexFrom_cons_of_inside rfl, List.singleton_append]
    exact lexFrom_cons_of_inside hstep rest
  · refine .inr ⟨Text.not_legible_of_unescape? hx h, .parse pos ("\\" ++ x.toString) .unknownEscape, ?_⟩
    rw [h, List.cons_append, lexFrom_cons_of_inside rfl, List.cons_append, lexFrom]
    simp only [step, hx]

theorem lexFrom_escapeChars (start pos : Nat) (raw text rest cs : List Char) :
    (∀ c ∈ cs, Text.Legible c) ∧
      (∃ raw' k, lexFrom (.quoted start raw text) pos (cs.flatMap (fun c => (Text.escapeChar c).toList) ++ rest) =
        lexFrom (.quoted start raw' (cs.reverse ++ text)) k rest) ∨
    (∃ c ∈ cs, ¬ Text.Legible c) ∧
      ∃ e, lexFrom (.quoted start raw text) pos (cs.flatMap (fun c => (Text.escapeChar c).toList) ++ rest) =
        .error e := by
  induction cs generalizing pos raw text with
  | nil => exact .inl ⟨by simp, raw, pos, rfl⟩
  | cons c cs ih =>
    rw [List.flatMap_cons, List.append_assoc]
    rcases lexFrom_escapeChar start pos raw text
      (cs.flatMap (fun c => (Text.escapeChar c).toList) ++ rest) c with ⟨hc, raw', k, h⟩ | ⟨hc, e, h⟩
    · rcases ih k raw' (c :: text) with ⟨hcs, raw'', k', h'⟩ | ⟨⟨x, hx, hn⟩, e, h'⟩
      · refine .inl ⟨List.forall_mem_cons.2 ⟨hc, hcs⟩, raw'', k', ?_⟩
        rw [h, h', List.reverse_cons, List.append_assoc, List.singleton_append]
      · exact .inr ⟨⟨x, by simp [hx], hn⟩, e, h.trans h'⟩
    · exact .inr ⟨⟨c, by simp, hc⟩, e, h⟩

/-! ### Printed tokens -/

def TokenKind.Legible : TokenKind → Prop
  | .str s => ∀ c ∈ s.toList, Text.Legible c
  | _ => True

/-- Before what may follow, the text is read as tokens of these kinds and nothing of it is left pending; if
one of them is not legible, reading ends there. -/
def Prints (follow : List Char → Prop) (text : String) (ks : List TokenKind) : Prop :=
  ∀ pos rest, follow rest →
    (∀ k ∈ ks, k.Legible) ∧ (∃ ts stop, kinds ts = ks ∧
      lexFrom .blank pos (text.toList ++ rest) = (lexFrom .blank stop rest).map (ts ++ ·)) ∨
    (∃ k ∈ ks, ¬ k.Legible) ∧ ∃ e, lexFrom .blank pos (text.toList ++ rest) = .error e

/-- A word may stand before this. -/
def Apart (rest : List Char) : Prop := ∀ c ∈ rest.head?, isIdentContinue c = false

abbrev Anything (_ : List Char) : Prop := True

theorem lexFrom_word {rest : List Char} (h : Apart rest) (start pos : Nat) (raw : List Char) :
    lexFrom (.word start raw) pos rest =
      (lexFrom .blank pos rest).map ([wordToken start pos raw] ++ ·) := by
  cases rest with
  | nil => rfl
  | cons c rest =>
    have hc : isIdentContinue c = false := h c rfl
    cases hb : begin pos c with
    | error e =>
      have hs : step (.word start raw) pos c = .error e := by simp [step, hc, hb]
      have hs' : step .blank pos c = .error e := hb
      rw [lexFrom, lexFrom, hs, hs']
      rfl
    | ok r =>
      obtain ⟨tokens, next⟩ := r
      have hs : step (.word start raw) pos c = .ok (wordToken start pos raw :: tokens, next) := by
        simp [step, hc, hb]
      have hs' : step .blank pos c = .ok (tokens, next) := hb
      rw [lexFrom_cons hs, lexFrom_cons hs']
      cases lexFrom next (pos + c.utf8Size) rest <;> rfl

/-- A token of one character. -/
theorem single_eq_some {c : Char} {k : TokenKind} (h : singleToken? c = some k) :
    k.Legible ∧ isIdentContinue c = false ∧
      ∀ pos, begin pos c = .ok ([⟨k, pos, pos + c.utf8Size⟩], .blank) := by
  unfold singleToken? at h
  split_ifs at h
  all_goals
    cases h
    subst c
    exact ⟨trivial, rfl, fun _ => rfl⟩

namespace Prints

variable {f g : List Char → Prop} {a b : String} {ks ls : List TokenKind}

theorem append (ha : Prints f a ks) (hb : Prints g b ls) (hf : ∀ rest, g rest → f (b.toList ++ rest)) :
    Prints g (a ++ b) (ks ++ ls) := by
  intro pos rest hg
  rw [String.toList_append, List.append_assoc]
  rcases ha pos _ (hf rest hg) with ⟨hks, ts, stop, rfl, h⟩ | ⟨⟨k, hk, hn⟩, e, h⟩
  · rcases hb stop rest hg with ⟨hls, us, stop', rfl, h'⟩ | ⟨⟨k, hk, hn⟩, e, h'⟩
    · refine .inl ⟨List.forall_mem_append.2 ⟨hks, hls⟩, ts ++ us, stop', by simp [kinds], ?_⟩
      rw [h, h']
      cases lexFrom .blank stop' rest <;> simp [Except.map]
    · exact .inr ⟨⟨k, by simp [hk], hn⟩, e, by rw [h, h']; rfl⟩
  · exact .inr ⟨⟨k, by simp [hk], hn⟩, e, h⟩

theorem mono (h : Prints f a ks) (hf : ∀ rest, g rest → f rest) : Prints g a ks :=
  fun pos rest hg => h pos rest (hf rest hg)

theorem word (h : Identifier a) : Prints Apart a [.ident a] := by
  intro pos rest hr
  have hk := lexFrom_identifier h pos rest
  generalize pos + String.utf8Len a.toList = k at hk
  refine .inl ⟨by simp [TokenKind.Legible], [wordToken pos k a.toList.reverse], k, ?_, ?_⟩
  · simp [kinds, wordToken]
  · rw [hk, lexFrom_word hr]

theorem mark {c : Char} {k : TokenKind} (h : singleToken? c = some k) :
    Prints Anything (String.ofList [c]) [k] := by
  intro pos rest _
  obtain ⟨hk, -, hb⟩ := single_eq_some h
  have hs : step .blank pos c = .ok ([⟨k, pos, pos + c.utf8Size⟩], .blank) := hb pos
  refine .inl ⟨by simpa using hk, [⟨k, pos, pos + c.utf8Size⟩], pos + c.utf8Size, rfl, ?_⟩
  rw [String.toList_ofList, List.singleton_append, lexFrom_cons hs]

/-- A mark ends a word. -/
theorem apart_mark {c : Char} {k : TokenKind} (h : singleToken? c = some k) (rest : List Char) :
    Apart ((String.ofList [c]).toList ++ rest) := by
  rw [String.toList_ofList]
  rintro x ⟨⟩
  exact (single_eq_some h).2.1

theorem blank : Prints Anything " " [] :=
  fun pos rest _ => .inl ⟨by simp, [], pos + 1, rfl, lexFrom_cons rfl rest⟩

theorem colons : Prints Anything "::" [.colons] := by
  intro pos rest _
  refine .inl ⟨by simp [TokenKind.Legible], [⟨.colons, pos, pos + 2⟩], pos + 1 + 1, rfl, ?_⟩
  show lexFrom .blank pos (':' :: ':' :: rest) = _
  rw [lexFrom_cons_of_inside rfl]
  exact lexFrom_cons rfl rest

theorem quote (s : String) : Prints Anything (Text.quote s) [.str s] := by
  intro pos rest _
  have hopen : (Text.quote s).toList ++ rest =
      '"' :: (s.toList.flatMap (fun c => (Text.escapeChar c).toList) ++ '"' :: rest) := by
    simp [Text.quote, String.toList_join, List.flatMap_map]
  rw [hopen, lexFrom_cons_of_inside rfl]
  rcases lexFrom_escapeChars pos (pos + 1) ['"'] [] ('"' :: rest) s.toList with
    ⟨hs, raw, k, h⟩ | ⟨hs, e, h⟩
  · refine .inl ⟨by simpa [TokenKind.Legible] using hs, [⟨.str s, pos, k + 1⟩], k + 1, rfl, ?_⟩
    have hclose : step (.quoted pos raw (s.toList.reverse ++ [])) k '"' =
        .ok ([⟨.str s, pos, k + 1⟩], .blank) := by
      simp [step]
    exact h.trans (lexFrom_cons hclose rest)
  · exact .inr ⟨⟨.str s, by simp, by simpa [TokenKind.Legible] using hs⟩, e, h⟩

theorem comma : Prints Anything ", " [.comma] :=
  (mark (c := ',') rfl).append blank fun _ _ => trivial

/-- `name(` -/
theorem call (h : Identifier a) : Prints Anything (a ++ "(") [.ident a, .lparen] :=
  (word h).append (mark (c := '(') rfl) fun _ _ => apart_mark rfl _

/-- `name :: ` before something. -/
theorem named (h : Identifier a) (hb : Prints f b ks) : Prints f (a ++ " :: " ++ b) (.ident a :: .colons :: ks) := by
  have hcolons : Prints Anything " :: " [.colons] :=
    (blank.append colons fun _ _ => trivial).append blank fun _ _ => trivial
  have ha := (word h).append hcolons fun _ _ => by rintro x ⟨⟩; rfl
  exact ha.append hb fun _ _ => trivial

/-- With commas between them. -/
theorem listed {texts : List String} {kss : List (List TokenKind)}
    (h : List.Forall₂ (Prints Apart) texts kss) :
    Prints Apart (", ".intercalate texts) ([.comma].intercalate kss) := by
  induction h with
  | nil =>
    intro pos rest _
    refine .inl ⟨by simp, [], pos, rfl, ?_⟩
    cases hl : lexFrom .blank pos rest <;> simp [hl, Except.map]
  | @cons text ks texts kss hk hrest ih =>
    cases hrest with
    | nil => simpa using hk
    | @cons text' ks' texts kss hk' hrest =>
      rw [String.intercalate_cons_cons, List.intercalate_cons_cons]
      have hcomma := hk.append comma fun _ _ => by rintro x ⟨⟩; rfl
      exact hcomma.append ih fun _ _ => trivial

/-- Between an opening text and a closing mark. -/
theorem enclosed {texts : List String} {kss : List (List TokenKind)} {c : Char} {k : TokenKind}
    (ho : Prints Anything a ks) (h : List.Forall₂ (Prints Apart) texts kss) (hc : singleToken? c = some k) :
    Prints Apart (a ++ ", ".intercalate texts ++ String.ofList [c]) (ks ++ [.comma].intercalate kss ++ [k]) := by
  have hlist := ho.append (listed h) fun _ _ => trivial
  exact hlist.append ((mark hc).mono fun _ _ => trivial) fun _ _ => apart_mark hc _

end Prints

end Source

/-! ### Types -/

open Source

/-- The segments of the path are identifiers. -/
def Ref.Plain (r : Ref) : Prop := Identifier r.name ∧ ∀ i ∈ r.via, Identifier i

def Ref.tokens (r : Ref) : List TokenKind :=
  match r.via with
  | some i => [.ident i, .dot, .ident r.name]
  | none => [.ident r.name]

theorem Ref.Plain.prints {r : Ref} (h : r.Plain) : Prints Apart r.path r.tokens := by
  obtain ⟨via, name, slot⟩ := r
  obtain ⟨hname, hvia⟩ := h
  cases via with
  | none => exact .word hname
  | some i =>
    have hdot := (Prints.word (hvia i rfl)).append (.mark (c := '.') rfl) fun _ _ => Prints.apart_mark rfl _
    exact hdot.append (.word hname) fun _ _ => trivial

namespace Ty

/-- The tokens of an argument list. -/
def argTokens (ctor : String) (args : List (List TokenKind)) : List TokenKind :=
  [.ident ctor, .lparen] ++ [.comma].intercalate args ++ [.rparen]

mutual

/-- The tokens of the surface text. No source has sums inside of types. -/
def tokens : Ty → List TokenKind
  | .prim p => [.ident p.name]
  | .optional t => argTokens "Optional" [t.tokens]
  | .list t => argTokens "List" [t.tokens]
  | .object t => argTokens "Object" [t.tokens]
  | .map k v => argTokens "Map" [k.tokens, v.tokens]
  | .record fs =>
    if isTuple fs then [.lparen] ++ [.comma].intercalate (elemTokens fs) ++ [.rparen]
    else [.lbrace] ++ [.comma].intercalate (fieldTokens fs) ++ [.rbrace]
  | .sum _ => []
  | .annot doc t => argTokens "Annot" [[.str doc], t.tokens]
  | .ref r => r.tokens

def elemTokens : List (String × Ty) → List (List TokenKind)
  | [] => []
  | (_, t) :: fs => t.tokens :: elemTokens fs

def fieldTokens : List (String × Ty) → List (List TokenKind)
  | [] => []
  | (k, t) :: fs => (.ident k :: .colons :: t.tokens) :: fieldTokens fs

end

theorem elemTokens_eq (fs : Fields Ty) : elemTokens fs = fs.map fun f => f.2.tokens := by
  induction fs with
  | nil => rfl
  | cons f fs ih => rw [elemTokens, ih]; rfl

theorem fieldTokens_eq (fs : Fields Ty) :
    fieldTokens fs = fs.map fun f => .ident f.1 :: .colons :: f.2.tokens := by
  induction fs with
  | nil => rfl
  | cons f fs ih => rw [fieldTokens, ih]; rfl

theorem renderElems_eq (fs : Fields Ty) : renderElems fs = fs.map fun f => f.2.render := by
  induction fs with
  | nil => rfl
  | cons f fs ih => rw [renderElems, ih]; rfl

theorem renderFields_eq (fs : Fields Ty) : renderFields fs = fs.map fun f => f.1 ++ " :: " ++ f.2.render := by
  induction fs with
  | nil => rfl
  | cons f fs ih => rw [renderFields, ih]; rfl

theorem prints_args {ctor : String} {texts : List String} {kss : List (List TokenKind)}
    (hc : Identifier ctor) (h : List.Forall₂ (Prints Apart) texts kss) :
    Prints Apart (ctor ++ "(" ++ ", ".intercalate texts ++ ")") (argTokens ctor kss) :=
  .enclosed (c := ')') (.call hc) h rfl

theorem Spelled.prints {t : Ty} (h : t.Spelled Ref.Plain) : Prints Apart t.render t.tokens := by
  induction h with
  | prim p =>
    rw [render, tokens]
    exact .word (by cases p <;> decide)
  | optional _ ih =>
    have hargs := @prints_args "Optional" _ _ (by decide) (.cons ih .nil)
    simpa [render, tokens] using hargs
  | list _ ih =>
    have hargs := @prints_args "List" _ _ (by decide) (.cons ih .nil)
    simpa [render, tokens] using hargs
  | object _ ih =>
    have hargs := @prints_args "Object" _ _ (by decide) (.cons ih .nil)
    simpa [render, tokens] using hargs
  | map _ _ ihk ihv =>
    have hargs := @prints_args "Map" _ _ (by decide) (.cons ihk (.cons ihv .nil))
    simpa [render, tokens, String.append_assoc] using hargs
  | @record fields _ hn _ ih =>
    rw [render, tokens]
    split
    · have helems : List.Forall₂ (Prints Apart) (renderElems fields) (elemTokens fields) := by
        rw [renderElems_eq, elemTokens_eq, List.forall₂_map_left_iff, List.forall₂_map_right_iff,
          List.forall₂_same]
        exact ih
      exact .enclosed (c := ')') (.mark (c := '(') rfl) helems rfl
    · have hfields : List.Forall₂ (Prints Apart) (renderFields fields) (fieldTokens fields) := by
        rw [renderFields_eq, fieldTokens_eq, List.forall₂_map_left_iff, List.forall₂_map_right_iff,
          List.forall₂_same]
        exact fun f hf => (ih f hf).named (hn f hf)
      exact .enclosed (c := '}') (.mark (c := '{') rfl) hfields rfl
  | annot doc _ ih =>
    have hdoc : Prints Apart (Text.quote doc) [.str doc] := (Prints.quote doc).mono fun _ _ => trivial
    have hargs := @prints_args "Annot" _ _ (by decide) (.cons hdoc (.cons ih .nil))
    simpa [render, tokens, String.append_assoc] using hargs
  | ref h => exact h.prints

/-! ### Documentation -/

theorem legible_intercalate {kss : List (List TokenKind)} :
    (∀ k ∈ [TokenKind.comma].intercalate kss, k.Legible) ↔ ∀ ks ∈ kss, ∀ k ∈ ks, k.Legible := by
  induction kss with
  | nil => simp
  | cons ks kss ih =>
    cases kss with
    | nil => simp
    | cons ks' kss =>
      rw [List.intercalate_cons_cons, List.forall_mem_append, List.forall_mem_append, ih,
        List.forall_mem_cons]
      simp [TokenKind.Legible]

/-- Quotes show every character of the documentation in a way that sources have. -/
def LegibleDoc (t : Ty) : Prop := ∀ doc s, t = .annot doc s → ∀ c ∈ doc.toList, Text.Legible c

theorem legible_tokens {refs : Ref → Prop} {t : Ty} (h : t.Spelled refs) :
    (∀ k ∈ t.tokens, k.Legible) ↔ t.LegibleDoc ∧ ∀ s ∈ t.parts, ∀ k ∈ s.tokens, k.Legible := by
  cases h with
  | prim p => simp [tokens, LegibleDoc, parts, TokenKind.Legible]
  | optional _ | list _ | object _ | map _ _ | annot _ _ =>
    simp [tokens, argTokens, LegibleDoc, parts, or_imp, forall_and, TokenKind.Legible]
  | @record fields _ _ _ =>
    have hlist : (∀ k ∈ (Ty.record fields).tokens, k.Legible) ↔ ∀ f ∈ fields, ∀ k ∈ f.2.tokens, k.Legible := by
      rw [tokens]
      split
      · rw [List.forall_mem_append, List.forall_mem_append, legible_intercalate, elemTokens_eq, List.forall_mem_map]
        simp [TokenKind.Legible]
      · rw [List.forall_mem_append, List.forall_mem_append, legible_intercalate, fieldTokens_eq, List.forall_mem_map]
        simp [TokenKind.Legible]
    rw [hlist, parts, List.forall_mem_map]
    simp [LegibleDoc]
  | @ref r _ =>
    obtain ⟨via, name, slot⟩ := r
    cases via <;> simp [tokens, Ref.tokens, LegibleDoc, parts, TokenKind.Legible]

theorem legible_tokens_iff {refs : Ref → Prop} {t : Ty} (h : t.Spelled refs) :
    (∀ k ∈ t.tokens, k.Legible) ↔ ∀ s, t.Within s → s.LegibleDoc := by
  induction t using parts_induction with
  | step t ih =>
    rw [legible_tokens h, forall_within]
    exact and_congr_right fun _ => forall₂_congr fun s hs => ih s hs (h.part hs)

end Ty

end Wireform
