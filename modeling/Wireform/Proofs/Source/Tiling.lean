import Mathlib
import Wireform.Proofs.Source.Printed

/-!
# A text and its tokens

A text that is read without an error is made of tokens and of filler between them: blanks, and comments up
to the end of their line. `Lexeme` says what each kind of token looks like, and `Tiles` that the tokens of a
text lie next to each other in it with nothing but filler in between. What looks like a token is read as that
token when it stands alone.
-/

namespace Wireform.Source

open String (utf8Len)

/-! ### What tokens look like -/

/-- A text as it stands between quotation marks, and what it stands for. -/
inductive Escaped : List Char → List Char → Prop
  | nil : Escaped [] []
  | plain {c : Char} {body text : List Char} :
    c ≠ '"' → c ≠ '\\' → Escaped body text → Escaped (c :: body) (c :: text)
  | escape {c x : Char} {body text : List Char} :
    unescape? c = some x → Escaped body text → Escaped ('\\' :: c :: body) (x :: text)

inductive Lexeme : List Char → TokenKind → Prop
  | word {name : String} : Identifier name → Lexeme name.toList (.ident name)
  | quoted {body text : List Char} :
    Escaped body text → Lexeme ('"' :: body ++ ['"']) (.str (String.ofList text))
  | mark {c : Char} {k : TokenKind} : singleToken? c = some k → Lexeme [c] k
  | pair {c d : Char} {k : TokenKind} : halfToken? c d = some k → Lexeme [c, d] k

def isBlank (c : Char) : Bool := c = ' ' || c = '\t' || c = '\r' || c = '\n'

/-- Blanks, and comments each with the end of its line. -/
inductive Filler : List Char → Prop
  | nil : Filler []
  | blank {c : Char} {cs : List Char} : isBlank c = true → Filler cs → Filler (c :: cs)
  | comment {text cs : List Char} : '\n' ∉ text → Filler cs → Filler ('#' :: text ++ '\n' :: cs)

/-- Filler at the end of a text, where a comment needs no end of line. -/
inductive Trailing : List Char → Prop
  | closed {cs : List Char} : Filler cs → Trailing cs
  | comment {cs text : List Char} : Filler cs → '\n' ∉ text → Trailing (cs ++ '#' :: text)

/-- The text `cs`, which starts at `pos`, is made of filler and of these tokens. -/
inductive Tiles : Nat → List Char → List Token → Prop
  | last {pos : Nat} {cs : List Char} :
    Trailing cs → Tiles pos cs [⟨.eof, pos + utf8Len cs, pos + utf8Len cs⟩]
  | next {pos : Nat} {gap lexeme rest : List Char} {kind : TokenKind} {ts : List Token} :
    Filler gap → Lexeme lexeme kind → (∀ name, kind = .ident name → Apart rest) →
    Tiles (pos + utf8Len gap + utf8Len lexeme) rest ts →
      Tiles pos (gap ++ (lexeme ++ rest))
        (⟨kind, pos + utf8Len gap, pos + utf8Len gap + utf8Len lexeme⟩ :: ts)

theorem Filler.append {cs ds : List Char} (h : Filler cs) (h' : Filler ds) : Filler (cs ++ ds) := by
  induction h with
  | nil => exact h'
  | blank hc _ ih => exact .blank hc ih
  | comment ht _ ih =>
    rw [List.append_assoc]
    exact .comment ht ih

/-- Filler in front of a text. -/
theorem Filler.fill {pos : Nat} {gap cs : List Char} {ts : List Token} (hg : Filler gap)
    (h : Tiles (pos + utf8Len gap) cs ts) : Tiles pos (gap ++ cs) ts := by
  cases h with
  | last ht =>
    rw [Nat.add_assoc, ← String.utf8Len_append]
    refine .last ?_
    cases ht with
    | closed hf => exact .closed (hg.append hf)
    | comment hf hn =>
      rw [← List.append_assoc]
      exact .comment (hg.append hf) hn
  | next hf hl ha hrest =>
    rw [Nat.add_assoc pos, ← String.utf8Len_append] at hrest ⊢
    rw [← List.append_assoc]
    exact .next (hg.append hf) hl ha hrest

/-! ### What is pending -/

section

variable {pos start : Nat} {c : Char} {cs raw text : List Char} {tokens ts : List Token} {next : Pending}

/-- What a character can start. -/
theorem begin_eq_ok (h : begin pos c = .ok (tokens, next)) :
    (isBlank c = true ∧ tokens = [] ∧ next = .blank) ∨
      (c = '#' ∧ tokens = [] ∧ next = .comment) ∨
      ((c = ':' ∨ c = '-') ∧ tokens = [] ∧ next = .half pos c) ∨
      (c = '"' ∧ tokens = [] ∧ next = .quoted pos ['"'] []) ∨
      (isIdentStart c = true ∧ tokens = [] ∧ next = .word pos [c]) ∨
      ∃ k, singleToken? c = some k ∧ tokens = [⟨k, pos, pos + c.utf8Size⟩] ∧ next = .blank := by
  unfold begin at h
  split_ifs at h with h₁ h₂ h₃ h₄ h₅
  · cases h
    exact .inl ⟨h₁, rfl, rfl⟩
  · cases h
    exact .inr (.inl ⟨h₂, rfl, rfl⟩)
  · cases h
    exact .inr (.inr (.inl ⟨by simpa using h₃, rfl, rfl⟩))
  · cases h
    exact .inr (.inr (.inr (.inl ⟨h₄, rfl, rfl⟩)))
  · cases h
    exact .inr (.inr (.inr (.inr (.inl ⟨h₅, rfl, rfl⟩))))
  · split at h
    · rename_i k hk
      cases h
      exact .inr (.inr (.inr (.inr (.inr ⟨k, hk, rfl, rfl⟩))))
    · cases h

theorem lexFrom_cons_eq_ok {pending : Pending} (h : lexFrom pending pos (c :: cs) = .ok ts) :
    ∃ tokens next rest, step pending pos c = .ok (tokens, next) ∧
      lexFrom next (pos + c.utf8Size) cs = .ok rest ∧ ts = tokens ++ rest := by
  unfold lexFrom at h
  split at h
  · cases h
  rename_i tokens next hs
  split at h
  · cases h
  rename_i rest hr
  exact ⟨tokens, next, rest, hs, hr, (Except.ok.inj h).symm⟩

/-- A comment ends with its line, or with the text. -/
theorem lexFrom_comment_eq_ok (h : lexFrom .comment pos cs = .ok ts) :
    ('\n' ∉ cs ∧ ts = [⟨.eof, pos + utf8Len cs, pos + utf8Len cs⟩]) ∨
      ∃ text rest, cs = text ++ '\n' :: rest ∧ '\n' ∉ text ∧
        lexFrom .blank (pos + utf8Len text + 1) rest = .ok ts := by
  induction cs generalizing pos with
  | nil => exact .inl ⟨by simp, (Except.ok.inj h).symm⟩
  | cons c cs ih =>
    obtain ⟨tokens, next, rest, hs, hr, rfl⟩ := lexFrom_cons_eq_ok h
    cases hs
    by_cases hc : c = '\n'
    · subst hc
      exact .inr ⟨[], cs, rfl, by simp, hr⟩
    · rw [if_neg hc] at hr
      rcases ih hr with ⟨hn, rfl⟩ | ⟨text, rest', rfl, hn, hl⟩
      · refine .inl ⟨by simp [Ne.symm hc, hn], ?_⟩
        rw [List.nil_append, String.utf8Len_cons, Nat.add_assoc, Nat.add_comm c.utf8Size]
      · refine .inr ⟨c :: text, rest', rfl, by simp [Ne.symm hc, hn], ?_⟩
        rw [String.utf8Len_cons, Nat.add_comm (utf8Len text), ← Nat.add_assoc]
        exact hl

/-- A word goes on as long as it can. -/
theorem lexFrom_word_eq_ok (h : lexFrom (.word start raw) pos cs = .ok ts) :
    ∃ more rest ts', cs = more ++ rest ∧ (∀ c ∈ more, isIdentContinue c = true) ∧ Apart rest ∧
      ts = wordToken start (pos + utf8Len more) (more.reverse ++ raw) :: ts' ∧
      lexFrom .blank (pos + utf8Len more) rest = .ok ts' := by
  have hsplit := List.takeWhile_append_dropWhile (p := isIdentContinue) (l := cs)
  have hmore : ∀ c ∈ cs.takeWhile isIdentContinue, isIdentContinue c = true := fun c hc =>
    List.mem_takeWhile_imp hc
  have hapart : Apart (cs.dropWhile isIdentContinue) := by
    intro c hc
    have := List.head?_dropWhile_not isIdentContinue cs
    rw [Option.mem_def.1 hc] at this
    simpa using this
  rw [← hsplit, lexFrom_continue hmore, lexFrom_word hapart] at h
  cases hl : lexFrom .blank (pos + utf8Len (cs.takeWhile isIdentContinue))
      (cs.dropWhile isIdentContinue) with
  | error e =>
    rw [hl] at h
    cases h
  | ok ts' =>
    rw [hl] at h
    exact ⟨_, _, ts', hsplit.symm, hmore, hapart, (Except.ok.inj h).symm, hl⟩

/-- A string ends at the first quotation mark that is not escaped. -/
theorem lexFrom_quoted_eq_ok (h : lexFrom (.quoted start raw text) pos cs = .ok ts) :
    ∃ body more rest ts', cs = body ++ '"' :: rest ∧ Escaped body more ∧
      ts = ⟨.str (String.ofList (text.reverse ++ more)), start, pos + utf8Len body + 1⟩ :: ts' ∧
      lexFrom .blank (pos + utf8Len body + 1) rest = .ok ts' := by
  induction hn : cs.length using Nat.strong_induction_on generalizing cs pos raw text with
  | _ n ih =>
    cases cs with
    | nil => cases h
    | cons c cs =>
      obtain ⟨tokens, next, rest, hs, hr, rfl⟩ := lexFrom_cons_eq_ok h
      simp only [step] at hs
      split_ifs at hs with hq hb
      · cases hs
        subst hq
        exact ⟨[], [], cs, rest, rfl, .nil, by simp, hr⟩
      · cases hs
        subst hb
        -- The backslash and the character after it are taken together.
        cases cs with
        | nil => cases hr
        | cons d cs =>
          obtain ⟨tokens, next, rest, hs, hr, rfl⟩ := lexFrom_cons_eq_ok hr
          simp only [step] at hs
          split at hs
          · rename_i x hx
            cases hs
            obtain ⟨body, more, rest', ts', rfl, he, rfl, hl⟩ := ih cs.length (by simp [← hn]) hr rfl
            refine ⟨'\\' :: d :: body, x :: more, rest', ts', rfl, .escape hx he, ?_, ?_⟩
            · simp [String.utf8Len_cons]
              omega
            · rw [← hl]
              congr 1
              simp [String.utf8Len_cons]
              omega
          · cases hs
      · cases hs
        obtain ⟨body, more, rest', ts', rfl, he, rfl, hl⟩ := ih cs.length (by simp [← hn]) hr rfl
        refine ⟨c :: body, c :: more, rest', ts', rfl, .plain hq hb he, ?_, ?_⟩
        · simp [String.utf8Len_cons]
          omega
        · rw [← hl]
          congr 1
          simp [String.utf8Len_cons]
          omega

/-- A colon or a dash is read with the character after it. -/
theorem lexFrom_half_eq_ok (h : lexFrom (.half start c) pos cs = .ok ts) :
    ∃ d k rest ts', cs = d :: rest ∧ halfToken? c d = some k ∧ ts = ⟨k, start, start + 2⟩ :: ts' ∧
      lexFrom .blank (pos + d.utf8Size) rest = .ok ts' := by
  cases cs with
  | nil => cases h
  | cons d cs =>
    obtain ⟨tokens, next, rest, hs, hr, rfl⟩ := lexFrom_cons_eq_ok h
    simp only [step] at hs
    split at hs
    · rename_i k hk
      cases hs
      exact ⟨d, k, cs, rest, rfl, hk, rfl, hr⟩
    · cases hs

end

/-! ### Reading a text -/

theorem halfToken?_eq_some {c d : Char} {k : TokenKind} (h : halfToken? c d = some k) :
    (c = ':' ∧ d = ':' ∧ k = .colons) ∨ (c = '-' ∧ d = '>' ∧ k = .arrow) := by
  unfold halfToken? at h
  split_ifs at h with h₁ h₂
  · simp only [Bool.and_eq_true, decide_eq_true_eq] at h₁
    exact .inl ⟨h₁.1, h₁.2, (Option.some.inj h).symm⟩
  · simp only [Bool.and_eq_true, decide_eq_true_eq] at h₂
    exact .inr ⟨h₂.1, h₂.2, (Option.some.inj h).symm⟩

theorem utf8Len_of_halfToken? {c d : Char} {k : TokenKind} (h : halfToken? c d = some k) :
    utf8Len [c, d] = 2 := by
  rcases halfToken?_eq_some h with ⟨rfl, rfl, -⟩ | ⟨rfl, rfl, -⟩ <;> rfl

theorem halfToken?_ne_ident {c d : Char} {k : TokenKind} (h : halfToken? c d = some k) (name : String) :
    k ≠ .ident name := by
  rcases halfToken?_eq_some h with ⟨-, -, rfl⟩ | ⟨-, -, rfl⟩ <;> simp

theorem utf8Len_quoted (body : List Char) :
    utf8Len ('"' :: body ++ ['"']) = '"'.utf8Size + utf8Len body + 1 := by
  simp [String.utf8Len_cons, String.utf8Len_append, show '"'.utf8Size = 1 from rfl]
  omega

/-- One token at the start of a text. -/
theorem Tiles.cons {pos : Nat} {lexeme rest : List Char} {kind : TokenKind} {ts : List Token}
    (hl : Lexeme lexeme kind) (ha : ∀ name, kind = .ident name → Apart rest)
    (h : Tiles (pos + utf8Len lexeme) rest ts) :
    Tiles pos (lexeme ++ rest) (⟨kind, pos, pos + utf8Len lexeme⟩ :: ts) :=
  Tiles.next Filler.nil hl ha h

/-- The tokens that a text is read as lie in it next to each other, but for filler. -/
theorem tiles_of_lexFrom {pos : Nat} {cs : List Char} {ts : List Token}
    (h : lexFrom .blank pos cs = .ok ts) : Tiles pos cs ts := by
  -- A token or a comment takes more than one character, so the induction is on the length of the text.
  induction hn : cs.length using Nat.strong_induction_on generalizing pos cs ts with
  | _ n ih =>
    subst hn
    cases cs with
    | nil =>
      cases h
      exact .last (.closed .nil)
    | cons c cs =>
      obtain ⟨tokens, next, rest, hs, hr, rfl⟩ := lexFrom_cons_eq_ok h
      rcases begin_eq_ok hs with ⟨hc, rfl, rfl⟩ | ⟨rfl, rfl, rfl⟩ | ⟨hc, rfl, rfl⟩ | ⟨rfl, rfl, rfl⟩ |
        ⟨hc, rfl, rfl⟩ | ⟨k, hk, rfl, rfl⟩
      · have hgap : Filler [c] := .blank hc .nil
        exact hgap.fill (by simpa using ih cs.length (by simp) hr rfl)
      · rcases lexFrom_comment_eq_ok hr with ⟨hn, rfl⟩ | ⟨text, rest', rfl, hn, hl⟩
        · rw [List.nil_append, Nat.add_assoc, Nat.add_comm (Char.utf8Size _), ← String.utf8Len_cons]
          exact .last (.comment .nil hn)
        · have hgap : Filler ('#' :: text ++ ['\n']) := .comment hn .nil
          have hlen : utf8Len ('#' :: text ++ ['\n']) = '#'.utf8Size + utf8Len text + 1 := by
            simp [String.utf8Len_cons, String.utf8Len_append, show '\n'.utf8Size = 1 from rfl]
            omega
          rw [show '#' :: (text ++ '\n' :: rest') = ('#' :: text ++ ['\n']) ++ rest' by simp]
          refine hgap.fill ?_
          rw [hlen, ← Nat.add_assoc, ← Nat.add_assoc]
          exact ih rest'.length (by simp; omega) hl rfl
      · obtain ⟨d, k, rest', ts', rfl, hk, rfl, hl⟩ := lexFrom_half_eq_ok hr
        have hlen := utf8Len_of_halfToken? hk
        have hrest := ih rest'.length (by simp) hl rfl
        rw [Nat.add_assoc, show c.utf8Size + d.utf8Size = utf8Len [c, d] by
          simp [String.utf8Len_cons, Nat.add_comm]] at hrest
        rw [List.nil_append, ← hlen]
        exact Tiles.cons (.pair hk) (fun name h => absurd h (halfToken?_ne_ident hk name)) hrest
      · obtain ⟨body, text, rest', ts', rfl, he, rfl, hl⟩ := lexFrom_quoted_eq_ok hr
        have hrest := ih rest'.length (by simp; omega) hl rfl
        rw [Nat.add_assoc, Nat.add_assoc, ← Nat.add_assoc (Char.utf8Size _), ← utf8Len_quoted] at hrest ⊢
        rw [show '"' :: (body ++ '"' :: rest') = ('"' :: body ++ ['"']) ++ rest' by simp]
        exact Tiles.cons (.quoted he) (by simp) hrest
      · obtain ⟨more, rest', ts', rfl, hmore, ha, rfl, hl⟩ := lexFrom_word_eq_ok hr
        have hname : Identifier (String.ofList (c :: more)) := ⟨c, more, String.toList_ofList, hc, hmore⟩
        have hword : Lexeme (c :: more) (.ident (String.ofList (c :: more))) := by
          simpa using Lexeme.word hname
        have hlen : c.utf8Size + utf8Len more = utf8Len (c :: more) := by
          rw [String.utf8Len_cons, Nat.add_comm]
        have hrest := ih rest'.length (by simp) hl rfl
        rw [Nat.add_assoc, hlen] at hrest ⊢
        rw [List.nil_append, wordToken, List.reverse_append, List.reverse_reverse]
        exact Tiles.cons hword (fun _ _ => ha) hrest
      · have hrest := ih cs.length (by simp) hr rfl
        rw [← Nat.zero_add c.utf8Size, ← String.utf8Len_nil, ← String.utf8Len_cons] at hrest ⊢
        exact Tiles.cons (.mark hk) (fun name h => absurd h (singleToken?_ne_ident hk name)) hrest

/-! ### Reading one token -/

/-- The rest of a string up to its quotation mark. -/
theorem lexFrom_escaped {body text : List Char} (h : Escaped body text) (start pos : Nat)
    (raw read rest : List Char) :
    lexFrom (.quoted start raw read) pos (body ++ '"' :: rest) =
      (lexFrom .blank (pos + utf8Len body + 1) rest).map
        ([⟨.str (String.ofList (read.reverse ++ text)), start, pos + utf8Len body + 1⟩] ++ ·) := by
  induction h generalizing pos raw read with
  | nil =>
    rw [List.nil_append, lexFrom_cons rfl, List.append_nil]
    rfl
  | @plain c body text hq hb _ ih =>
    have hs : step (.quoted start raw read) pos c = .ok ([], .quoted start (c :: raw) (c :: read)) := by
      simp only [step, hq, hb, if_false]
    rw [List.cons_append, lexFrom_cons_of_inside hs, ih, List.reverse_cons, List.append_assoc,
      List.singleton_append, String.utf8Len_cons, Nat.add_assoc pos, Nat.add_comm c.utf8Size]
  | @escape c x body text hx _ ih =>
    have hs : step (.escape start ('\\' :: raw) read pos) (pos + 1) c =
        .ok ([], .quoted start (c :: '\\' :: raw) (x :: read)) := by
      simp only [step, hx]
    have hlen : utf8Len ('\\' :: c :: body) = 1 + c.utf8Size + utf8Len body := by
      simp only [String.utf8Len_cons, show '\\'.utf8Size = 1 from rfl]
      omega
    rw [List.cons_append, lexFrom_cons_of_inside rfl, List.cons_append]
    refine (lexFrom_cons_of_inside hs _).trans ?_
    rw [ih, List.reverse_cons, List.append_assoc, List.singleton_append, hlen, ← Nat.add_assoc pos,
      ← Nat.add_assoc pos]

/-- What looks like a token is read as that token. -/
theorem lexFrom_lexeme {lexeme rest : List Char} {kind : TokenKind} (h : Lexeme lexeme kind)
    (ha : ∀ name, kind = .ident name → Apart rest) (pos : Nat) :
    lexFrom .blank pos (lexeme ++ rest) =
      (lexFrom .blank (pos + utf8Len lexeme) rest).map ([⟨kind, pos, pos + utf8Len lexeme⟩] ++ ·) := by
  cases h with
  | word hname =>
    rw [lexFrom_identifier hname, lexFrom_word (ha _ rfl), wordToken]
    simp
  | @quoted body text he =>
    rw [utf8Len_quoted, ← Nat.add_assoc, ← Nat.add_assoc, List.append_assoc, List.cons_append,
      lexFrom_cons_of_inside rfl, List.singleton_append]
    exact lexFrom_escaped he pos (pos + 1) ['"'] [] rest
  | @mark c k hk =>
    have hs : step .blank pos c = .ok ([⟨kind, pos, pos + c.utf8Size⟩], .blank) :=
      (single_eq_some hk).2.2 pos
    rw [List.singleton_append, lexFrom_cons hs, String.utf8Len_cons, String.utf8Len_nil, Nat.zero_add]
  | pair hk =>
    rcases halfToken?_eq_some hk with ⟨rfl, rfl, rfl⟩ | ⟨rfl, rfl, rfl⟩
    all_goals
      rw [List.cons_append, lexFrom_cons_of_inside rfl]
      exact lexFrom_cons rfl rest

theorem Lexeme.ne_nil {lexeme : List Char} {kind : TokenKind} (h : Lexeme lexeme kind) : lexeme ≠ [] := by
  cases h with
  | word hname =>
    obtain ⟨c, cs, he, -⟩ := hname
    simp [he]
  | quoted | mark | pair => simp

theorem Lexeme.ne_eof {lexeme : List Char} {kind : TokenKind} (h : Lexeme lexeme kind) : kind ≠ .eof := by
  cases h with
  | word | quoted => simp
  | mark hk => exact begin_ne_eof ((single_eq_some hk).2.2 0) _ (List.mem_singleton_self _)
  | pair hk => rcases halfToken?_eq_some hk with ⟨-, -, rfl⟩ | ⟨-, -, rfl⟩ <;> simp

end Wireform.Source
