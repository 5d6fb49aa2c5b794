import Mathlib
import Wireform.Proofs.Source.Tiling

/-!
# Places of tokens

The tokens of a text have places in it that are ranges of bytes. `Cut` says what stands in such a range, if
it holds whole characters. All that the parser cuts out of a text starts where a token starts and stops where
one stops, so it always is such a range (`Boundary.cut`).
-/

namespace Wireform.Source

open String (utf8Len)

/-! ### Ranges of bytes -/

/-- The bytes from `start` to `stop` are those of `text`. -/
def Cut (source : List Char) (start stop : Nat) (text : List Char) : Prop :=
  ∃ before after, source = before ++ (text ++ after) ∧ utf8Len before = start ∧
    start + utf8Len text = stop

/-- A character starts at this byte, or the text ends there. -/
def Boundary (source : List Char) (pos : Nat) : Prop :=
  ∃ before after, source = before ++ after ∧ utf8Len before = pos

section

variable {source text : List Char} {start stop : Nat}

theorem Cut.boundary_start (h : Cut source start stop text) : Boundary source start := by
  obtain ⟨before, after, rfl, rfl, -⟩ := h
  exact ⟨before, text ++ after, rfl, rfl⟩

theorem Cut.boundary_stop (h : Cut source start stop text) : Boundary source stop := by
  obtain ⟨before, after, rfl, rfl, rfl⟩ := h
  exact ⟨before ++ text, after, by simp, by simp⟩

theorem Cut.start_le (h : Cut source start stop text) : start ≤ stop := by
  obtain ⟨-, -, -, -, rfl⟩ := h
  exact Nat.le_add_right ..

theorem Cut.stop_le (h : Cut source start stop text) : stop ≤ utf8Len source := by
  obtain ⟨before, after, rfl, rfl, rfl⟩ := h
  simp

theorem boundary_end (source : List Char) : Boundary source (utf8Len source) := ⟨source, [], by simp, rfl⟩

/-- Between two boundaries stand whole characters. -/
theorem Boundary.cut (hi : Boundary source start) (hj : Boundary source stop) (hle : start ≤ stop) :
    ∃ text, Cut source start stop text := by
  obtain ⟨before, after, rfl, rfl⟩ := hi
  obtain ⟨before', after', he, rfl⟩ := hj
  rcases List.append_eq_append_iff.1 he with ⟨text, rfl, rfl⟩ | ⟨text, rfl, rfl⟩
  · exact ⟨text, before, after', rfl, rfl, by simp⟩
  · -- The range that ends first is not shorter, so nothing stands between the two.
    have htext : text = [] := by
      rw [← String.utf8Len_eq_zero]
      rw [String.utf8Len_append] at hle
      omega
    exact ⟨[], before' ++ text, after, by simp, rfl, by simp [htext]⟩

theorem sliceFrom_before {before : List Char} {pos : Nat} (h : pos + utf8Len before ≤ start) (rest : List Char) :
    sliceFrom start stop pos (before ++ rest) = sliceFrom start stop (pos + utf8Len before) rest := by
  induction before generalizing pos with
  | nil => rfl
  | cons c cs ih =>
    have hc := c.utf8Size_pos
    rw [String.utf8Len_cons] at h ⊢
    have hout : ¬ (start ≤ pos) := by omega
    rw [List.cons_append, sliceFrom]
    simp only [hout, decide_false, Bool.false_and, Bool.false_eq_true, if_false]
    rw [ih (by omega), Nat.add_assoc, Nat.add_comm c.utf8Size]

theorem sliceFrom_inside {pos : Nat} (hi : start ≤ pos) (hj : pos + utf8Len text ≤ stop)
    (rest : List Char) :
    sliceFrom start stop pos (text ++ rest) = text ++ sliceFrom start stop (pos + utf8Len text) rest := by
  induction text generalizing pos with
  | nil => rfl
  | cons c cs ih =>
    have hc := c.utf8Size_pos
    rw [String.utf8Len_cons] at hj ⊢
    have hin : pos < stop := by omega
    rw [List.cons_append, sliceFrom]
    simp only [hi, hin, decide_true, Bool.and_self, if_true]
    rw [ih (by omega) (by omega), Nat.add_assoc, Nat.add_comm c.utf8Size, List.cons_append]

theorem sliceFrom_past {pos : Nat} (h : stop ≤ pos) (cs : List Char) : sliceFrom start stop pos cs = [] := by
  induction cs generalizing pos with
  | nil => rfl
  | cons c cs ih =>
    rw [sliceFrom, ih (by omega)]
    simp [Nat.not_lt.2 h]

theorem Cut.sliceFrom_eq (h : Cut source start stop text) : sliceFrom start stop 0 source = text := by
  obtain ⟨before, after, rfl, rfl, rfl⟩ := h
  rw [sliceFrom_before (by omega), sliceFrom_inside (by omega) (by omega), sliceFrom_past (by omega),
    List.append_nil]

/-- A slice that would stop before it starts is empty. -/
theorem Boundary.slice (hi : Boundary source start) (hj : Boundary source stop) :
    Cut source start (max stop start) (sliceFrom start stop 0 source) := by
  rcases Nat.le_total start stop with hle | hle
  · obtain ⟨text, h⟩ := hi.cut hj hle
    rwa [Nat.max_eq_left hle, h.sliceFrom_eq]
  · obtain ⟨before, after, rfl, rfl⟩ := hi
    refine ⟨before, after, ?_, rfl, ?_⟩
    · rw [sliceFrom_before (by omega), sliceFrom_past (by omega), List.nil_append]
    · rw [sliceFrom_before (by omega), sliceFrom_past (by omega), Nat.max_eq_right hle]
      rfl

end

/-! ### The places of the tokens -/

/-- From `pos` on only blanks and comments stand before, between and after the tokens. -/
def Spaced (source : List Char) : Nat → List Token → Prop
  | pos, [] => ∃ text, Cut source pos (utf8Len source) text ∧ Trailing text
  | pos, t :: ts => (∃ text, Cut source pos t.start text ∧ Filler text) ∧ Spaced source t.stop ts

/-- The token is all of what its place holds, and an identifier ends only where it has to. -/
def Stands (source : List Char) (t : Token) : Prop :=
  ∃ lexeme rest, Cut source t.start t.stop lexeme ∧ Cut source t.stop (utf8Len source) rest ∧
    Lexeme lexeme t.kind ∧ ∀ name, t.kind = .ident name → Apart rest

namespace Tiles

variable {pos : Nat} {cs : List Char} {tokens : List Token}

theorem ascending (h : Tiles pos cs tokens) :
    (∀ t ∈ tokens, pos ≤ t.start ∧ t.start ≤ t.stop) ∧
      tokens.Pairwise fun t u => t.stop ≤ u.start := by
  induction h with
  | last ht => simp
  | @next pos gap lexeme rest kind ts hf hl ha _ ih =>
    constructor
    · refine List.forall_mem_cons.2 ⟨by simp, fun t ht => ?_⟩
      have := ih.1 t ht
      omega
    · exact List.pairwise_cons.2 ⟨fun t ht => (ih.1 t ht).1, ih.2⟩

theorem covers (h : Tiles pos cs tokens) (before : List Char) (hpos : utf8Len before = pos) :
    ∃ ts, tokens = ts ++ [⟨.eof, utf8Len (before ++ cs), utf8Len (before ++ cs)⟩] ∧
      Spaced (before ++ cs) pos ts ∧ ∀ t ∈ ts, Stands (before ++ cs) t := by
  induction h generalizing before with
  | @last pos cs ht =>
    refine ⟨[], by simp [hpos], ⟨cs, ⟨before, [], by simp, hpos, by simp [hpos]⟩, ht⟩, by simp⟩
  | @next pos gap lexeme rest kind ts hf hl ha _ ih =>
    subst hpos
    have hpos : utf8Len (before ++ gap ++ lexeme) = utf8Len before + utf8Len gap + utf8Len lexeme := by
      simp [Nat.add_assoc]
    obtain ⟨ts', rfl, hspaced, hstands⟩ := ih _ hpos
    have hsource : before ++ gap ++ lexeme ++ rest = before ++ (gap ++ (lexeme ++ rest)) := by simp
    rw [hsource] at hspaced hstands ⊢
    refine ⟨⟨kind, _, _⟩ :: ts', rfl, ⟨⟨gap, ⟨before, lexeme ++ rest, rfl, rfl, rfl⟩, hf⟩, hspaced⟩, ?_⟩
    refine List.forall_mem_cons.2 ⟨?_, hstands⟩
    refine ⟨lexeme, rest, ⟨before ++ gap, rest, by simp, by simp, by simp⟩, ?_, hl, ha⟩
    exact ⟨before ++ gap ++ lexeme, [], by simp, hpos, by simp; omega⟩

end Tiles

/-- What a token stands for can be read without the rest of the text. -/
theorem tokenize_lexeme {lexeme : List Char} {kind : TokenKind} (h : Lexeme lexeme kind) :
    tokenize (String.ofList lexeme) =
      .ok [⟨kind, 0, utf8Len lexeme⟩, ⟨.eof, utf8Len lexeme, utf8Len lexeme⟩] := by
  have hend : Apart [] := by simp [Apart]
  have hl := lexFrom_lexeme h (fun _ _ => hend) 0
  rw [List.append_nil, Nat.zero_add] at hl
  rw [tokenize, String.toList_ofList, hl]
  rfl

theorem Stands.start_lt_stop {source : List Char} {t : Token} (h : Stands source t) : t.start < t.stop := by
  obtain ⟨lexeme, -, ⟨-, -, -, -, hstop⟩, -, hl, -⟩ := h
  have hne := mt String.utf8Len_eq_zero.1 hl.ne_nil
  omega

/-- The end of a text is its last token, and the others stand before it. -/
theorem exists_stands {src : String} {tokens : List Token} (h : tokenize src = .ok tokens) :
    ∃ ts, tokens = ts ++ [⟨.eof, src.utf8ByteSize, src.utf8ByteSize⟩] ∧ Spaced src.toList 0 ts ∧
      ∀ t ∈ ts, Stands src.toList t := by
  have hcovers := (tiles_of_lexFrom h).covers [] rfl
  rwa [List.nil_append, String.utf8Len_toList] at hcovers

/-- Tokens start and stop between characters. -/
theorem boundary_of_tokenize {src : String} {tokens : List Token} (h : tokenize src = .ok tokens) :
    ∀ t ∈ tokens, Boundary src.toList t.start ∧ Boundary src.toList t.stop := by
  obtain ⟨ts, rfl, -, hstands⟩ := exists_stands h
  rw [List.forall_mem_append, List.forall_mem_singleton, ← String.utf8Len_toList]
  refine ⟨fun t ht => ?_, boundary_end _, boundary_end _⟩
  obtain ⟨lexeme, -, hcut, -⟩ := hstands t ht
  exact ⟨hcut.boundary_start, hcut.boundary_stop⟩

/-- Reading a text leaves nothing out of it but blanks and comments: its tokens are disjoint ranges of whole
characters in ascending order, each of them is the token that its own text is read as, no identifier could go
on, and from the start of any token to the end of any other stand whole characters. -/
theorem tokenize_covers {src : String} {tokens : List Token} (h : tokenize src = .ok tokens) :
    ∃ ts, tokens = ts ++ [⟨.eof, src.utf8ByteSize, src.utf8ByteSize⟩] ∧
      (∀ t ∈ ts, t.kind ≠ .eof ∧ t.start < t.stop ∧ t.stop ≤ src.utf8ByteSize) ∧
      tokens.Pairwise (fun t u => t.stop ≤ u.start) ∧
      Spaced src.toList 0 ts ∧
      (∀ t ∈ ts, ∃ lexeme rest, Cut src.toList t.start t.stop lexeme ∧
        Cut src.toList t.stop src.utf8ByteSize rest ∧
        tokenize (String.ofList lexeme) =
          .ok [⟨t.kind, 0, utf8Len lexeme⟩, ⟨.eof, utf8Len lexeme, utf8Len lexeme⟩] ∧
        ∀ name, t.kind = .ident name → Apart rest) ∧
      ∀ t ∈ tokens, ∀ u ∈ tokens, ∀ ahead, Cut src.toList t.start (max u.stop t.start)
        (Cursor.textSince ⟨src.toList, ahead, u.stop⟩ t.start).toList := by
  have hbound := boundary_of_tokenize h
  have hascending := (tiles_of_lexFrom h).ascending
  obtain ⟨ts, rfl, hspaced, hstands⟩ := exists_stands h
  refine ⟨ts, rfl, fun t ht => ?_, hascending.2, hspaced, fun t ht => ?_, fun t ht u hu ahead => ?_⟩
  · obtain ⟨lexeme, -, hcut, -, hl, -⟩ := hstands t ht
    exact ⟨hl.ne_eof, (hstands t ht).start_lt_stop, String.utf8Len_toList src ▸ hcut.stop_le⟩
  · obtain ⟨lexeme, rest, hcut, hrest, hl, ha⟩ := hstands t ht
    exact ⟨lexeme, rest, hcut, String.utf8Len_toList src ▸ hrest, tokenize_lexeme hl, ha⟩
  · rw [Cursor.textSince, String.toList_ofList]
    exact (hbound t ht).1.slice (hbound u hu).2

theorem tokenize_covers_escaped :
    tokenize "a1::\"é\\n\" # ü" =
        .ok [⟨.ident "a1", 0, 2⟩, ⟨.colons, 2, 4⟩, ⟨.str "é\n", 4, 10⟩, ⟨.eof, 15, 15⟩] ∧
      Spaced "a1::\"é\\n\" # ü".toList 0 [⟨.ident "a1", 0, 2⟩, ⟨.colons, 2, 4⟩, ⟨.str "é\n", 4, 10⟩] := by
  have h : tokenize "a1::\"é\\n\" # ü" =
      .ok [⟨.ident "a1", 0, 2⟩, ⟨.colons, 2, 4⟩, ⟨.str "é\n", 4, 10⟩, ⟨.eof, 15, 15⟩] := by decide
  obtain ⟨ts, hts, -, -, hspaced, -⟩ := tokenize_covers h
  obtain ⟨rfl, -⟩ := List.append_inj' (show [_, _, _] ++ [_] = _ from hts) rfl
  exact ⟨h, hspaced⟩

end Wireform.Source
