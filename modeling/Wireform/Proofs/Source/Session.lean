import Mathlib
import Wireform.Proofs.Source.Coverage
import Wireform.Proofs.Source.Machine

/-!
# Calls on one parser

The machine and the cursor go the same way. `Lexed` holds the tokens of a text with what makes every look-up
of the machine find something, and `Agree` says of a place in it that from there the machine and the parser
come to the same result at the same later place. Every function of the parser agrees with its counterpart, and
so does every sequence of calls, where each call goes on from where the one before has stopped.
-/

namespace Wireform.Source

variable {α β : Type}

/-! ### Texts of the machine -/

theorem isBoundary_iff {pos : Nat} {cs : List Char} : isBoundary pos cs = true ↔ Boundary cs pos := by
  induction cs generalizing pos with
  | nil => simp [isBoundary, Boundary, eq_comm]
  | cons c cs ih =>
    simp only [isBoundary, Bool.or_eq_true, Bool.and_eq_true, decide_eq_true_eq, ih]
    constructor
    · rintro (rfl | ⟨hle, before, after, rfl, hb⟩)
      · exact ⟨[], c :: cs, rfl, rfl⟩
      · exact ⟨c :: before, after, rfl, by rw [String.utf8Len_cons]; omega⟩
    · rintro ⟨_ | ⟨d, before⟩, after, he, rfl⟩
      · exact .inl rfl
      · obtain ⟨rfl, rfl⟩ := List.cons.inj he
        exact .inr ⟨by simp, before, after, rfl, by simp⟩

/-- The machine gets a text exactly where one stands. -/
theorem slice?_eq_some_iff {source : List Char} {start stop : Nat} {text : String} :
    slice? source start stop = some text ↔ Cut source start stop text.toList := by
  unfold slice?
  split_ifs with h
  · simp only [Bool.and_eq_true, decide_eq_true_eq, isBoundary_iff] at h
    obtain ⟨cs, hcut⟩ := h.1.2.cut h.2 h.1.1
    rw [Option.some.injEq, hcut.sliceFrom_eq]
    constructor
    · rintro rfl
      rwa [String.toList_ofList]
    · intro ht
      rw [← hcut.sliceFrom_eq, ht.sliceFrom_eq, String.ofList_toList]
  · simp only [false_iff]
    intro ht
    simp only [Bool.and_eq_true, decide_eq_true_eq, isBoundary_iff] at h
    exact h ⟨⟨ht.start_le, ht.boundary_start⟩, ht.boundary_stop⟩

/-! ### Runs of the machine -/

namespace Machine

variable {m m' : Machine}

theorem bind_of_ok {x : Run α} {a : α} (h : x m = some (.ok a, m')) (f : α → Run β) :
    (x >>= f) m = f a m' := by
  show Option.bind (x m) _ = _
  rw [h]
  rfl

theorem bind_of_error {x : Run α} {e : SourceError} (h : x m = some (.error e, m')) (f : α → Run β) :
    (x >>= f) m = some (.error e, m') := by
  show Option.bind (x m) _ = _
  rw [h]
  rfl

theorem found_run {x? : Option α} {a : α} (h : x? = some a) (m : Machine) : found x? m = some (.ok a, m) := by
  rw [h]
  rfl

end Machine

/-! ### Places -/

/-- The tokens of a text: all but the end have a token behind them, and all lie on whole characters. -/
structure Lexed where
  source : List Char
  tokens : List Token
  next_lt : ∀ k : Fin tokens.length, (tokens.get k).kind ≠ .eof → k + 1 < tokens.length
  boundary : ∀ t ∈ tokens, Boundary source t.start ∧ Boundary source t.stop

namespace Lexed

variable (l : Lexed)

abbrev Place := Fin l.tokens.length

def tokenAt (k : l.Place) : Token := l.tokens.get k

def machine (n : Nat) (k : l.Place) : Machine := ⟨l.source, l.tokens, k, n⟩

/-- The end of the token before the `k`-th. -/
def behind : Nat → Nat
  | 0 => 0
  | k + 1 => (l.tokens[k]?.map Token.stop).getD 0

def cursor (k : l.Place) : Cursor := ⟨l.source, l.tokens.drop k, l.behind k⟩

variable {l}

theorem drop_place (k : l.Place) : l.tokens.drop k = l.tokenAt k :: l.tokens.drop (k + 1) :=
  List.drop_eq_getElem_cons k.isLt

@[simp] theorem cursor_token (k : l.Place) : (l.cursor k).token = l.tokenAt k := by
  rw [Cursor.token, cursor, drop_place]
  rfl

theorem length_ahead (k : l.Place) : (l.cursor k).ahead.length + k = l.tokens.length := by
  rw [cursor, List.length_drop, Nat.sub_add_cancel k.isLt.le]

/-- The place after a token that is not the end. -/
def succ (k : l.Place) (h : (l.tokenAt k).kind ≠ .eof) : l.Place := ⟨k + 1, l.next_lt k h⟩

theorem boundary_start (k : l.Place) : Boundary l.source (l.tokenAt k).start :=
  (l.boundary _ (List.get_mem ..)).1

theorem lt_succ (k : l.Place) (h : (l.tokenAt k).kind ≠ .eof) : k < succ k h := Nat.lt_succ_self k

theorem cursor_advance (k : l.Place) (h : (l.tokenAt k).kind ≠ .eof) :
    (l.cursor k).advance = l.cursor (succ k h) := by
  rw [Cursor.advance, cursor, drop_place]
  simp only [if_neg h]
  simp [cursor, succ, behind, tokenAt]

theorem second_succ (k : l.Place) (h : (l.tokenAt k).kind ≠ .eof) :
    (l.cursor k).second = l.tokenAt (succ k h) := by
  rw [Cursor.second, cursor, drop_place]
  simp only [List.drop_eq_getElem_cons (l.next_lt k h)]
  rfl

theorem cursor_second (k : l.Place) :
    l.tokens[min (k.val + 1) (l.tokens.length - 1)]? = some (l.cursor k).second := by
  have hk := k.isLt
  rcases Nat.lt_or_ge (k.val + 1) l.tokens.length with h | h
  · rw [Nat.min_eq_left (by omega), Cursor.second, cursor, drop_place, List.drop_eq_getElem_cons h]
    simp [h]
  · have hlast : l.tokens.drop (k.val + 1) = [] := List.drop_eq_nil_of_le h
    rw [Nat.min_eq_right (by omega), show l.tokens.length - 1 = k.val by omega, Cursor.second, cursor,
      drop_place, hlast]
    exact List.getElem?_eq_getElem hk

/-! ### Machine and cursor -/

/-- From this place and at this level of types both do the same: with the same result, then with the property,
or with the same error, and at one later place. -/
def Agree (n : Nat) (k : l.Place) (x : Run α) (p : Parser α) (Q : α → l.Place → Prop) : Prop :=
  (∃ a k', k ≤ k' ∧ x (l.machine n k) = some (.ok a, l.machine n k') ∧
    p (l.cursor k) = .ok a (l.cursor k') ∧ Q a k') ∨
  ∃ e k', k ≤ k' ∧ x (l.machine n k) = some (.error e, l.machine n k') ∧
    p (l.cursor k) = .error e (l.cursor k')

namespace Agree

variable {n : Nat} {k : l.Place} {x : Run α} {p : Parser α} {Q : α → l.Place → Prop}
  {f : α → Run β} {q : α → Parser β} {R : β → l.Place → Prop}

theorem pure {a : α} (h : Q a k) : Agree n k (pure a) (pure a) Q := .inl ⟨a, k, le_rfl, rfl, rfl, h⟩

theorem bind (hx : Agree n k x p Q) (hf : ∀ a k', k ≤ k' → Q a k' → Agree n k' (f a) (q a) R) :
    Agree n k (x >>= f) (p >>= q) R := by
  rcases hx with ⟨a, k', hle, hx, hp, hq⟩ | ⟨e, k', hle, hx, hp⟩
  · rcases hf a k' hle hq with ⟨b, k'', hle', hf, hq, hr⟩ | ⟨e, k'', hle', hf, hq⟩
    · exact .inl ⟨b, k'', hle.trans hle', (Machine.bind_of_ok hx f).trans hf, (bind_run_of_ok hp q).trans hq, hr⟩
    · exact .inr ⟨e, k'', hle.trans hle', (Machine.bind_of_ok hx f).trans hf, (bind_run_of_ok hp q).trans hq⟩
  · exact .inr ⟨e, k', hle, Machine.bind_of_error hx f, bind_run_of_error hp q⟩

/-- A look at the machine is a look at the cursor. -/
theorem get_bind {a : α} {q : Cursor → Parser β} (hx : x (l.machine n k) = some (.ok a, l.machine n k))
    (h : Agree n k (f a) (q (l.cursor k)) R) : Agree n k (x >>= f) (get >>= q) R := by
  rw [Agree, Machine.bind_of_ok hx, get_bind_run]
  exact h

theorem mono {Q' : α → l.Place → Prop} (h : Agree n k x p Q) (hq : ∀ a k', k ≤ k' → Q a k' → Q' a k') :
    Agree n k x p Q' := by
  rcases h with ⟨a, k', hle, hx, hp, h⟩ | h
  · exact .inl ⟨a, k', hle, hx, hp, hq a k' hle h⟩
  · exact .inr h

end Agree

/-! ### Single tokens -/

section

variable {n : Nat} {k : l.Place} {Q : α → l.Place → Prop}

theorem token_run (n : Nat) (k : l.Place) :
    Machine.token (l.machine n k) = some (.ok (l.tokenAt k), l.machine n k) :=
  Machine.found_run (List.getElem?_eq_getElem k.isLt) _

theorem peek_run (n : Nat) (k : l.Place) :
    Machine.peek (l.machine n k) = some (.ok (l.tokenAt k).kind, l.machine n k) :=
  Machine.bind_of_ok (token_run n k) _

theorem peekSecond_run (n : Nat) (k : l.Place) :
    Machine.peekSecond (l.machine n k) = some (.ok (l.cursor k).second.kind, l.machine n k) :=
  Machine.bind_of_ok (Machine.found_run (cursor_second k) _) fun t => Pure.pure t.kind

/-- From the start of a token to the end of the one behind. -/
theorem textSince_run (n : Nat) (k : l.Place) {start : Nat} (hk : 0 < k.val) (hs : Boundary l.source start) :
    Machine.textSince start (l.machine n k) = some (.ok ((l.cursor k).textSince start), l.machine n k) := by
  obtain ⟨k, hlt⟩ := k
  cases k with
  | zero => exact absurd hk (by simp)
  | succ k =>
    have hlast : l.tokens[k]? = some (l.tokens.get ⟨k, by omega⟩) := List.getElem?_eq_getElem (by omega)
    generalize l.tokens.get _ = last at hlast
    have hcut := hs.slice (l.boundary last (List.mem_of_getElem? hlast)).2
    have hbehind : l.behind (k + 1) = last.stop := by simp [behind, hlast]
    refine (Machine.bind_of_ok (Machine.found_run hlast _) _).trans (Machine.found_run ?_ _)
    rw [slice?_eq_some_iff, Cursor.textSince, String.toList_ofList, cursor, hbehind]
    exact hcut

theorem startBehind_run (n : Nat) (k : l.Place) (h : (l.tokenAt k).kind ≠ .eof) :
    Machine.startBehind (l.machine n (succ k h)) = some (.ok (l.tokenAt k).start, l.machine n (succ k h)) :=
  Machine.bind_of_ok (Machine.found_run (List.getElem?_eq_getElem k.isLt) _) fun t => Pure.pure t.start

theorem agree_peek : Agree n k Machine.peek peek fun a k' => a = (l.tokenAt k).kind ∧ k' = k := by
  refine .inl ⟨_, k, le_rfl, peek_run n k, ?_, rfl, rfl⟩
  rw [← cursor_token]
  rfl

theorem agree_advance (h : (l.tokenAt k).kind ≠ .eof) :
    Agree n k Machine.advance advance fun _ k' => k' = succ k h := by
  refine .inl ⟨(), succ k h, Fin.le_def.2 (Nat.le_succ k), ?_, ?_, rfl⟩
  · rw [Machine.advance, Machine.bind_of_ok (peek_run n k), if_pos h]
    rfl
  · rw [← cursor_advance]
    rfl

theorem agree_fail (why : Complaint) : Agree n k (Machine.fail why) (fail why) Q := by
  refine .inr ⟨_, k, le_rfl, Machine.bind_of_ok (token_run n k) _, ?_⟩
  rw [← cursor_token]
  rfl

/-- A complaint about the token behind. -/
theorem agree_failBehind (h : (l.tokenAt k).kind ≠ .eof) (word : String) (why : Complaint) :
    Agree n (succ k h) (do throw (.parse (← Machine.startBehind) word why))
      (throw (.parse (l.tokenAt k).start word why)) Q :=
  .inr ⟨_, _, le_rfl, Machine.bind_of_ok (startBehind_run n k h) _, rfl⟩

theorem agree_eat {kind : TokenKind} (hne : kind ≠ .eof) :
    Agree n k (Machine.eat kind) (eat kind) fun b k' => (b = true → k < k') ∧ (b = false → k' = k) := by
  refine agree_peek.bind ?_
  rintro _ _ - ⟨rfl, rfl⟩
  split_ifs with hk
  · refine (agree_advance (hk ▸ hne)).bind ?_
    rintro _ _ hle rfl
    exact .pure (by simp [lt_succ])
  · exact .pure (by simp)

/-- A token that has to be there. -/
theorem agree_required {kind : TokenKind} (hne : kind ≠ .eof) (why : Complaint) :
    Agree n k (do unless ← Machine.eat kind do Machine.fail why) (do unless ← eat kind do fail why)
      fun _ k' => k < k' := by
  refine (agree_eat hne).bind ?_
  rintro b k' - ⟨h, -⟩
  cases b with
  | true => exact .pure (h rfl)
  | false => exact agree_fail why

theorem agree_expect {kind : TokenKind} (hne : kind ≠ .eof) :
    Agree n k (Machine.expect kind) (expect kind) fun _ k' => k < k' := agree_required hne _

theorem agree_expectWord (word : String) :
    Agree n k (Machine.expectWord word) (expectWord word) fun _ k' => k < k' := agree_required (by simp) _

theorem agree_ident : Agree n k Machine.ident ident fun _ k' => k < k' := by
  refine agree_peek.bind ?_
  rintro _ _ - ⟨rfl, rfl⟩
  generalize hk : (l.tokenAt _).kind = kind
  cases kind with
  | ident name =>
    refine (agree_advance (by simp [hk])).bind ?_
    rintro _ _ - rfl
    exact .pure (by simp [lt_succ])
  | _ => exact agree_fail _

theorem agree_atEnd : Agree n k Machine.atEnd atEnd fun _ k' => k' = k := by
  refine agree_peek.bind ?_
  rintro _ _ - ⟨rfl, rfl⟩
  exact .pure rfl

end

/-! ### Lists -/

section

variable {n : Nat} {x : Run α} {p : Parser α}

/-- Each round takes a token, so neither comes to its limit. -/
theorem agree_whileSome {more : Run Bool} {more' : Parser Bool}
    (hround : ∀ k : l.Place, Agree n k more more' fun b k' =>
      b = true → Agree n k' x p fun _ k'' => k < k'')
    (limit fuel : Nat) (k : l.Place) (hl : l.tokens.length ≤ limit + k) (hf : l.tokens.length ≤ fuel + k) :
    Agree n k (Machine.many more x limit) (whileSome more' p fuel) fun _ _ => True := by
  induction limit generalizing fuel k with
  | zero => exact absurd k.isLt (by omega)
  | succ limit ih =>
    cases fuel with
    | zero => exact absurd k.isLt (by omega)
    | succ fuel =>
      refine (hround k).bind ?_
      rintro b k' - hitem
      cases b with
      | false => exact .pure trivial
      | true =>
        refine (hitem rfl).bind ?_
        rintro a k'' - hlt
        have hlt := Fin.lt_def.1 hlt
        refine (ih fuel _ (by omega) (by omega)).bind ?_
        rintro as k₃ - -
        exact .pure trivial

theorem agree_many {more : Run Bool} {more' : Parser Bool}
    (hround : ∀ k : l.Place, Agree n k more more' fun b k' =>
      b = true → Agree n k' x p fun _ k'' => k < k'')
    {limit : Nat} (hl : l.tokens.length ≤ limit) (k : l.Place) :
    Agree n k (Machine.many more x limit) (many more' p) fun _ _ => True :=
  agree_whileSome hround limit (l.cursor k).ahead.length k (by omega) (length_ahead k).ge

theorem agree_untilClose {close : TokenKind} (hne : close ≠ .eof)
    (hitem : ∀ k : l.Place, Agree n k x p fun _ _ => True)
    (limit fuel : Nat) (k : l.Place) (hl : l.tokens.length ≤ limit + k) (hf : l.tokens.length ≤ fuel + k) :
    Agree n k (Machine.delimited close x limit) (untilClose close p fuel) fun _ _ => True := by
  induction limit generalizing fuel k with
  | zero => exact absurd k.isLt (by omega)
  | succ limit ih =>
    cases fuel with
    | zero => exact absurd k.isLt (by omega)
    | succ fuel =>
      refine (agree_eat hne).bind ?_
      rintro b k₁ hle -
      cases b with
      | true => exact .pure trivial
      | false =>
        refine (hitem k₁).bind ?_
        rintro a k₂ hle₂ -
        refine (agree_eat (by simp)).bind ?_
        rintro b k₃ - ⟨hcomma, -⟩
        cases b with
        | true =>
          have hle := Fin.le_def.1 hle
          have hle₂ := Fin.le_def.1 hle₂
          have hlt := Fin.lt_def.1 (hcomma rfl)
          refine (ih fuel _ (by omega) (by omega)).bind ?_
          rintro ⟨as, commas⟩ k₄ - -
          exact .pure trivial
        | false =>
          refine (agree_expect hne).bind ?_
          rintro _ k₄ - -
          exact .pure trivial

theorem agree_delimited {close : TokenKind} (hne : close ≠ .eof)
    (hitem : ∀ k : l.Place, Agree n k x p fun _ _ => True) {limit : Nat} (hl : l.tokens.length ≤ limit)
    (k : l.Place) :
    Agree n k (Machine.delimited close x limit) (delimited close p) fun _ _ => True :=
  agree_untilClose hne hitem limit (l.cursor k).ahead.length k (by omega) (length_ahead k).ge

/-- A round that starts with a token of its own. -/
theorem agree_rounds {kind : TokenKind} (hne : kind ≠ .eof)
    (hitem : ∀ k : l.Place, Agree n k x p fun _ _ => True) (k : l.Place) :
    Agree n k (Machine.eat kind) (eat kind) fun b k' => b = true → Agree n k' x p fun _ k'' => k < k'' :=
  (agree_eat hne).mono fun _ k' _ hq hb => (hitem k').mono fun _ _ hle _ => (hq.1 hb).trans_le hle

end

/-! ### Types -/

section

variable {n limit : Nat} {x : Run TypeExpr} {p : Parser TypeExpr}

theorem agree_parseField (ht : ∀ k : l.Place, Agree n k x p fun _ k' => k < k') (k : l.Place) :
    Agree n k (Machine.parseField x) (parseField p) fun _ k' => k < k' := by
  refine .get_bind (peek_run n k) (.get_bind (peekSecond_run n k) ?_)
  rw [cursor_token]
  have hbare : Agree n k (do return (none, ← x) : Run FieldExpr) (do return (none, ← p)) fun _ k' => k < k' :=
    (ht k).bind fun _ _ _ hlt => .pure hlt
  cases hname : (l.tokenAt k).kind with
  | ident name =>
    cases hcolons : (l.cursor k).second.kind with
    | colons =>
      have hk : (l.tokenAt k).kind ≠ .eof := by simp [hname]
      rw [second_succ k hk] at hcolons
      refine (agree_advance hk).bind ?_
      rintro _ _ hle rfl
      refine (agree_advance (by simp [hcolons])).bind ?_
      rintro _ _ hle' rfl
      refine (ht _).bind ?_
      rintro ty k' - hlt
      exact .pure ((hle.trans hle').trans_lt hlt)
    | _ => exact hbare
  | _ => exact hbare

theorem agree_parseArg (ht : ∀ k : l.Place, Agree n k x p fun _ k' => k < k') (k : l.Place) :
    Agree n k (Machine.parseArg x) (parseArg p) fun _ k' => k < k' := by
  refine agree_peek.bind ?_
  rintro _ _ - ⟨rfl, rfl⟩
  generalize hk : (l.tokenAt _).kind = kind
  cases kind with
  | str doc =>
    refine (agree_advance (by simp [hk])).bind ?_
    rintro _ _ - rfl
    exact .pure (lt_succ _ _)
  | _ => exact (ht _).bind fun _ _ _ hlt => .pure hlt

theorem agree_parseFields (ht : ∀ k : l.Place, Agree n k x p fun _ k' => k < k')
    (hl : l.tokens.length ≤ limit) {close : TokenKind} (hne : close ≠ .eof) (k : l.Place) :
    Agree n k (Machine.parseFields limit x close) (parseFields p close) fun _ _ => True := by
  refine (agree_delimited hne (fun k => (agree_parseField ht k).mono fun _ _ _ _ => trivial) hl k).bind ?_
  rintro ⟨fields, commas⟩ k' - -
  exact .pure trivial

theorem agree_parseTypeWith (ht : ∀ k : l.Place, Agree n k x p fun _ k' => k < k')
    (hl : l.tokens.length ≤ limit) (k : l.Place) :
    Agree n k (Machine.parseTypeWith limit x) (parseTypeWith p) fun _ k' => k < k' := by
  refine .get_bind (token_run n k) ?_
  rw [cursor_token]
  refine agree_peek.bind ?_
  rintro _ _ - ⟨rfl, rfl⟩
  cases hk : (l.tokenAt _).kind with
  | ident head =>
    refine (agree_advance (by simp [hk])).bind ?_
    rintro _ _ - rfl
    refine (agree_eat (by simp)).bind ?_
    rintro b k₁ hle -
    cases b with
    | true =>
      refine (agree_delimited (by simp) (fun k => (agree_parseArg ht k).mono fun _ _ _ _ => trivial) hl k₁).bind ?_
      rintro ⟨args, commas⟩ k₂ hle' -
      have hlt := (lt_succ _ (by simp [hk])).trans_le (hle.trans hle')
      refine .get_bind (textSince_run n k₂ (Nat.zero_lt_of_lt hlt) (l.boundary_start _)) ?_
      exact .pure hlt
    | false =>
      refine (agree_many (agree_rounds (by simp) fun k => agree_ident.mono fun _ _ _ _ => trivial) hl k₁).bind ?_
      rintro names k₂ hle' -
      exact .pure ((lt_succ _ _).trans_le (hle.trans hle'))
  | lparen =>
    refine (agree_advance (by simp [hk])).bind ?_
    rintro _ _ - rfl
    refine (agree_delimited (by simp) (fun k => (ht k).mono fun _ _ _ _ => trivial) hl _).bind ?_
    rintro r k₁ hle -
    have hlt := (lt_succ _ (by simp [hk])).trans_le hle
    obtain ⟨_ | ⟨t, _ | ⟨u, us⟩⟩, _ | _⟩ := r
    all_goals exact .pure hlt
  | lbrace =>
    refine (agree_advance (by simp [hk])).bind ?_
    rintro _ _ - rfl
    refine (agree_parseFields ht hl (by simp) _).bind ?_
    rintro fields k₁ hle -
    exact .pure ((lt_succ _ _).trans_le hle)
  | _ => exact agree_fail _

/-- The counter is back where it was, whatever the level ends with. -/
theorem agree_nested {x : Run α} {p : Parser α} {k : l.Place} {Q : α → l.Place → Prop} (hn : n < maxTypeNesting)
    (h : Agree (n + 1) k x p Q) : Agree n k (Machine.nested x) p Q := by
  have hrun : ∀ {r k'}, x (l.machine (n + 1) k) = some (r, l.machine (n + 1) k') →
      Machine.nested x (l.machine n k) = some (r, l.machine n k') := by
    intro r k' hx
    have hlevel : ¬ maxTypeNesting ≤ (l.machine n k).nesting := Nat.not_le.2 hn
    rw [Machine.nested, if_neg hlevel]
    exact congrArg Machine.leave hx
  rcases h with ⟨a, k', hle, hx, hp, hq⟩ | ⟨e, k', hle, hx, hp⟩
  · exact .inl ⟨a, k', hle, hrun hx, hp, hq⟩
  · exact .inr ⟨e, k', hle, hrun hx, hp⟩

/-- The levels that are left and the counter always make up the same number. -/
theorem agree_parseTypeWithin (hl : l.tokens.length ≤ limit) {levels depth : Nat}
    (hn : n + levels = maxTypeNesting) (hd : levels < depth) (k : l.Place) :
    Agree n k (Machine.parseTypeTo limit depth) (parseTypeWithin levels) fun _ k' => k < k' := by
  induction levels generalizing n depth k with
  | zero =>
    cases depth with
    | zero => exact absurd hd (Nat.lt_irrefl 0)
    | succ depth =>
      have hlevel : maxTypeNesting ≤ (l.machine n k).nesting := hn.ge
      rw [Agree, Machine.parseTypeTo, Machine.nested, if_pos hlevel]
      exact agree_fail _
  | succ levels ih =>
    cases depth with
    | zero => exact absurd hd (Nat.not_lt_zero _)
    | succ depth =>
      refine agree_nested (by omega) (agree_parseTypeWith (fun k => ?_) hl k)
      exact ih (by omega) (by omega) k

end

/-! ### Declarations -/

section

variable {limit : Nat}

theorem agree_parseType (hl : l.tokens.length ≤ limit) (hd : maxTypeNesting < limit) (k : l.Place) :
    Agree 0 k (Machine.parseType limit) parseType fun _ k' => k < k' :=
  agree_parseTypeWithin hl (Nat.zero_add _) hd k

theorem agree_parseVariant (hl : l.tokens.length ≤ limit) (hd : maxTypeNesting < limit) (k : l.Place) :
    Agree 0 k (Machine.parseVariant limit) parseVariant fun _ _ => True := by
  refine agree_ident.bind ?_
  rintro tag k₁ - -
  refine (agree_eat (by simp)).bind ?_
  rintro b k₂ - -
  cases b with
  | true =>
    refine (agree_parseFields (agree_parseType hl hd) hl (by simp) k₂).bind ?_
    rintro fields k₃ - -
    exact .pure trivial
  | false => exact .pure trivial

theorem agree_parseArrow (k : l.Place) : Agree 0 k Machine.parseArrow parseArrow fun _ _ => True := by
  refine agree_ident.bind ?_
  rintro name k₁ - -
  refine (agree_expect (by simp)).bind ?_
  rintro _ k₂ - -
  refine agree_ident.bind ?_
  rintro dom k₃ - -
  refine (agree_expect (by simp)).bind ?_
  rintro _ k₄ - -
  refine agree_ident.bind ?_
  rintro codom k₅ - -
  exact .pure trivial

theorem agree_parseTableItem (hl : l.tokens.length ≤ limit) (hd : maxTypeNesting < limit) (k : l.Place) :
    Agree 0 k (Machine.parseTableItem limit) parseTableItem fun _ k' => k < k' := by
  refine .get_bind (peek_run 0 k) ?_
  rw [cursor_token]
  dsimp only
  cases hk : (l.tokenAt k).kind with
  | ident word =>
    have hne : (l.tokenAt k).kind ≠ .eof := by simp [hk]
    have hlt := lt_succ k hne
    refine (agree_advance hne).bind ?_
    rintro _ _ - rfl
    split
    · refine agree_ident.bind ?_
      rintro name k₁ hle -
      refine (agree_many (agree_rounds (by simp) fun k => agree_ident.mono fun _ _ _ _ => trivial) hl k₁).bind ?_
      rintro names k₂ hle' -
      exact .pure (hlt.trans_le (hle.trans hle'))
    · refine (agree_parseArrow _).bind ?_
      rintro ⟨name, dom, codom⟩ k₁ hle -
      exact .pure (hlt.trans_le hle)
    · refine (agree_parseArrow _).bind ?_
      rintro ⟨name, dom, codom⟩ k₁ hle -
      exact .pure (hlt.trans_le hle)
    · refine agree_ident.bind ?_
      rintro name k₁ hle -
      refine (agree_expect (by simp)).bind ?_
      rintro _ k₂ hle₂ -
      refine (agree_parseType hl hd k₂).bind ?_
      rintro ty k₃ hle₃ -
      exact .pure (hlt.trans_le ((hle.trans hle₂).trans hle₃))
    · simp only [agree_failBehind]
  | _ => exact agree_fail _

/-- The word of a declaration, its name, and what opens its body. -/
theorem agree_opened {k : l.Place} {kind : TokenKind} (hk : (l.tokenAt k).kind ≠ .eof) (hne : kind ≠ .eof)
    {x : String → Run DeclExpr} {p : String → Parser DeclExpr}
    (h : ∀ name k', Agree 0 k' (x name) (p name) fun (_ : DeclExpr) (_ : l.Place) => True) :
    Agree 0 k (do Machine.advance; let name ← Machine.ident; Machine.expect kind; x name)
      (do advance; let name ← ident; expect kind; p name) fun _ k' => k < k' := by
  refine (agree_advance hk).bind ?_
  rintro _ _ - rfl
  refine agree_ident.bind ?_
  rintro name k₁ hle -
  refine (agree_expect hne).bind ?_
  rintro _ k₂ hle₂ -
  exact (h name k₂).mono fun _ _ hle₃ _ => (lt_succ k hk).trans_le ((hle.trans hle₂).trans hle₃)

theorem agree_parseDecl (hl : l.tokens.length ≤ limit) (hd : maxTypeNesting < limit) (k : l.Place) :
    Agree 0 k (Machine.parseDecl limit) parseDecl fun _ k' => k < k' := by
  refine agree_peek.bind ?_
  rintro _ k - ⟨rfl, rfl⟩
  generalize hk : (l.tokenAt k).kind = kind
  split
  · refine agree_opened (by simp [hk]) (by simp) fun name k₁ => ?_
    refine (agree_parseFields (agree_parseType hl hd) hl (by simp) k₁).bind ?_
    rintro fields k₂ - -
    exact .pure trivial
  · refine agree_opened (by simp [hk]) (by simp) fun name k₁ => ?_
    refine (agree_eat (by simp)).bind ?_
    rintro bar k₂ - -
    refine (agree_parseVariant hl hd k₂).bind ?_
    rintro first k₃ - -
    refine (agree_many (agree_rounds (by simp) (agree_parseVariant hl hd)) hl k₃).bind ?_
    rintro rest k₄ - -
    refine (agree_expect (by simp)).bind ?_
    rintro _ k₅ - -
    exact .pure trivial
  · refine agree_opened (by simp [hk]) (by simp) fun name k₁ => ?_
    refine (agree_parseType hl hd k₁).bind ?_
    rintro ty k₂ - -
    exact .pure trivial
  · refine agree_opened (by simp [hk]) (by simp) fun name k₁ => ?_
    refine (agree_many (fun k => ?_) hl k₁).bind ?_
    · refine (agree_eat (by simp)).bind ?_
      rintro b k₂ hle -
      refine .pure fun _ => ?_
      exact (agree_parseTableItem hl hd k₂).mono fun _ _ _ hlt => hle.trans_lt hlt
    · rintro items k₂ - -
      exact .pure trivial
  · simp only [agree_fail]
  · simp only [agree_fail]

theorem agree_parseSingle (hl : l.tokens.length ≤ limit) (hd : maxTypeNesting < limit) (k : l.Place) :
    Agree 0 k (Machine.parseSingle limit) parseSingle fun _ _ => True := by
  refine (agree_parseDecl hl hd k).bind ?_
  rintro decl k₁ - -
  refine agree_atEnd.bind ?_
  rintro b k₂ - -
  cases b with
  | true => exact .pure trivial
  | false => exact (agree_fail (Q := fun _ _ => False) _).bind fun _ _ _ h => h.elim

theorem agree_parseHeader (hl : l.tokens.length ≤ limit) (k : l.Place) :
    Agree 0 k (Machine.parseHeader limit) parseHeader fun _ _ => True := by
  refine (agree_expectWord _).bind ?_
  rintro _ k₁ - -
  refine agree_ident.bind ?_
  rintro name k₂ - -
  refine (agree_many (agree_rounds (by simp) fun k => agree_ident.mono fun _ _ _ _ => trivial) hl k₂).bind ?_
  rintro imports k₃ - -
  exact .pure trivial

theorem agree_parseFile (hl : l.tokens.length ≤ limit) (hd : maxTypeNesting < limit) (k : l.Place) :
    Agree 0 k (Machine.parseFile limit) parseFile fun _ _ => True := by
  refine (agree_parseHeader hl k).bind ?_
  rintro ⟨name, imports⟩ k₁ - -
  refine (agree_many (fun k => ?_) hl k₁).bind ?_
  · refine agree_atEnd.bind ?_
    rintro b k₂ hle -
    refine .pure fun _ => ?_
    exact (agree_parseDecl hl hd k₂).mono fun _ _ _ hlt => hle.trans_lt hlt
  · rintro decls k₂ - -
    exact .pure trivial

theorem agree_call (hl : l.tokens.length ≤ limit) (hd : maxTypeNesting < limit) (call : Call) (k : l.Place) :
    Agree 0 k (call.run limit) call.parser fun _ _ => True := by
  cases call with
  | file => exact (agree_parseFile hl hd k).bind fun _ _ _ _ => .pure trivial
  | single => exact (agree_parseSingle hl hd k).bind fun _ _ _ _ => .pure trivial
  | decl => exact (agree_parseDecl hl hd k).bind fun _ _ _ _ => .pure trivial
  | type => exact (agree_parseType hl hd k).bind fun _ _ _ _ => .pure trivial

end

/-! ### Calls -/

theorem cursor_injective : Function.Injective l.cursor := by
  intro k k' h
  have hk := length_ahead k
  have hk' := length_ahead k'
  rw [h] at hk
  exact Fin.ext (by omega)

/-- A call ends at one place, whatever the limit. -/
theorem exists_reply (call : Call) (k : l.Place) :
    ∃ r k', k ≤ k' ∧
      (∀ calls, (l.cursor k).replies (call :: calls) = r :: (l.cursor k').replies calls) ∧
      ∀ limit, l.tokens.length ≤ limit → maxTypeNesting < limit →
        call.run limit (l.machine 0 k) = some (r, l.machine 0 k') := by
  have hl : l.tokens.length ≤ l.tokens.length + maxTypeNesting + 1 := by omega
  have hd : maxTypeNesting < l.tokens.length + maxTypeNesting + 1 := by omega
  rcases agree_call hl hd call k with ⟨reply, k', hle, -, hp, -⟩ | ⟨e, k', hle, -, hp⟩
  · refine ⟨.ok reply, k', hle, fun calls => by rw [Cursor.replies, hp], fun limit hl hd => ?_⟩
    rcases agree_call hl hd call k with ⟨reply', k'', -, hx, hp', -⟩ | ⟨e, k'', -, -, hp'⟩
    · obtain ⟨rfl, hc⟩ := EStateM.Result.ok.inj (hp.symm.trans hp')
      rw [hx, cursor_injective hc]
    · cases hp.symm.trans hp'
  · refine ⟨.error e, k', hle, fun calls => by rw [Cursor.replies, hp], fun limit hl hd => ?_⟩
    rcases agree_call hl hd call k with ⟨reply, k'', -, -, hp', -⟩ | ⟨e', k'', -, hx, hp'⟩
    · cases hp.symm.trans hp'
    · obtain ⟨rfl, hc⟩ := EStateM.Result.error.inj (hp.symm.trans hp')
      rw [hx, cursor_injective hc]

/-- What holds of one call holds of calls one after the other. -/
theorem exists_trace (calls : List Call) (k : l.Place) :
    ∃ trace : List (Except SourceError Reply × l.Place),
      (∀ limit, l.tokens.length ≤ limit → maxTypeNesting < limit →
        Machine.session limit calls (l.machine 0 k) =
          some (trace.map fun r => (r.1, l.machine 0 r.2))) ∧
      trace.map Prod.fst = (l.cursor k).replies calls ∧
      (k :: trace.map Prod.snd).IsChain (· ≤ ·) := by
  induction calls generalizing k with
  | nil => exact ⟨[], fun _ _ _ => rfl, rfl, .singleton k⟩
  | cons call calls ih =>
    obtain ⟨r, k', hle, hreplies, hrun⟩ := exists_reply call k
    obtain ⟨trace, htrace, hfst, hchain⟩ := ih k'
    refine ⟨(r, k') :: trace, fun limit hl hd => ?_, ?_, ?_⟩
    · rw [Machine.session, hrun limit hl hd]
      simp [htrace limit hl hd]
    · rw [hreplies, ← hfst]
      rfl
    · exact .cons_cons hle hchain

end Lexed

theorem next_lt_of_tokenize {src : String} {tokens : List Token} (h : tokenize src = .ok tokens)
    (k : Fin tokens.length) (hk : (tokens.get k).kind ≠ .eof) : k + 1 < tokens.length := by
  obtain ⟨ts, rfl, -, -⟩ := exists_stands h
  obtain ⟨k, hlt⟩ := k
  simp only [List.length_append, List.length_singleton] at hlt ⊢
  by_contra hge
  obtain rfl : k = ts.length := by omega
  simp at hk

/-- The tokens that a text is read as. -/
def Lexed.ofTokens {src : String} {tokens : List Token} (h : tokenize src = .ok tokens) : Lexed where
  source := src.toList
  tokens := tokens
  next_lt := next_lt_of_tokenize h
  boundary := boundary_of_tokenize h

/-- However often a parser is asked for something and whatever it answers, it goes on from where it stopped:
on every text that has tokens, a machine that checks every access and has room for enough rounds replies what the
parser replies, always has a token to look at, never goes back, and leaves every call at the level of types at
which it was called. -/
theorem session_resumes {src : String} {tokens : List Token} (h : tokenize src = .ok tokens) (calls : List Call) :
    ∃ trace : List (Except SourceError Reply × Machine),
      (∀ limit, tokens.length ≤ limit → maxTypeNesting < limit →
        Machine.session limit calls ⟨src.toList, tokens, 0, 0⟩ = some trace) ∧
      trace.map Prod.fst = Cursor.replies calls ⟨src.toList, tokens, 0⟩ ∧
      ((⟨src.toList, tokens, 0, 0⟩ : Machine) :: trace.map Prod.snd).IsChain
        (fun m m' => m.current ≤ m'.current ∧ m'.nesting = m.nesting) ∧
      ∀ r ∈ trace, r.2.source = src.toList ∧ r.2.tokens = tokens ∧ r.2.current < tokens.length := by
  have hpos : 0 < tokens.length := by
    obtain ⟨ts, rfl, -, -⟩ := exists_stands h
    simp
  obtain ⟨trace, hrun, hreplies, hchain⟩ := (Lexed.ofTokens h).exists_trace calls ⟨0, hpos⟩
  refine ⟨_, hrun, ?_, ?_, ?_⟩
  · rw [List.map_map]
    exact hreplies
  · have hmachines := List.isChain_map_of_isChain (Lexed.machine _ 0)
      (S := fun m m' => m.current ≤ m'.current ∧ m'.nesting = m.nesting) (fun _ _ hle => ⟨hle, rfl⟩) hchain
    rw [List.map_cons, List.map_map] at hmachines
    rw [List.map_map]
    exact hmachines
  · rintro r hr
    obtain ⟨⟨r, k⟩, -, rfl⟩ := List.mem_map.1 hr
    exact ⟨rfl, rfl, k.isLt⟩

theorem session_resumes_after_failure :
    ∃ tokens trace, tokenize "alias A alias B = C" = .ok tokens ∧
      Machine.session 65 [.decl, .decl, .type] ⟨"alias A alias B = C".toList, tokens, 0, 0⟩ = some trace ∧
      trace.map (fun r => r.1.isOk) = [false, true, false] := by
  have h : tokenize "alias A alias B = C" =
      .ok [⟨.ident "alias", 0, 5⟩, ⟨.ident "A", 6, 7⟩, ⟨.ident "alias", 8, 13⟩, ⟨.ident "B", 14, 15⟩,
        ⟨.eq, 16, 17⟩, ⟨.ident "C", 18, 19⟩, ⟨.eof, 19, 19⟩] := by decide
  obtain ⟨trace, hrun, hreplies, -⟩ := session_resumes h [.decl, .decl, .type]
  refine ⟨_, trace, h, hrun 65 (by decide) (by decide), ?_⟩
  rw [show trace.map (fun r => r.1.isOk) = (trace.map Prod.fst).map Except.isOk by simp, hreplies]
  rfl

end Wireform.Source
