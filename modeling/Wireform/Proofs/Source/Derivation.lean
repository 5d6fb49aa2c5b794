import Mathlib
import Wireform.Proofs.Sequence
import Wireform.Proofs.Source.Grammar

/-!
# What a parser has taken

A parser that succeeds has taken tokens from the front, and the grammar allows them for what it returns
(`Sound`). The tokens of a text end with one that no parser takes, so a list is never cut short by the
number of tokens ahead.
-/

namespace Wireform.Source

variable {α : Type}

/-! ### Going over tokens -/

/-- The last token is the end of the text. -/
def Terminated (ts : List Token) : Prop := ∃ us e, ts = us ++ [e] ∧ e.kind = .eof

theorem Terminated.length_pos {ts : List Token} (h : Terminated ts) : 0 < ts.length := by
  obtain ⟨us, e, rfl, -⟩ := h
  simp

theorem Terminated.of_append {us ts : List Token} (h : Terminated (us ++ ts)) (hne : ts ≠ []) :
    Terminated ts := by
  obtain ⟨vs, e, hvs, he⟩ := h
  rcases List.eq_nil_or_concat' ts with rfl | ⟨ws, w, rfl⟩
  · exact absurd rfl hne
  · rw [← List.append_assoc] at hvs
    obtain ⟨-, hw⟩ := List.append_inj' hvs rfl
    exact ⟨ws, w, rfl, by rw [List.singleton_inj.1 hw, he]⟩

/-- From `c` over the tokens `ts` to `c'`. -/
structure Cursor.Reads (c : Cursor) (ts : List Token) (c' : Cursor) : Prop where
  ahead : c.ahead = ts ++ c'.ahead
  source : c'.source = c.source
  behind : c'.behind = endOf c.behind ts
  terminated : Terminated c'.ahead

namespace Cursor.Reads

variable {c c' c'' : Cursor} {t : Token} {ts us : List Token}

theorem refl (h : Terminated c.ahead) : c.Reads [] c := ⟨rfl, rfl, rfl, h⟩

theorem trans (h : c.Reads ts c') (h' : c'.Reads us c'') : c.Reads (ts ++ us) c'' where
  ahead := by rw [h.ahead, h'.ahead, List.append_assoc]
  source := h'.source.trans h.source
  behind := by rw [h'.behind, h.behind, endOf, endOf, endOf, List.foldl_append]
  terminated := h'.terminated

theorem cons (h : c.Reads [t] c') (h' : c'.Reads ts c'') : c.Reads (t :: ts) c'' := h.trans h'

/-- The token after the next is the next one after that. -/
theorem second_kind (h : c.Reads [t] c') : c.second.kind = c'.token.kind := by
  unfold Cursor.second Cursor.token
  rw [h.ahead]
  cases ha : c'.ahead with
  | nil => exact absurd h.terminated.length_pos (by simp [ha])
  | cons u us => rfl

theorem length (h : c.Reads ts c') : c.ahead.length = ts.length + c'.ahead.length := by
  rw [h.ahead, List.length_append]

end Cursor.Reads

def Sound (p : Parser α) (G : List Char → Rule α) : Prop :=
  ∀ c a c', Terminated c.ahead → p c = .ok a c' → ∃ ts, c.Reads ts c' ∧ G c.source ts a

/-! ### Single tokens -/

section

variable {c c' : Cursor} {k : TokenKind}

theorem token_kind (c : Cursor) : c.token.kind = nextKind c.ahead := by
  unfold Cursor.token
  cases c.ahead <;> rfl

theorem peek_eq_ok (h : peek c = .ok k c') : c.token.kind = k ∧ c = c' := pure_run_eq_ok.1 h

theorem advance_reads {u : Unit} (hc : Terminated c.ahead) (hk : c.token.kind ≠ .eof)
    (h : advance c = .ok u c') : c.Reads [c.token] c' := by
  obtain rfl : c.advance = c' := ((EStateM.Result.ok.injEq ..).mp h).2
  obtain ⟨source, ahead, behind⟩ := c
  cases ahead with
  | nil => exact absurd rfl hk
  | cons t ts =>
    have ht : t.kind ≠ .eof := hk
    simp only [Cursor.advance, ht, if_false, Cursor.token, List.headD_cons]
    refine ⟨rfl, rfl, rfl, ?_⟩
    obtain ⟨us, e, hu, he⟩ := hc
    cases us with
    | nil =>
      obtain ⟨rfl, -⟩ := List.cons.inj hu
      exact absurd he ht
    | cons u us => exact ⟨us, e, (List.cons.inj hu).2, he⟩

theorem eat_eq_ok {b : Bool} (hc : Terminated c.ahead) (hk : k ≠ .eof) (h : eat k c = .ok b c') :
    b = true ∧ c.token.kind = k ∧ c.Reads [c.token] c' ∨ b = false ∧ c.token.kind ≠ k ∧ c = c' := by
  obtain ⟨k', c₁, hp, h⟩ := bind_run_eq_ok.1 h
  obtain ⟨rfl, rfl⟩ := peek_eq_ok hp
  split at h
  · rename_i he
    obtain ⟨u, c₂, ha, h⟩ := bind_run_eq_ok.1 h
    obtain ⟨rfl, rfl⟩ := pure_run_eq_ok.1 h
    exact .inl ⟨rfl, he, advance_reads hc (he ▸ hk) ha⟩
  · rename_i he
    obtain ⟨rfl, rfl⟩ := pure_run_eq_ok.1 h
    exact .inr ⟨rfl, he, rfl⟩

theorem eat_or_fail_eq_ok {u : Unit} {why : Complaint} (hc : Terminated c.ahead) (hk : k ≠ .eof)
    (h : (do unless ← eat k do fail why : Parser Unit) c = .ok u c') :
    c.token.kind = k ∧ c.Reads [c.token] c' := by
  obtain ⟨b, c₁, he, h⟩ := bind_run_eq_ok.1 h
  rcases eat_eq_ok hc hk he with ⟨rfl, ht, hr⟩ | ⟨rfl, -, rfl⟩
  · obtain ⟨-, rfl⟩ := pure_run_eq_ok.1 h
    exact ⟨ht, hr⟩
  · cases h

theorem expect_eq_ok {u : Unit} (hc : Terminated c.ahead) (hk : k ≠ .eof) (h : expect k c = .ok u c') :
    c.token.kind = k ∧ c.Reads [c.token] c' := eat_or_fail_eq_ok hc hk h

theorem expectWord_eq_ok {u : Unit} {word : String} (hc : Terminated c.ahead)
    (h : expectWord word c = .ok u c') : c.token.kind = .ident word ∧ c.Reads [c.token] c' :=
  eat_or_fail_eq_ok hc (by simp) h

theorem ident_eq_ok {name : String} (hc : Terminated c.ahead) (h : ident c = .ok name c') :
    c.token.kind = .ident name ∧ c.Reads [c.token] c' := by
  obtain ⟨k, c₁, hp, h⟩ := bind_run_eq_ok.1 h
  obtain ⟨hk, rfl⟩ := peek_eq_ok hp
  split at h
  · obtain ⟨u, c₂, ha, h⟩ := bind_run_eq_ok.1 h
    obtain ⟨rfl, rfl⟩ := pure_run_eq_ok.1 h
    exact ⟨hk, advance_reads hc (by simp [hk]) ha⟩
  · cases h

theorem ident_sound : Sound ident fun _ => Word := by
  intro c name c' hc h
  obtain ⟨ht, hr⟩ := ident_eq_ok hc h
  exact ⟨_, hr, .mk ht⟩

theorem eat_optionally {c c' : Cursor} {k : TokenKind} {b : Bool} (hc : Terminated c.ahead) (hk : k ≠ .eof)
    (h : eat k c = .ok b c') : ∃ ts, c.Reads ts c' ∧ Optionally k ts := by
  rcases eat_eq_ok hc hk h with ⟨rfl, ht, hr⟩ | ⟨rfl, -, rfl⟩
  · exact ⟨_, hr, .inr ⟨_, rfl, ht⟩⟩
  · exact ⟨[], .refl hc, .inl rfl⟩

end

/-! ### Lists -/

section

variable {item : Parser α} {G : List Char → Rule α} {k close : TokenKind}

theorem whileSome_sound (hk : k ≠ .eof) (hi : Sound item G) (fuel : Nat) :
    Sound (whileSome (eat k) item fuel) fun source => Repeated (After k (G source)) := by
  induction fuel with
  | zero =>
    intro c as c' hc h
    obtain ⟨rfl, rfl⟩ := pure_run_eq_ok.1 h
    exact ⟨[], .refl hc, .nil⟩
  | succ fuel ih =>
    intro c as c' hc h
    obtain ⟨b, c₁, he, h⟩ := bind_run_eq_ok.1 h
    rcases eat_eq_ok hc hk he with ⟨rfl, ht, hr⟩ | ⟨rfl, -, rfl⟩
    · obtain ⟨a, c₂, ha, h⟩ := bind_run_eq_ok.1 h
      obtain ⟨as', c₃, has, h⟩ := bind_run_eq_ok.1 h
      obtain ⟨rfl, rfl⟩ := pure_run_eq_ok.1 h
      obtain ⟨ts, hr', hg⟩ := hi c₁ a c₂ hr.terminated ha
      obtain ⟨us, hr'', hgs⟩ := ih c₂ as' c₃ hr'.terminated has
      rw [hr.source] at hg
      rw [hr'.source, hr.source] at hgs
      exact ⟨_, (hr.cons hr').trans hr'', .cons (.mk ht hg) hgs⟩
    · obtain ⟨rfl, rfl⟩ := pure_run_eq_ok.1 h
      exact ⟨[], .refl hc, .nil⟩

theorem many_sound (hk : k ≠ .eof) (hi : Sound item G) :
    Sound (many (eat k) item) fun source => Repeated (After k (G source)) :=
  fun c => whileSome_sound hk hi c.ahead.length c

theorem untilClose_sound (hk : close ≠ .eof) (hi : Sound item G) {fuel : Nat} {c c' : Cursor}
    {r : List α × Bool} (hc : Terminated c.ahead) (hf : c.ahead.length ≤ fuel)
    (h : untilClose close item fuel c = .ok r c') :
    ∃ ts, c.Reads ts c' ∧ Enclosed close (G c.source) ts r := by
  induction fuel generalizing c r with
  | zero =>
    have := hc.length_pos
    omega
  | succ fuel ih =>
    obtain ⟨b, c₁, he, h⟩ := bind_run_eq_ok.1 h
    rcases eat_eq_ok hc hk he with ⟨rfl, ht, hr⟩ | ⟨rfl, -, rfl⟩
    · obtain ⟨rfl, rfl⟩ := pure_run_eq_ok.1 h
      exact ⟨_, hr, .none ht⟩
    · obtain ⟨a, c₁, ha, h⟩ := bind_run_eq_ok.1 h
      obtain ⟨ts, hr, hg⟩ := hi _ a c₁ hc ha
      obtain ⟨b, c₂, hcomma, h⟩ := bind_run_eq_ok.1 h
      rcases eat_eq_ok hr.terminated (by simp) hcomma with ⟨rfl, ht, hr'⟩ | ⟨rfl, -, rfl⟩
      · obtain ⟨⟨as, commas⟩, c₃, has, h⟩ := bind_run_eq_ok.1 h
        obtain ⟨rfl, rfl⟩ := pure_run_eq_ok.1 h
        have hlength : c₂.ahead.length ≤ fuel := by
          have h₁ := hr.length
          have h₂ := hr'.length
          simp only [List.length_singleton] at h₂
          omega
        obtain ⟨us, hr'', hgs⟩ := ih hr'.terminated hlength has
        rw [hr'.source, hr.source] at hgs
        exact ⟨_, hr.trans (hr'.cons hr''), .more hg ht hgs⟩
      · obtain ⟨u, c₃, hclose, h⟩ := bind_run_eq_ok.1 h
        obtain ⟨rfl, rfl⟩ := pure_run_eq_ok.1 h
        obtain ⟨ht, hr'⟩ := expect_eq_ok hr.terminated hk hclose
        exact ⟨_, hr.trans hr', .last hg ht⟩

theorem delimited_sound (hk : close ≠ .eof) (hi : Sound item G) :
    Sound (delimited close item) fun source => Enclosed close (G source) :=
  fun _ _ _ hc h => untilClose_sound hk hi hc (Nat.le_refl _) h

/-- Items up to where `more` says that there is none. -/
theorem whileMore_sound {more : Parser Bool}
    (hgo : ∀ c c', Terminated c.ahead → more c = .ok true c' → c = c') (hi : Sound item G) (hne : ∀ source ts a, G source ts a → ts ≠ [])
    {fuel : Nat} {c c' : Cursor} {as : List α} (hc : Terminated c.ahead) (hf : c.ahead.length ≤ fuel)
    (h : whileSome more item fuel c = .ok as c') :
    ∃ ts c₁, c.Reads ts c₁ ∧ Repeated (G c.source) ts as ∧ more c₁ = .ok false c' := by
  induction fuel generalizing c as with
  | zero =>
    have := hc.length_pos
    omega
  | succ fuel ih =>
    obtain ⟨b, c₁, hb, hrest⟩ := bind_run_eq_ok.1 h
    cases b with
    | false =>
      obtain ⟨rfl, rfl⟩ := pure_run_eq_ok.1 hrest
      exact ⟨[], c, .refl hc, .nil, hb⟩
    | true =>
      obtain rfl := hgo _ _ hc hb
      obtain ⟨a, c₂, ha, hrest⟩ := bind_run_eq_ok.1 hrest
      obtain ⟨as', c₃, has, hrest⟩ := bind_run_eq_ok.1 hrest
      obtain ⟨rfl, rfl⟩ := pure_run_eq_ok.1 hrest
      obtain ⟨ts, hr, hg⟩ := hi _ a c₂ hc ha
      have hlength : c₂.ahead.length ≤ fuel := by
        have h₁ := hr.length
        have h₂ := List.length_pos_of_ne_nil (hne _ _ _ hg)
        omega
      obtain ⟨us, c₄, hr', hgs, hend⟩ := ih hr.terminated hlength has
      rw [hr.source] at hgs
      exact ⟨ts ++ us, c₄, hr.trans hr', .cons hg hgs, hend⟩

/-- Items up to the closing brace, which is taken too. -/
theorem whileOpen_sound (hk : close ≠ .eof) (hi : Sound item G) (hne : ∀ source ts a, G source ts a → ts ≠ [])
    {c c' : Cursor} {as : List α} (hc : Terminated c.ahead)
    (h : many (do return !(← eat close)) item c = .ok as c') :
    ∃ ts t, c.Reads (ts ++ [t]) c' ∧ t.kind = close ∧ Repeated (G c.source) ts as := by
  have hgo : ∀ c c', Terminated c.ahead → (do return !(← eat close) : Parser Bool) c = .ok true c' → c = c' := by
    intro c c' hc h
    obtain ⟨b, c₁, he, h⟩ := bind_run_eq_ok.1 h
    obtain ⟨hb, rfl⟩ := pure_run_eq_ok.1 h
    rcases eat_eq_ok hc hk he with ⟨rfl, -⟩ | ⟨rfl, -, hsame⟩
    · cases hb
    · exact hsame
  obtain ⟨ts, c₁, hr, hg, hend⟩ := whileMore_sound hgo hi hne hc (Nat.le_refl _) h
  obtain ⟨b, c₂, he, hend⟩ := bind_run_eq_ok.1 hend
  obtain ⟨hb, rfl⟩ := pure_run_eq_ok.1 hend
  rcases eat_eq_ok hr.terminated hk he with ⟨rfl, ht, hr'⟩ | ⟨rfl, -⟩
  · exact ⟨ts, _, hr.trans hr', ht, hg⟩
  · cases hb

end

/-! ### Types -/

section

variable {type : Parser TypeExpr} {G : List Char → Rule TypeExpr}

theorem parseField_sound (ht : Sound type G) :
    Sound (parseField type) fun source => FieldForm (G source) := by
  intro c f c' hc h
  obtain ⟨c₁, c₂, hg, h⟩ := bind_run_eq_ok.1 h
  obtain ⟨rfl, rfl⟩ : c = c₁ ∧ c = c₂ := (EStateM.Result.ok.injEq ..).mp hg
  obtain ⟨c₁, c₂, hg, h⟩ := bind_run_eq_ok.1 h
  obtain ⟨rfl, rfl⟩ : c = c₁ ∧ c = c₂ := (EStateM.Result.ok.injEq ..).mp hg
  generalize hname : c.token.kind = k at h
  generalize hcolons : c.second.kind = k' at h
  split at h
  · rename_i name
    obtain ⟨u, c₁, ha, h⟩ := bind_run_eq_ok.1 h
    have hr := advance_reads hc (by simp [hname]) ha
    have hsecond : c₁.token.kind = .colons := hr.second_kind ▸ hcolons
    obtain ⟨u', c₂, ha, h⟩ := bind_run_eq_ok.1 h
    have hr' := advance_reads hr.terminated (by simp [hsecond]) ha
    obtain ⟨ty, c₃, hty, h⟩ := bind_run_eq_ok.1 h
    obtain ⟨rfl, rfl⟩ := pure_run_eq_ok.1 h
    obtain ⟨ts, hr'', hg⟩ := ht _ ty c₃ hr'.terminated hty
    rw [hr'.source, hr.source] at hg
    exact ⟨_, hr.cons (hr'.cons hr''), .named hname hsecond hg⟩
  · obtain ⟨ty, c₃, hty, h⟩ := bind_run_eq_ok.1 h
    obtain ⟨rfl, rfl⟩ := pure_run_eq_ok.1 h
    obtain ⟨ts, hr, hg⟩ := ht _ ty c₃ hc hty
    exact ⟨ts, hr, .plain hg⟩

theorem parseArg_sound (ht : Sound type G) : Sound (parseArg type) fun source => ArgForm (G source) := by
  intro c a c' hc h
  obtain ⟨k, c₁, hp, h⟩ := bind_run_eq_ok.1 h
  obtain ⟨hk, rfl⟩ := peek_eq_ok hp
  split at h
  · obtain ⟨u, c₁, ha, h⟩ := bind_run_eq_ok.1 h
    obtain ⟨rfl, rfl⟩ := pure_run_eq_ok.1 h
    exact ⟨_, advance_reads hc (by simp [hk]) ha, .doc hk⟩
  · obtain ⟨ty, c₁, hty, h⟩ := bind_run_eq_ok.1 h
    obtain ⟨rfl, rfl⟩ := pure_run_eq_ok.1 h
    obtain ⟨ts, hr, hg⟩ := ht _ ty c₁ hc hty
    exact ⟨ts, hr, .type hg⟩

theorem parseFields_sound {close : TokenKind} (hk : close ≠ .eof) (ht : Sound type G) :
    Sound (parseFields type close) fun source ts fields =>
      ∃ commas, Enclosed close (FieldForm (G source)) ts (fields, commas) := by
  intro c fields c' hc h
  obtain ⟨r, c₁, hr, h⟩ := bind_run_eq_ok.1 h
  obtain ⟨rfl, rfl⟩ := pure_run_eq_ok.1 h
  obtain ⟨ts, hreads, hg⟩ := delimited_sound hk (parseField_sound ht) _ _ _ hc hr
  exact ⟨ts, hreads, r.2, hg⟩

theorem parseTypeWith_sound (ht : Sound type G) :
    Sound (parseTypeWith type) fun source => TypeForm source (G source) := by
  intro c ty c' hc h
  obtain ⟨c₁, c₂, hg, h⟩ := bind_run_eq_ok.1 h
  obtain ⟨rfl, rfl⟩ : c = c₁ ∧ c = c₂ := (EStateM.Result.ok.injEq ..).mp hg
  obtain ⟨k, c₁, hp, h⟩ := bind_run_eq_ok.1 h
  obtain ⟨hk, rfl⟩ := peek_eq_ok hp
  split at h
  · rename_i name
    obtain ⟨u, c₁, ha, h⟩ := bind_run_eq_ok.1 h
    have hr := advance_reads hc (by simp [hk]) ha
    obtain ⟨b, c₂, he, h⟩ := bind_run_eq_ok.1 h
    rcases eat_eq_ok hr.terminated (by simp) he with ⟨rfl, hparen, hr'⟩ | ⟨rfl, -, rfl⟩
    · obtain ⟨⟨args, commas⟩, c₃, hargs, h⟩ := bind_run_eq_ok.1 h
      obtain ⟨ts, hr'', hg⟩ := delimited_sound (by simp) (parseArg_sound ht) _ _ _ hr'.terminated hargs
      obtain ⟨c₄, c₅, hget, h⟩ := bind_run_eq_ok.1 h
      obtain ⟨rfl, rfl⟩ : c₃ = c₄ ∧ c₃ = c₅ := (EStateM.Result.ok.injEq ..).mp hget
      obtain ⟨rfl, rfl⟩ := pure_run_eq_ok.1 h
      have hall := hr.cons (hr'.cons hr'')
      rw [hr'.source, hr.source] at hg
      refine ⟨_, hall, ?_⟩
      rw [Cursor.textSince, hall.source, hall.behind]
      exact .apply hk hparen hg
    · obtain ⟨names, c₃, hnames, h⟩ := bind_run_eq_ok.1 h
      obtain ⟨rfl, rfl⟩ := pure_run_eq_ok.1 h
      obtain ⟨ts, hr', hg⟩ := many_sound (by simp) ident_sound _ _ _ hr.terminated hnames
      exact ⟨_, hr.cons hr', .path hk hg⟩
  · obtain ⟨u, c₁, ha, h⟩ := bind_run_eq_ok.1 h
    have hr := advance_reads hc (by simp [hk]) ha
    obtain ⟨⟨elems, commas⟩, c₂, helems, h⟩ := bind_run_eq_ok.1 h
    obtain ⟨ts, hr', hg⟩ := delimited_sound (by simp) ht _ _ _ hr.terminated helems
    rw [hr.source] at hg
    generalize hboth : (elems, commas) = both at h
    split at h
    · obtain ⟨rfl, rfl⟩ := pure_run_eq_ok.1 h
      cases hboth
      exact ⟨_, hr.cons hr', .group hk hg⟩
    · rename_i hne
      obtain ⟨rfl, rfl⟩ := pure_run_eq_ok.1 h
      cases hboth
      exact ⟨_, hr.cons hr', .tuple hk hg fun t he => hne t (Prod.mk.inj he).1 (Prod.mk.inj he).2⟩
  · obtain ⟨u, c₁, ha, h⟩ := bind_run_eq_ok.1 h
    have hr := advance_reads hc (by simp [hk]) ha
    obtain ⟨fields, c₂, hfields, h⟩ := bind_run_eq_ok.1 h
    obtain ⟨rfl, rfl⟩ := pure_run_eq_ok.1 h
    obtain ⟨ts, hr', commas, hg⟩ := parseFields_sound (by simp) ht _ _ _ hr.terminated hfields
    rw [hr.source] at hg
    exact ⟨_, hr.cons hr', .record hk hg⟩
  · cases h

end

theorem parseTypeWithin_sound (levels : Nat) :
    Sound (parseTypeWithin levels) fun source => Types source levels := by
  induction levels with
  | zero =>
    intro c ty c' _ h
    cases h
  | succ levels ih => exact parseTypeWith_sound ih

/-! ### Declarations -/

theorem parseVariant_sound : Sound parseVariant VariantForm := by
  intro c v c' hc h
  obtain ⟨tag, c₁, ht, h⟩ := bind_run_eq_ok.1 h
  obtain ⟨hk, hr⟩ := ident_eq_ok hc ht
  obtain ⟨b, c₂, he, h⟩ := bind_run_eq_ok.1 h
  rcases eat_eq_ok hr.terminated (by simp) he with ⟨rfl, hp, hr'⟩ | ⟨rfl, -, rfl⟩
  · obtain ⟨fields, c₃, hf, h⟩ := bind_run_eq_ok.1 h
    obtain ⟨rfl, rfl⟩ := pure_run_eq_ok.1 h
    obtain ⟨ts, hr'', commas, hg⟩ :=
      parseFields_sound (by simp) (parseTypeWithin_sound _) _ _ _ hr'.terminated hf
    rw [hr'.source, hr.source] at hg
    exact ⟨_, hr.cons (hr'.cons hr''), .fields hk hp hg⟩
  · obtain ⟨rfl, rfl⟩ := pure_run_eq_ok.1 h
    exact ⟨_, hr, .plain hk⟩

theorem parseArrow_sound : Sound parseArrow fun _ => ArrowForm := by
  intro c a c' hc h
  obtain ⟨name, c₁, h₁, h⟩ := bind_run_eq_ok.1 h
  obtain ⟨hk₁, hr₁⟩ := ident_eq_ok hc h₁
  obtain ⟨u, c₂, h₂, h⟩ := bind_run_eq_ok.1 h
  obtain ⟨hk₂, hr₂⟩ := expect_eq_ok hr₁.terminated (by simp) h₂
  obtain ⟨dom, c₃, h₃, h⟩ := bind_run_eq_ok.1 h
  obtain ⟨hk₃, hr₃⟩ := ident_eq_ok hr₂.terminated h₃
  obtain ⟨u', c₄, h₄, h⟩ := bind_run_eq_ok.1 h
  obtain ⟨hk₄, hr₄⟩ := expect_eq_ok hr₃.terminated (by simp) h₄
  obtain ⟨codom, c₅, h₅, h⟩ := bind_run_eq_ok.1 h
  obtain ⟨hk₅, hr₅⟩ := ident_eq_ok hr₄.terminated h₅
  obtain ⟨rfl, rfl⟩ := pure_run_eq_ok.1 h
  exact ⟨_, hr₁.cons (hr₂.cons (hr₃.cons (hr₄.cons hr₅))), .mk hk₁ hk₂ hk₃ hk₄ hk₅⟩

theorem parseTableItem_sound : Sound parseTableItem TableItemForm := by
  intro c item c' hc h
  unfold parseTableItem at h
  rw [get_bind_run] at h
  simp only at h
  generalize hk : c.token.kind = k at h
  split at h
  · rename_i word
    obtain ⟨u, c₁, ha, h⟩ := bind_run_eq_ok.1 h
    have hr := advance_reads hc (by simp [hk]) ha
    split at h
    · obtain ⟨name, c₂, hn, h⟩ := bind_run_eq_ok.1 h
      obtain ⟨hname, hr'⟩ := ident_eq_ok hr.terminated hn
      obtain ⟨names, c₃, hns, h⟩ := bind_run_eq_ok.1 h
      obtain ⟨rfl, rfl⟩ := pure_run_eq_ok.1 h
      obtain ⟨ts, hr'', hg⟩ := many_sound (by simp) ident_sound _ _ _ hr'.terminated hns
      exact ⟨_, hr.cons (hr'.cons hr''), .ob hk hname hg⟩
    · obtain ⟨⟨name, dom, codom⟩, c₂, harrow, h⟩ := bind_run_eq_ok.1 h
      obtain ⟨rfl, rfl⟩ := pure_run_eq_ok.1 h
      obtain ⟨ts, hr', hg⟩ := parseArrow_sound _ _ _ hr.terminated harrow
      exact ⟨_, hr.cons hr', .hom hk hg⟩
    · obtain ⟨⟨name, dom, codom⟩, c₂, harrow, h⟩ := bind_run_eq_ok.1 h
      obtain ⟨rfl, rfl⟩ := pure_run_eq_ok.1 h
      obtain ⟨ts, hr', hg⟩ := parseArrow_sound _ _ _ hr.terminated harrow
      exact ⟨_, hr.cons hr', .attr hk hg⟩
    · obtain ⟨name, c₂, hn, h⟩ := bind_run_eq_ok.1 h
      obtain ⟨hname, hr'⟩ := ident_eq_ok hr.terminated hn
      obtain ⟨u, c₃, he, h⟩ := bind_run_eq_ok.1 h
      obtain ⟨heq, hr''⟩ := expect_eq_ok hr'.terminated (by simp) he
      obtain ⟨ty, c₄, hty, h⟩ := bind_run_eq_ok.1 h
      obtain ⟨rfl, rfl⟩ := pure_run_eq_ok.1 h
      obtain ⟨ts, hr₃, hg⟩ := parseTypeWithin_sound _ _ _ _ hr''.terminated hty
      rw [hr''.source, hr'.source, hr.source] at hg
      exact ⟨_, hr.cons (hr'.cons (hr''.cons hr₃)), .attrType hk hname heq hg⟩
    · cases h
  · cases h

theorem parseDecl_sound : Sound parseDecl DeclForm := by
  intro c decl c' hc h
  obtain ⟨k, c₁, hp, h⟩ := bind_run_eq_ok.1 h
  obtain ⟨hk, rfl⟩ := peek_eq_ok hp
  -- A word, the name, and the token that opens the body are common to all of them.
  have hopen : ∀ {open_ : TokenKind} {rest : String → Parser DeclExpr}, open_ ≠ .eof → k ≠ .eof →
      (do advance; let name ← ident; expect open_; rest name) c = .ok decl c' →
      ∃ name n t c₁, c.Reads [c.token, n, t] c₁ ∧ n.kind = .ident name ∧ t.kind = open_ ∧
        rest name c₁ = .ok decl c' := by
    intro open_ rest ho hne h
    obtain ⟨u, c₁, ha, h⟩ := bind_run_eq_ok.1 h
    have hr := advance_reads hc (hk ▸ hne) ha
    obtain ⟨name, c₂, hn, h⟩ := bind_run_eq_ok.1 h
    obtain ⟨hname, hr'⟩ := ident_eq_ok hr.terminated hn
    obtain ⟨u, c₃, he, h⟩ := bind_run_eq_ok.1 h
    obtain ⟨heq, hr''⟩ := expect_eq_ok hr'.terminated ho he
    exact ⟨name, _, _, c₃, hr.cons (hr'.cons hr''), hname, heq, h⟩
  split at h
  · obtain ⟨name, n, t, c₁, hr, hn, ht, h⟩ := hopen (by simp) (by simp) h
    obtain ⟨fields, c₂, hf, h⟩ := bind_run_eq_ok.1 h
    obtain ⟨rfl, rfl⟩ := pure_run_eq_ok.1 h
    obtain ⟨ts, hr', commas, hg⟩ :=
      parseFields_sound (by simp) (parseTypeWithin_sound _) _ _ _ hr.terminated hf
    rw [hr.source] at hg
    exact ⟨_, hr.trans hr', .struct hk hn ht hg⟩
  · obtain ⟨name, n, t, c₁, hr, hn, ht, h⟩ := hopen (by simp) (by simp) h
    obtain ⟨b, c₂, hbar, h⟩ := bind_run_eq_ok.1 h
    obtain ⟨bar, hr₂, hb⟩ := eat_optionally hr.terminated (by simp) hbar
    obtain ⟨first, c₃, hfirst, h⟩ := bind_run_eq_ok.1 h
    obtain ⟨ts, hr₃, hg⟩ := parseVariant_sound _ _ _ hr₂.terminated hfirst
    obtain ⟨rest, c₄, hrest, h⟩ := bind_run_eq_ok.1 h
    obtain ⟨us, hr₄, hgs⟩ := many_sound (by simp) parseVariant_sound _ _ _ hr₃.terminated hrest
    obtain ⟨u, c₅, hclose, h⟩ := bind_run_eq_ok.1 h
    obtain ⟨hc', hr₅⟩ := expect_eq_ok hr₄.terminated (by simp) hclose
    obtain ⟨rfl, rfl⟩ := pure_run_eq_ok.1 h
    rw [hr₂.source, hr.source] at hg
    rw [hr₃.source, hr₂.source, hr.source] at hgs
    exact ⟨_, hr.trans (((hr₂.trans hr₃).trans hr₄).trans hr₅), .sum hk hn ht hb hg hgs hc'⟩
  · obtain ⟨name, n, t, c₁, hr, hn, ht, h⟩ := hopen (by simp) (by simp) h
    obtain ⟨ty, c₂, hty, h⟩ := bind_run_eq_ok.1 h
    obtain ⟨rfl, rfl⟩ := pure_run_eq_ok.1 h
    obtain ⟨ts, hr', hg⟩ := parseTypeWithin_sound _ _ _ _ hr.terminated hty
    rw [hr.source] at hg
    exact ⟨_, hr.trans hr', .alias hk hn ht hg⟩
  · obtain ⟨name, n, t, c₁, hr, hn, ht, h⟩ := hopen (by simp) (by simp) h
    obtain ⟨items, c₂, hitems, h⟩ := bind_run_eq_ok.1 h
    obtain ⟨rfl, rfl⟩ := pure_run_eq_ok.1 h
    obtain ⟨ts, close, hr', hclose, hg⟩ := whileOpen_sound (by simp) parseTableItem_sound
      (fun source ts item hg => (TableItemForm.starts source ts item hg).1) hr.terminated hitems
    rw [hr.source] at hg
    exact ⟨_, hr.trans hr', .table hk hn ht hg hclose⟩
  · cases h
  · cases h

/-- A single declaration ends where the text ends. -/
theorem parseSingle_sound {c c' : Cursor} {decl : DeclExpr} (hc : Terminated c.ahead)
    (h : parseSingle c = .ok decl c') :
    ∃ ts, c.Reads ts c' ∧ DeclForm c.source ts decl ∧ nextKind c'.ahead = .eof := by
  obtain ⟨d, c₁, hd, h⟩ := bind_run_eq_ok.1 h
  obtain ⟨ts, hr, hg⟩ := parseDecl_sound _ _ _ hc hd
  obtain ⟨b, c₂, hend, h⟩ := bind_run_eq_ok.1 h
  obtain ⟨k, c₃, hp, hend⟩ := bind_run_eq_ok.1 hend
  obtain ⟨hk, rfl⟩ := peek_eq_ok hp
  obtain ⟨rfl, rfl⟩ := pure_run_eq_ok.1 hend
  by_cases heof : k = .eof
  · subst heof
    obtain ⟨rfl, rfl⟩ := pure_run_eq_ok.1 h
    exact ⟨ts, hr, hg, token_kind _ ▸ hk⟩
  · simp only [heof, decide_false] at h
    cases h

theorem parseHeader_sound {c c' : Cursor} {name : String} {imports : List String} (hc : Terminated c.ahead)
    (h : parseHeader c = .ok (name, imports) c') :
    ∃ word n ts, c.Reads (word :: n :: ts) c' ∧ word.kind = .ident "module" ∧ n.kind = .ident name ∧
      Repeated (After (.ident "import") Word) ts imports := by
  obtain ⟨u, c₁, hword, h⟩ := bind_run_eq_ok.1 h
  obtain ⟨n, c₂, hname, h⟩ := bind_run_eq_ok.1 h
  obtain ⟨is, c₃, himports, h⟩ := bind_run_eq_ok.1 h
  obtain ⟨hboth, rfl⟩ := pure_run_eq_ok.1 h
  cases hboth
  obtain ⟨hk, hr₁⟩ := expectWord_eq_ok hc hword
  obtain ⟨hn, hr₂⟩ := ident_eq_ok hr₁.terminated hname
  obtain ⟨ts, hr₃, hg⟩ := many_sound (by simp) ident_sound _ _ _ hr₂.terminated himports
  exact ⟨_, _, ts, hr₁.cons (hr₂.cons hr₃), hk, hn, hg⟩

/-- A file goes up to the end of the text. -/
theorem parseFile_sound {c c' : Cursor} {file : SourceFile} (hc : Terminated c.ahead)
    (h : parseFile c = .ok file c') :
    ∃ ts, c.Reads ts c' ∧ FileForm c.source ts file ∧ nextKind c'.ahead = .eof := by
  obtain ⟨⟨name, imports⟩, c₁, hheader, h⟩ := bind_run_eq_ok.1 h
  obtain ⟨word, n, ts, hr, hk, hn, himports⟩ := parseHeader_sound hc hheader
  obtain ⟨decls, c₂, hdecls, h⟩ := bind_run_eq_ok.1 h
  obtain ⟨rfl, rfl⟩ := pure_run_eq_ok.1 h
  have hgo : ∀ c c', Terminated c.ahead → (do return !(← atEnd) : Parser Bool) c = .ok true c' → c = c' :=
    fun c c' _ h => ((EStateM.Result.ok.injEq ..).mp h).2
  obtain ⟨us, c₃, hr', hg, hend⟩ := whileMore_sound hgo parseDecl_sound
    (fun source ts decl hg => (DeclForm.starts source ts decl hg).1) hr.terminated (Nat.le_refl _) hdecls
  obtain ⟨hb, rfl⟩ := (EStateM.Result.ok.injEq ..).mp hend
  rw [hr.source] at hg
  refine ⟨_, hr.trans hr', .mk hk hn himports hg, ?_⟩
  rw [← token_kind]
  simpa using hb

end Wireform.Source
