import Mathlib

/-!
# One after the other

Reading and writing go through lists and stop at the first error. A run over a list that succeeds is
a list of `parts`, each of them an argument with its result, so that the statement about the whole
run and the statements about its steps speak of the same list.
-/

namespace Wireform

variable {α β γ ε : Type}

theorem bind_eq_ok {x : Except ε α} {f : α → Except ε β} {b : β} :
    x >>= f = .ok b ↔ ∃ a, x = .ok a ∧ f a = .ok b := by
  cases x with
  | error e => simp [bind, Except.bind]
  | ok a => simp [bind, Except.bind]

@[simp] theorem ok_bind (a : α) (f : α → Except ε β) : Except.ok a >>= f = f a := rfl

@[simp] theorem error_bind (e : ε) (f : α → Except ε β) : Except.error e >>= f = .error e := rfl

@[simp] theorem pure_eq_ok (a : α) : (pure a : Except ε α) = .ok a := rfl

@[simp] theorem throw_eq_error (e : ε) : (throw e : Except ε α) = .error e := rfl

/-! ### Runs with a state -/

section

variable {σ : Type} {s s' : σ}

theorem bind_run_eq_ok {x : EStateM ε σ α} {f : α → EStateM ε σ β} {b : β} :
    (x >>= f) s = .ok b s' ↔ ∃ a t, x s = .ok a t ∧ f a t = .ok b s' := by
  change EStateM.bind x f s = _ ↔ _
  unfold EStateM.bind
  cases x s with
  | ok a t => simp
  | error e t => simp

theorem get_bind_run (f : σ → EStateM ε σ β) (s : σ) : (get >>= f) s = f s s := rfl

theorem pure_run_eq_ok {a b : α} : (pure a : EStateM ε σ α) s = .ok b s' ↔ a = b ∧ s = s' :=
  (EStateM.Result.ok.injEq a s b s').to_iff

theorem bind_run_of_ok {x : EStateM ε σ α} {a : α} (h : x s = .ok a s') (f : α → EStateM ε σ β) :
    (x >>= f) s = f a s' := by
  change EStateM.bind x f s = _
  rw [EStateM.bind, h]

theorem bind_run_of_error {x : EStateM ε σ α} {e : ε} (h : x s = .error e s') (f : α → EStateM ε σ β) :
    (x >>= f) s = .error e s' := by
  change EStateM.bind x f s = _
  rw [EStateM.bind, h]

end

/-! ### Runs over a list -/

/-- Every argument has a result, so there is a list of arguments with their results. -/
theorem exists_parts {R : α → β → Prop} {l : List α} (h : ∀ x ∈ l, ∃ y, R x y) :
    ∃ parts : List (α × β), parts.map Prod.fst = l ∧ ∀ p ∈ parts, R p.1 p.2 := by
  induction l with
  | nil => exact ⟨[], rfl, by simp⟩
  | cons x l ih =>
    obtain ⟨y, hy⟩ := h x (by simp)
    obtain ⟨parts, rfl, hp⟩ := ih fun x hx => h x (by simp [hx])
    refine ⟨(x, y) :: parts, rfl, fun p hp' => ?_⟩
    rcases List.mem_cons.1 hp' with rfl | hp'
    · exact hy
    · exact hp p hp'

theorem mapM_eq_ok_of_forall {f : α → Except ε β} {g : α → β} {l : List α}
    (h : ∀ x ∈ l, f x = .ok (g x)) : l.mapM f = .ok (l.map g) := by
  induction l with
  | nil => rfl
  | cons x l ih =>
    rw [List.mapM_cons, h x (by simp), ih fun x hx => h x (by simp [hx])]
    rfl

theorem exists_parts_of_mapM {f : α → Except ε β} {l : List α} {ys : List β}
    (h : l.mapM f = .ok ys) :
    ∃ parts : List (α × β), l = parts.map Prod.fst ∧ ys = parts.map Prod.snd ∧
      ∀ p ∈ parts, f p.1 = .ok p.2 := by
  induction l generalizing ys with
  | nil =>
    simp only [List.mapM_nil, pure_eq_ok, Except.ok.injEq] at h
    exact ⟨[], rfl, h.symm, by simp⟩
  | cons x l ih =>
    rw [List.mapM_cons, bind_eq_ok] at h
    obtain ⟨y, hy, h⟩ := h
    obtain ⟨zs, hzs, h⟩ := bind_eq_ok.1 h
    obtain ⟨parts, rfl, rfl, hp⟩ := ih hzs
    refine ⟨(x, y) :: parts, rfl, (Except.ok.inj h).symm, fun p hp' => ?_⟩
    rcases List.mem_cons.1 hp' with rfl | hp'
    · exact hy
    · exact hp p hp'

/-- If `e` is the only error a step can end with, the run ends with it, or all its steps succeed. -/
theorem mapM_error_or {f : α → Except ε γ} {R : α → β → Prop} {e : ε} {l : List α}
    (h : ∀ x ∈ l, f x = .error e ∨ ∃ z y, f x = .ok z ∧ R x y) :
    l.mapM f = .error e ∨ ∃ parts : List (α × β), parts.map Prod.fst = l ∧
      ∀ p ∈ parts, R p.1 p.2 := by
  by_cases hok : ∀ x ∈ l, ∃ y, R x y
  · exact .inr (exists_parts hok)
  left
  induction l with
  | nil => exact absurd (by simp) hok
  | cons x l ih =>
    rw [List.mapM_cons]
    rcases h x (by simp) with hx | ⟨z, y, hx, hR⟩
    · rw [hx, error_bind]
    · have hl : ¬ ∀ x ∈ l, ∃ y, R x y := fun hl => hok (List.forall_mem_cons.2 ⟨⟨y, hR⟩, hl⟩)
      rw [hx, ok_bind, ih (fun x hx => h x (by simp [hx])) hl, error_bind]

theorem mapM_congr {f g : α → Except ε β} {l : List α} (h : ∀ x ∈ l, f x = g x) :
    l.mapM f = l.mapM g := by
  induction l with
  | nil => rfl
  | cons x l ih => rw [List.mapM_cons, List.mapM_cons, h x (by simp), ih fun x hx => h x (by simp [hx])]

theorem mapM_map (f : β → Except ε γ) (g : α → β) (l : List α) :
    (l.map g).mapM f = l.mapM fun x => f (g x) := by
  induction l with
  | nil => rfl
  | cons x l ih => rw [List.map_cons, List.mapM_cons, List.mapM_cons, ih]

theorem exists_mapM_eq_ok {f : α → Except ε β} {l : List α} (h : ∀ x ∈ l, ∃ y, f x = .ok y) :
    ∃ ys, l.mapM f = .ok ys := by
  obtain ⟨parts, rfl, hp⟩ := exists_parts h
  rw [mapM_map]
  exact ⟨_, mapM_eq_ok_of_forall hp⟩

theorem mapM_error_or_ok {f : α → Except ε β} {e : ε} {l : List α}
    (h : ∀ x ∈ l, f x = .error e ∨ ∃ y, f x = .ok y) :
    l.mapM f = .error e ∨ ∃ ys, l.mapM f = .ok ys := by
  have hstep : ∀ x ∈ l, f x = .error e ∨ ∃ z y, f x = .ok z ∧ f x = .ok y := by
    intro x hx
    refine (h x hx).imp_right ?_
    rintro ⟨y, hy⟩
    exact ⟨y, y, hy, hy⟩
  refine (mapM_error_or hstep).imp_right ?_
  rintro ⟨parts, rfl, hp⟩
  exact exists_mapM_eq_ok (List.forall_mem_map.2 fun p hm => ⟨p.2, hp p hm⟩)

/-- A run succeeds if the step at each position does. -/
theorem mapM_eq_ok_iff {f : α → Except ε β} {l : List α} {ys : List β} :
    l.mapM f = .ok ys ↔
      ys.length = l.length ∧ ∀ (i : Nat) x y, l[i]? = some x → ys[i]? = some y → f x = .ok y := by
  constructor
  · intro h
    obtain ⟨parts, rfl, rfl, hp⟩ := exists_parts_of_mapM h
    refine ⟨by simp, fun i x y hx hy => ?_⟩
    rw [List.getElem?_map, Option.map_eq_some_iff] at hx hy
    obtain ⟨p, hi, rfl⟩ := hx
    obtain ⟨q, hi', rfl⟩ := hy
    rw [hi, Option.some.injEq] at hi'
    exact hi' ▸ hp p (List.mem_of_getElem? hi)
  · rintro ⟨hl, h⟩
    have hzip : l = (l.zip ys).map Prod.fst := (List.map_fst_zip hl.ge).symm
    rw [hzip, mapM_map, mapM_eq_ok_of_forall (g := Prod.snd) fun p hp => ?_, List.map_snd_zip hl.le]
    obtain ⟨i, hi⟩ := List.mem_iff_getElem?.1 hp
    obtain ⟨hx, hy⟩ := List.getElem?_zip_eq_some.1 hi
    exact h i p.1 p.2 hx hy

/-- What succeeds with `f` succeeds with `g` in the same way. -/
theorem mapM_mono {f g : α → Except ε β} {l : List α} {ys : List β}
    (h : ∀ x ∈ l, ∀ y, f x = .ok y → g x = .ok y) (hl : l.mapM f = .ok ys) : l.mapM g = .ok ys := by
  obtain ⟨parts, rfl, rfl, hp⟩ := exists_parts_of_mapM hl
  rw [mapM_map]
  exact mapM_eq_ok_of_forall fun p hm => h p.1 (List.mem_map_of_mem hm) p.2 (hp p hm)

/-- Lists with the same images have the same image at each position. -/
theorem eq_of_mem_zip {f : α → γ} {g : β → γ} {l : List α} {l' : List β} (h : l.map f = l'.map g)
    {p : α × β} (hp : p ∈ l.zip l') : f p.1 = g p.2 := by
  induction l generalizing l' with
  | nil => simp at hp
  | cons a l ih =>
    cases l' with
    | nil => simp at hp
    | cons b l' =>
      rw [List.map_cons, List.map_cons, List.cons.injEq] at h
      rw [List.zip_cons_cons, List.mem_cons] at hp
      rcases hp with rfl | hp
      · exact h.1
      · exact ih h.2 hp

theorem map_eq_map_of_getElem? {f : α → γ} {g : β → γ} {l : List α} {l' : List β}
    (hl : l.length = l'.length)
    (h : ∀ (i : Nat) x y, l[i]? = some x → l'[i]? = some y → f x = g y) : l.map f = l'.map g := by
  refine List.ext_getElem (by simp [hl]) fun i hi hi' => ?_
  rw [List.length_map] at hi hi'
  rw [List.getElem_map, List.getElem_map]
  exact h i _ _ (List.getElem?_eq_getElem hi) (List.getElem?_eq_getElem hi')

/-- What every step of a run keeps, the whole run keeps. -/
theorem foldlM_invariant {f : β → α → Except ε β} {l : List α} {P : β → Prop} {b b' : β}
    (hstep : ∀ b x b', x ∈ l → P b → f b x = .ok b' → P b') (hb : P b)
    (h : l.foldlM f b = .ok b') : P b' := by
  induction l generalizing b with
  | nil =>
    cases h
    exact hb
  | cons x l ih =>
    rw [List.foldlM_cons] at h
    obtain ⟨mid, hm, h⟩ := bind_eq_ok.1 h
    exact ih (fun b y b' hy => hstep b y b' (by simp [hy])) (hstep b x mid (by simp) hb hm) h

theorem exists_foldlM_eq_ok {f : β → α → Except ε β} {l : List α}
    (h : ∀ b, ∀ x ∈ l, ∃ b', f b x = .ok b') (b : β) : ∃ b', l.foldlM f b = .ok b' := by
  induction l generalizing b with
  | nil => exact ⟨b, rfl⟩
  | cons x l ih =>
    obtain ⟨mid, hm⟩ := h b x (by simp)
    obtain ⟨b', hb⟩ := ih (fun b y hy => h b y (by simp [hy])) mid
    exact ⟨b', by rw [List.foldlM_cons, hm, ok_bind, hb]⟩

/-! ### Reasons to fail -/

/-- If it fails, then for a reason in `P`. -/
def Raises (P : ε → Prop) (x : Except ε α) : Prop := ∀ e, x = .error e → P e

namespace Raises

variable {P Q : ε → Prop}

theorem ok (a : α) : Raises P (.ok a) := by
  rintro e ⟨⟩

theorem error {e : ε} (h : P e) : Raises P (.error e : Except ε α) := by
  rintro _ ⟨⟩
  exact h

theorem bind {x : Except ε α} {f : α → Except ε β} (hx : Raises P x) (hf : ∀ a, Raises P (f a)) :
    Raises P (x >>= f) := by
  cases x with
  | error e => exact .error (hx e rfl)
  | ok a => exact hf a

theorem mono {x : Except ε α} (h : ∀ e, P e → Q e) (hx : Raises P x) : Raises Q x :=
  fun e he => h e (hx e he)

theorem ite {b : Prop} [Decidable b] {x y : Except ε α} (hx : Raises P x) (hy : Raises P y) :
    Raises P (if b then x else y) := by
  split
  · exact hx
  · exact hy

theorem foldlM {f : β → α → Except ε β} {l : List α} (h : ∀ b, ∀ x ∈ l, Raises P (f b x)) (b : β) :
    Raises P (l.foldlM f b) := by
  induction l generalizing b with
  | nil => exact .ok b
  | cons x l ih =>
    rw [List.foldlM_cons]
    exact (h b x (by simp)).bind fun b' => ih (fun b y hy => h b y (by simp [hy])) b'

theorem mapM {f : α → Except ε β} {l : List α} (h : ∀ x ∈ l, Raises P (f x)) : Raises P (l.mapM f) := by
  induction l with
  | nil => exact .ok []
  | cons x l ih =>
    rw [List.mapM_cons]
    exact (h x (by simp)).bind fun y => (ih fun x hx => h x (by simp [hx])).bind fun ys => .ok _

end Raises

end Wireform
