import Mathlib
import Wireform.Codec.Basic
import Wireform.Codec.Depth
import Wireform.Proofs.Codec.Resolution
import Wireform.Proofs.Codec.Rounds

/-!
# The depth limit only cuts off

A read that stays within its limit gives the same under every higher limit, whether it is a value or
an error. So there is one answer to a document, and from some limit on it is given; below, the limit is
reported (`decode_cut_off`). The reader itself keeps a counter that every level raises and lowers again
(`readRound`). However the read ends, the counter is back where it was, and since it cannot rise beyond
the limit, every read comes to an end.
-/

namespace Wireform.Codec

/-! ### One program and several ways to run it -/

section

variable {M : Type → Type} [Monad M] [MonadExcept CodecError M]

def readFieldsIn (read : Ty → Json → M Value) (context : String) (fields : Fields Ty) (tagged : Bool)
    (j : Json) : M (Fields Value) := do
  let props ← ofExcept (expectRecord j context tagged fields.keys)
  let values ← fields.mapM fun f => do
    return (f.1, ← read f.2 (← ofExcept (field props f.1)))
  return Fields.ofList values

def readSumIn (read : Ty → Json → M Value) (context : String) (variants : List Variant) (j : Json) :
    M Value := do
  let tag ← ofExcept (tagOf j context)
  match Fields.get? variants tag with
  | some fields => return .variant tag (← readFieldsIn read tag fields true j)
  | none => throw (.unknownTag context tag)

def readEntryIn (readKey readValue : Json → M Value) (j : Json) : M (String × Value × Value) := do
  let props ← ofExcept (expectRecord j "map entry" false ["key", "value"])
  let key ← readKey (← ofExcept (field props "key"))
  let value ← readValue (← ofExcept (field props "value"))
  return (keyIdentity (← ofExcept (encode key)), key, value)

def readDeclIn (read : Module → Ty → Json → M Value) (owner : Module) (name : String) (decl : Decl)
    (j : Json) : M Value :=
  match decl with
  | .alias t => read owner t j
  | .struct fields => return .record (← readFieldsIn (read owner) name fields false j)
  | .sum variants => readSumIn (read owner) name variants j
  | .variant parent index =>
    match owner.variant? parent index with
    | some (tag, fields) => do
      ofExcept (expectTag j parent tag)
      return .variant tag (← readFieldsIn (read owner) tag fields true j)
    | none => throw (.unknownType name)
  | .table _ => throw (.tableType name)

/-- Reads a container or a reference, as `enter` does, in any monad with errors. -/
def enterIn (read : Module → Ty → Json → M Value) (m : Module) : Ty → Json → M Value
  | .list t, .arr items => return .list (← items.mapM (read m t))
  | .object t, .obj props => return .object (← props.mapM fun p => return (p.1, ← read m t p.2))
  | .map k v, .arr items =>
    return .map (collectEntries (← items.mapM (readEntryIn (read m k) (read m v))))
  | .record fields, j =>
    return .record (← readFieldsIn (read m) (Ty.record fields).render fields false j)
  | .sum variants, j => readSumIn (read m) (Ty.sum variants).render variants j
  | .ref r, j =>
    match m.resolve? r with
    | some (owner, decl) => readDeclIn read owner r.name decl j
    | none => throw (.unknownType r.path)
  | t, j => throw (.conversion t.render j)

/-- A way to compare runs with plain results that goes through sequences of them. -/
structure Simulation (M : Type → Type) [Monad M] [MonadExcept CodecError M] where
  rel : {α : Type} → M α → Except CodecError α → Prop
  ofExcept : ∀ {α : Type} (y : Except CodecError α), rel (ofExcept y) y
  bind : ∀ {α β : Type} {x : M α} {y : Except CodecError α} {f : α → M β}
    {g : α → Except CodecError β}, rel x y → (∀ a, y = .ok a → rel (f a) (g a)) →
      rel (x >>= f) (y >>= g)

/-- The types that are read next, with the modules they are read in. -/
def callees (m : Module) (t : Ty) : List (Module × Ty) :=
  match t with
  | .ref r =>
    match m.resolve? r with
    | some (owner, decl) => (owner.typesOf decl).map fun u => (owner, u)
    | none => []
  | t => t.parts.map fun u => (m, u)

namespace Simulation

variable (S : Simulation M)

theorem pure {α : Type} (a : α) : S.rel (Pure.pure a) (.ok a) := S.ofExcept (.ok a)

theorem throw {α : Type} (e : CodecError) : S.rel (MonadExcept.throw e : M α) (.error e) :=
  S.ofExcept (.error e)

theorem readEntry {readKey readValue : Json → M Value}
    {readKey' readValue' : Json → Except CodecError Value}
    (hk : ∀ j, S.rel (readKey j) (readKey' j)) (hv : ∀ j, S.rel (readValue j) (readValue' j))
    (j : Json) : S.rel (readEntryIn readKey readValue j) (Codec.readEntry readKey' readValue' j) := by
  refine S.bind (S.ofExcept _) fun props _ => S.bind (S.ofExcept _) fun keyDoc _ => ?_
  refine S.bind (hk keyDoc) fun key _ => S.bind (S.ofExcept _) fun valueDoc _ => ?_
  refine S.bind (hv valueDoc) fun value _ => S.bind (S.ofExcept _) fun written _ => S.pure _

variable [LawfulMonad M]

theorem mapM {α β : Type} {f : α → M β} {g : α → Except CodecError β} {l : List α}
    (h : ∀ a ∈ l, S.rel (f a) (g a)) : S.rel (l.mapM f) (l.mapM g) := by
  induction l with
  | nil => exact S.pure []
  | cons a l ih =>
    rw [List.mapM_cons, List.mapM_cons]
    refine S.bind (h a List.mem_cons_self) fun b _ => ?_
    exact S.bind (ih fun a ha => h a (List.mem_cons_of_mem _ ha)) fun bs _ => S.pure _

theorem readFields {read : Ty → Json → M Value} {read' : Ty → Json → Except CodecError Value}
    {fields : Fields Ty} (h : ∀ t ∈ fields.map Prod.snd, ∀ j, S.rel (read t j) (read' t j))
    (context : String) (tagged : Bool) (j : Json) :
    S.rel (readFieldsIn read context fields tagged j) (Codec.readFields read' context fields tagged j) := by
  refine S.bind (S.ofExcept _) fun props _ => S.bind (S.mapM fun f hf => ?_) fun values _ => S.pure _
  refine S.bind (S.ofExcept _) fun doc _ => ?_
  exact S.bind (h f.2 (List.mem_map_of_mem hf) doc) fun v _ => S.pure _

theorem readSum {read : Ty → Json → M Value} {read' : Ty → Json → Except CodecError Value}
    {variants : List Variant}
    (h : ∀ t ∈ variants.flatMap fun v => v.2.map Prod.snd, ∀ j, S.rel (read t j) (read' t j))
    (context : String) (j : Json) :
    S.rel (readSumIn read context variants j) (Codec.readSum read' context variants j) := by
  refine S.bind (S.ofExcept _) fun tag _ => ?_
  cases hf : Fields.get? variants tag with
  | some fields =>
    refine S.bind (S.readFields (fun t ht => h t ?_) tag true j) fun values _ => S.pure _
    exact List.mem_flatMap.2 ⟨(tag, fields), Fields.mem_of_get? hf, ht⟩
  | none => exact S.throw _

theorem readDecl {next : Module → Ty → Json → M Value} {read : Reader} {owner : Module} {decl : Decl}
    (h : ∀ u ∈ owner.typesOf decl, ∀ j, S.rel (next owner u j) (read owner u j)) (name : String)
    (j : Json) : S.rel (readDeclIn next owner name decl j) (Codec.readDecl read owner name decl j) := by
  cases decl with
  | «alias» t => exact h t (by simp [Module.typesOf]) j
  | struct fields => exact S.bind (S.readFields h name false j) fun values _ => S.pure _
  | sum variants => exact S.readSum h name j
  | variant parent index =>
    rw [readDeclIn, Codec.readDecl]
    cases hv : owner.variant? parent index with
    | some v =>
      refine S.bind (S.ofExcept _) fun _ _ => S.bind (S.readFields ?_ v.1 true j) fun _ _ => S.pure _
      intro t ht
      exact h t (by simpa [Module.typesOf, hv] using ht)
    | none => exact S.throw _
  | table spec => exact S.throw _

theorem enter {next : Module → Ty → Json → M Value} {read : Reader} {m : Module} {t : Ty}
    (h : ∀ c ∈ callees m t, ∀ j, S.rel (next c.1 c.2 j) (read c.1 c.2 j)) (j : Json) :
    S.rel (enterIn next m t j) (Codec.enter read m t j) := by
  cases t with
  | list t =>
    cases j with
    | arr items =>
      exact S.bind (S.mapM fun j _ => h (m, t) (by simp [callees, Ty.parts]) j) fun vs _ => S.pure _
    | _ => exact S.throw _
  | object t =>
    cases j with
    | obj props =>
      refine S.bind (S.mapM fun p _ => ?_) fun vs _ => S.pure _
      exact S.bind (h (m, t) (by simp [callees, Ty.parts]) p.2) fun v _ => S.pure _
    | _ => exact S.throw _
  | map k v =>
    cases j with
    | arr items =>
      refine S.bind (S.mapM fun j _ => ?_) fun entries _ => S.pure _
      exact S.readEntry (h (m, k) (by simp [callees, Ty.parts]))
        (h (m, v) (by simp [callees, Ty.parts])) j
    | _ => exact S.throw _
  | record fields =>
    refine S.bind (S.readFields (fun u hu => h (m, u) ?_) _ false j) fun values _ => S.pure _
    exact List.mem_map_of_mem hu
  | sum variants => exact S.readSum (fun u hu => h (m, u) (List.mem_map_of_mem hu)) _ j
  | ref r =>
    rw [enterIn, Codec.enter]
    cases hr : m.resolve? r with
    | some found =>
      refine S.readDecl (fun u hu => h (found.1, u) ?_) r.name j
      simpa [callees, hr] using hu
    | none => exact S.throw _
  | prim p | optional t | annot doc t => exact S.throw _

end Simulation

end

/-! ### Under a higher limit -/

/-- Plain runs compare by being equal. -/
def Simulation.same : Simulation (Except CodecError) where
  rel x y := x = y
  ofExcept y := by cases y <;> rfl
  bind := by
    rintro α β x y f g rfl hf
    cases x with
    | error e => rfl
    | ok a => exact hf a rfl

theorem enterIn_eq (read : Reader) (m : Module) (t : Ty) (j : Json) :
    enterIn read m t j = enter read m t j :=
  Simulation.same.enter (fun _ _ _ => rfl) j

/-- A run under a higher limit gives the same, unless the lower limit is reached. -/
def Simulation.cut (limit : Nat) : Simulation (Except CodecError) where
  rel x y := y = .error (.depthLimit limit) ∨ x = y
  ofExcept y := .inr (by cases y <;> rfl)
  bind := by
    rintro α β x y f g (rfl | rfl) hf
    · exact .inl rfl
    · cases x with
      | error e => exact .inr rfl
      | ok a => exact hf a rfl

section

variable {limit limit' room room' : Nat}

theorem descend_cut {deeper deeper' : Except CodecError Reader}
    (h : ∀ m t j, (Simulation.cut limit).rel (deeper' >>= fun read => enter read m t j)
      (deeper >>= fun read => enter read m t j)) (m : Module) (t : Ty) (j : Json) :
    (Simulation.cut limit).rel (descend deeper' m t j) (descend deeper m t j) := by
  fun_induction descend deeper m t j with
  | case1 p j => exact .inr (by rw [descend])
  | case2 doc t j ih =>
    rw [descend]
    exact ih
  | case3 t => exact .inr (by rw [descend])
  | case4 t j hj ih =>
    rw [descend]
    · exact (Simulation.cut limit).bind ih fun v _ => (Simulation.cut limit).pure _
    · exact hj
  | case5 t j =>
    rw [descend]
    · exact h m t j
    all_goals assumption

theorem readWithin_cut (h : room ≤ room') (m : Module) (t : Ty) (j : Json) :
    (Simulation.cut limit).rel (readWithin limit' room' m t j) (readWithin limit room m t j) := by
  induction room generalizing room' m t j with
  | zero =>
    have hlimit : ∀ deeper : Except CodecError Reader, (Simulation.cut limit).rel
        (descend deeper m t j) (descend (.error (.depthLimit limit)) m t j) := fun deeper =>
      descend_cut (fun _ _ _ => .inl rfl) m t j
    cases room' <;> exact hlimit _
  | succ room ih =>
    obtain ⟨room', rfl⟩ := Nat.exists_eq_add_of_le' (show 1 ≤ room' by omega)
    refine descend_cut (fun m t j => ?_) m t j
    show (Simulation.cut limit).rel (enter _ m t j) (enter _ m t j)
    rw [← enterIn_eq]
    exact (Simulation.cut limit).enter (fun c _ => ih (by omega) c.1 c.2) j

/-- The limit that is reported is the one that was set. -/
theorem readWithin_ne_depthLimit {n : Nat} (hn : n ≠ limit) (m : Module) (t : Ty) (j : Json) :
    readWithin limit room m t j ≠ .error (.depthLimit n) := by
  refine @readWithin_avoids Unit (fun _ => .depthLimit n) (fun _ => trivial) limit (fun _ he => ?_)
    room m t j ?_ ()
  · exact hn (CodecError.depthLimit.inj he).symm
  · rintro ⟨_, path, he⟩
    cases he

end

/-! ### The counter -/

/-- Runs with a counter of levels. An error does not set it back. -/
abbrev Counted := EStateM CodecError Depth

/-- Runs one level deeper, and comes back up whatever the outcome. -/
def nested {α : Type} (x : Counted α) : Counted α := fun d =>
  match d.deeper with
  | .error e => .error e d
  | .ok d =>
    match x d with
    | .ok a d => .ok a { d with level := d.level - 1 }
    | .error e d => .error e { d with level := d.level - 1 }

/-- One call of the reader; the calls it makes are left to `next`. -/
def readRound (next : Module → Ty → Json → Counted Value) (m : Module) : Ty → Json → Counted Value
  | .prim p, j => ofExcept (readScalar p j)
  | .annot _ t, j => next m t j
  | .optional _, .null => pure .absent
  | .optional t, j => return .present (← next m t j)
  | t, j => nested (enterIn next m t j)

/-- The end of a run with the result, with the counter where it was. -/
def settled {α : Type} (y : Except CodecError α) (d : Depth) : EStateM.Result CodecError Depth α :=
  match y with
  | .ok a => .ok a d
  | .error e => .error e d

/-- From a given level on, the run has the result and sets the counter back. -/
def Simulation.settles (d : Depth) : Simulation Counted where
  rel x y := x d = settled y d
  ofExcept y := by cases y <;> rfl
  bind := by
    rintro α β x y f g hx hf
    show EStateM.bind x f d = _
    rw [EStateM.bind, hx]
    cases y with
    | error e => rfl
    | ok a => exact hf a rfl

theorem nested_settles {α : Type} {x : Counted α} {y : Except CodecError α} {d : Depth}
    (hd : d.level < d.limit) (h : x { d with level := d.level + 1 } =
      settled y { d with level := d.level + 1 }) : nested x d = settled y d := by
  rw [nested, Depth.deeper, if_pos hd]
  simp only [h]
  cases y <;> rfl

/-- From wherever the counter stands, the run has the result of the reader for the levels that are
left, and sets the counter back. -/
def Settles (room : Nat) (read : Module → Ty → Json → Counted Value) (m : Module) (t : Ty) : Prop :=
  ∀ j d, d.limit - d.level = room → read m t j d = settled (readWithin d.limit room m t j) d

theorem readRound_settles {room : Nat} {next : Module → Ty → Json → Counted Value} {m : Module} {t : Ty}
    (hfree : ∀ u ∈ t.parts, Settles room next m u)
    (hdeeper : ∀ c ∈ callees m t, ∀ left, left + 1 = room → Settles left next c.1 c.2) :
    Settles room (readRound next) m t := by
  intro j d hd
  fun_cases readRound next m t j with
  | case1 p j =>
    rw [readWithin_prim]
    exact (Simulation.settles d).ofExcept _
  | case2 doc t j =>
    rw [readWithin_annot]
    exact hfree t (by simp [Ty.parts]) j d hd
  | case3 t =>
    rw [readWithin_null]
    rfl
  | case4 t j hj =>
    rw [readWithin_optional _ _ _ _ hj]
    exact (Simulation.settles d).bind (hfree t (by simp [Ty.parts]) j d hd) fun v _ =>
      (Simulation.settles d).pure _
  | case5 t j hprim hannot _ hoptional =>
    have ht : isNested t = true := by
      cases t with
      | prim p => exact (hprim p rfl).elim
      | annot doc t => exact (hannot doc t rfl).elim
      | optional t => exact (hoptional t rfl).elim
      | _ => rfl
    cases room with
    | zero =>
      rw [readWithin_zero_of_nested ht, nested, Depth.deeper, if_neg (by omega)]
      rfl
    | succ left =>
      rw [readWithin_succ_of_nested ht]
      refine nested_settles (by omega) ?_
      refine (Simulation.settles _).enter (fun c hc j => hdeeper c hc left rfl j _ ?_) j
      simp only
      omega

/-- Every call comes to an end: after enough rounds, what would be done in further ones does not
matter. -/
theorem exists_readRound (room : Nat) (m : Module) (t : Ty) :
    ∃ n, ∀ k ≥ n, ∀ f, Settles room (readRound^[k] f) m t := by
  induction room using Nat.strong_induction_on generalizing m t with
  | _ room ihroom =>
    induction t using Ty.parts_induction with
    | step t ih =>
      obtain ⟨n, hfree⟩ := exists_common_bound t.parts ih
      have hdeeper : ∀ c ∈ callees m t, ∃ n, ∀ k ≥ n, ∀ f, ∀ left, left + 1 = room →
          Settles left (readRound^[k] f) c.1 c.2 := by
        intro c _
        cases room with
        | zero => exact ⟨0, fun k _ f left hleft => absurd hleft (Nat.succ_ne_zero left)⟩
        | succ room =>
          obtain ⟨n, hn⟩ := ihroom room (Nat.lt_succ_self room) c.1 c.2
          refine ⟨n, fun k hk f left hleft => ?_⟩
          rw [Nat.succ.inj hleft]
          exact hn k hk f
      obtain ⟨n', hdeeper⟩ := exists_common_bound (callees m t) hdeeper
      refine ⟨max n n' + 1, fun k hk f => ?_⟩
      obtain ⟨k, rfl⟩ := Nat.exists_eq_add_of_le' (show 1 ≤ k by omega)
      rw [Function.iterate_succ_apply']
      exact readRound_settles (fun u hu => hfree k (by omega) u hu f)
        (fun c hc => hdeeper k (by omega) c hc f)

/-! ### The threshold -/

/-- A read that does not reach its limit gives the same under every higher one. So either every limit is
reached, or from some limit on there is one answer. The read that counts its levels ends for every
module, with this answer and with its counter where it was. -/
theorem decode_cut_off (m : Module) (t : Ty) (j : Json) :
    (∀ limit limit', limit ≤ limit' →
      (⟨m, limit⟩ : Codec).decode t j ≠ .error (.depthLimit limit) →
      (⟨m, limit'⟩ : Codec).decode t j = (⟨m, limit⟩ : Codec).decode t j) ∧
    ((∀ limit, (⟨m, limit⟩ : Codec).decode t j = .error (.depthLimit limit)) ∨
      ∃ threshold answer, (∀ n, answer ≠ .error (.depthLimit n)) ∧
        (∀ limit < threshold, (⟨m, limit⟩ : Codec).decode t j = .error (.depthLimit limit)) ∧
        ∀ limit ≥ threshold, (⟨m, limit⟩ : Codec).decode t j = answer) ∧
    ∀ d : Depth, ∃ n, ∀ k ≥ n, ∀ f, (readRound^[k] f) m t j d =
      settled (readWithin d.limit (d.limit - d.level) m t j) d := by
  have hcut : ∀ limit limit', limit ≤ limit' →
      (⟨m, limit⟩ : Codec).decode t j ≠ .error (.depthLimit limit) →
      (⟨m, limit'⟩ : Codec).decode t j = (⟨m, limit⟩ : Codec).decode t j := by
    intro limit limit' hle hne
    exact (readWithin_cut hle m t j).resolve_left hne
  refine ⟨hcut, ?_, fun d => ?_⟩
  · by_cases hall : ∀ limit, (⟨m, limit⟩ : Codec).decode t j = .error (.depthLimit limit)
    · exact .inl hall
    · classical
      have hsome := not_forall.1 hall
      have hleast := Nat.find_spec hsome
      refine .inr ⟨Nat.find hsome, (⟨m, Nat.find hsome⟩ : Codec).decode t j, fun n => ?_,
        fun limit hlt => not_not.1 (Nat.find_min hsome hlt), fun limit hge => hcut _ _ hge hleast⟩
      by_cases hn : n = Nat.find hsome
      · rw [hn]
        exact hleast
      · exact readWithin_ne_depthLimit hn m t j
  · obtain ⟨n, hn⟩ := exists_readRound (d.limit - d.level) m t
    exact ⟨n, fun k hk f => hn k hk f j d rfl⟩

/-- An alias that is an option of itself: only `null` has an end. -/
def endless : Module := ⟨"endless", [], [("A", .alias (.optional (.ref ⟨none, "A", 0⟩)))]⟩

theorem endless_built : endless.Built := by
  refine @Module.Built.compile [] "module endless alias A = Optional(A)" _ (by simp) ?_
  cbv

theorem readWithin_endless (limit room : Nat) {j : Json} (hj : j ≠ .null) :
    readWithin limit room endless (.ref ⟨none, "A", 0⟩) j = .error (.depthLimit limit) := by
  induction room with
  | zero => rfl
  | succ room ih =>
    show readWithin limit room endless (.optional (.ref ⟨none, "A", 0⟩)) j = _
    rw [readWithin_optional _ _ _ _ hj, ih]
    rfl

/-- Every limit is reached at the endless alias; two levels are enough for a list of lists. -/
theorem decode_cut_off_endless :
    endless.Built ∧
    (∀ limit, (⟨endless, limit⟩ : Codec).decode (.ref ⟨none, "A", 0⟩) (.bool true) =
      .error (.depthLimit limit)) ∧
    (⟨endless, 1⟩ : Codec).decode (.list (.list (.prim .boolean))) (.arr [.arr [.bool true]]) =
      .error (.depthLimit 1) ∧
    ∀ limit ≥ 2, (⟨endless, limit⟩ : Codec).decode (.list (.list (.prim .boolean)))
      (.arr [.arr [.bool true]]) = .ok (.list [.list [.bool true]]) := by
  obtain ⟨hcut, -, -⟩ := decode_cut_off endless (.list (.list (.prim .boolean)))
    (.arr [.arr [.bool true]])
  have htwo : (⟨endless, 2⟩ : Codec).decode (.list (.list (.prim .boolean)))
      (.arr [.arr [.bool true]]) = .ok (.list [.list [.bool true]]) := rfl
  refine ⟨endless_built, fun limit => readWithin_endless limit limit (by simp), rfl, ?_⟩
  intro limit hle
  rw [hcut 2 limit hle (by rw [htwo]; simp), htwo]

end Wireform.Codec
