import Mathlib
import Wireform.Proofs.Module.AliasCycle

/-!
# Drafts grow at their end

A declaration can fail when some of its names have their slots, or even their bodies. It is undone by
dropping the slots that came since, and that is all there is to undo: new names go to the end of the
slots, and only slots of new names are filled (`Extends`). Whatever calls follow on a draft, failed
ones included, its slots keep their places, their names and their bodies (`Develops`), so a reference
once resolved stays right until the module is finished and in the module.
-/

namespace Wireform

namespace Fields

variable {α : Type} {fs : Fields α} {k : String}

theorem insert_append_of_not_mem (h : k ∉ keys fs) (a : α) (gs : Fields α) :
    insert k a (fs ++ gs) = fs ++ insert k a gs := by
  induction fs with
  | nil => rfl
  | cons e fs ih =>
    rw [keys_cons, List.mem_cons, not_or] at h
    simp only [List.cons_append, insert, if_neg (Ne.symm h.1), ih h.2]

end Fields

namespace Source

/-- A declaration brings a body for each of its names. -/
theorem resolveDecl_names {d : Draft} {e : DeclExpr} {bodies : List (String × Decl)}
    (h : resolveDecl d e = .ok bodies) : (Fields.keys bodies).Perm e.names := by
  cases e with
  | sum name variants =>
    obtain ⟨resolved, hr, h⟩ := bind_eq_ok.1 h
    cases h
    have htags : resolved.map Prod.fst = variants.map Prod.fst := by
      obtain ⟨parts, rfl, rfl, hp⟩ := exists_parts_of_mapM hr
      rw [List.map_map, List.map_map]
      refine List.map_congr_left fun p hm => ?_
      obtain ⟨fields, -, hv⟩ := bind_eq_ok.1 (hp p hm)
      show p.2.1 = p.1.1
      rw [← Except.ok.inj hv]
    have hkeys : Fields.keys (resolved.mapIdx fun i v => (v.1, Decl.variant name i)) =
        resolved.map Prod.fst := by
      apply List.ext_getElem <;> simp [Fields.keys]
    rw [Fields.keys_append, hkeys, htags]
    exact List.perm_append_singleton name _
  | «alias» name t =>
    obtain ⟨ty, -, h⟩ := bind_eq_ok.1 h
    cases h
    exact List.Perm.refl _
  | struct name fields =>
    obtain ⟨fs, -, h⟩ := bind_eq_ok.1 h
    cases h
    exact List.Perm.refl _
  | table name items =>
    obtain ⟨spec, -, h⟩ := bind_eq_ok.1 h
    cases h
    exact List.Perm.refl _

end Source

namespace Draft

variable {α : Type} {d d' e e' : Draft}

/-- `e` is `d` with more slots after those that `d` has. -/
structure Extends (d e : Draft) : Prop where
  name : e.name = d.name
  imports : e.imports = d.imports
  slots : d.slots <+: e.slots

namespace Extends

theorem refl (d : Draft) : Extends d d := ⟨rfl, rfl, List.prefix_rfl⟩

theorem reserve {name : String} (h : Extends d e) (hr : e.reserve name = .ok e') : Extends d e' := by
  obtain ⟨-, rfl⟩ := reserve_eq_ok hr
  exact ⟨h.name, h.imports, h.slots.trans (List.prefix_append _ _)⟩

theorem define {name : String} {decl : Decl} (h : Extends d e) (hn : name ∉ Fields.keys d.slots)
    (hd : e.define name decl = .ok e') : Extends d e' := by
  obtain ⟨-, rfl⟩ := define_eq_ok hd
  refine ⟨h.name, h.imports, ?_⟩
  obtain ⟨more, hm⟩ := h.slots
  show d.slots <+: Fields.insert name (some decl) e.slots
  rw [← hm, Fields.insert_append_of_not_mem hn]
  exact List.prefix_append _ _

theorem rollback (h : Extends d e) : e.rollback d.slots.length = d := by
  obtain ⟨name, imports, slots⟩ := e
  obtain ⟨rfl, rfl, hs⟩ := h
  rw [Draft.rollback, ← List.prefix_iff_eq_take.1 hs]

end Extends

/-! ### Steps in place -/

/-- In place the draft becomes the result of the computation, or, where that fails, a draft that has
only more slots than `d`. -/
inductive Performs (d : Draft) : EStateM.Result SourceError Draft Unit → Except SourceError Draft → Prop
  | ok (e : Draft) : Performs d (.ok () e) (.ok e)
  | error {err : SourceError} {e : Draft} : Extends d e → Performs d (.error err e) (.error err)

theorem Performs.bind {x : Editing Unit} {y : Except SourceError Draft} {f : Unit → Editing Unit}
    {g : Draft → Except SourceError Draft} (hx : Performs d (x e) y)
    (hf : ∀ e', y = .ok e' → Performs d (f () e') (g e')) : Performs d ((x >>= f) e) (y >>= g) := by
  change Performs d (EStateM.bind x f e) _
  unfold EStateM.bind
  generalize x e = result at hx ⊢
  cases hx with
  | ok e' => exact hf e' rfl
  | error h => exact .error h

theorem editing_performs (change : Draft → Except SourceError Draft) (h : Extends d e) :
    Performs d (editing change e) (change e) := by
  rw [editing, get_bind_run]
  cases change e with
  | ok e' => exact .ok e'
  | error err => exact .error h

theorem forM_performs {change : Draft → α → Except SourceError Draft} {xs : List α}
    (hstep : ∀ x ∈ xs, ∀ e e', Extends d e → change e x = .ok e' → Extends d e') (h : Extends d e) :
    Performs d ((xs.forM fun x => editing (change · x)) e) (xs.foldlM change e) := by
  induction xs generalizing e with
  | nil => exact .ok e
  | cons x xs ih =>
    rw [List.foldlM_cons]
    refine Performs.bind (editing_performs (change · x) h) fun e' hx => ?_
    exact ih (fun y hy => hstep y (by simp [hy])) (hstep x (by simp) e e' h hx)

/-! ### Names and bodies of a declaration -/

/-- The draft with more names reserved. -/
def reserving (d : Draft) (names : List String) : Draft :=
  { d with slots := d.slots ++ names.map (·, none) }

theorem keys_reserving (d : Draft) (names : List String) :
    Fields.keys (d.reserving names).slots = Fields.keys d.slots ++ names := by
  simp [reserving, Fields.keys, Function.comp_def]

theorem Extends.reserving (d : Draft) (names : List String) : Extends d (d.reserving names) :=
  ⟨rfl, rfl, List.prefix_append _ _⟩

/-- The names can all be reserved. -/
structure Free (d : Draft) (names : List String) : Prop where
  distinct : names.Nodup
  fresh : ∀ name ∈ names, name ∉ Fields.keys d.slots
  allowed : ∀ name ∈ names, Source.checkDeclName name = .ok ()

theorem free_cons {name : String} {names : List String} :
    Free d (name :: names) ↔
      Source.checkDeclName name = .ok () ∧ name ∉ Fields.keys d.slots ∧
        Free (d.reserving [name]) names := by
  constructor
  · intro h
    obtain ⟨hn, hnd⟩ := List.nodup_cons.1 h.distinct
    obtain ⟨hf, hfs⟩ := List.forall_mem_cons.1 h.fresh
    obtain ⟨ha, has⟩ := List.forall_mem_cons.1 h.allowed
    refine ⟨ha, hf, hnd, fun k hk hm => ?_, has⟩
    rw [keys_reserving, List.mem_append, List.mem_singleton] at hm
    rcases hm with hm | rfl
    · exact hfs k hk hm
    · exact hn hk
  · rintro ⟨ha, hf, h⟩
    have hnew : ∀ k ∈ names, k ∉ Fields.keys d.slots ∧ k ≠ name := by
      intro k hk
      have := h.fresh k hk
      rwa [keys_reserving, List.mem_append, List.mem_singleton, not_or] at this
    refine ⟨List.nodup_cons.2 ⟨fun hm => (hnew name hm).2 rfl, h.distinct⟩, ?_, ?_⟩
    · exact List.forall_mem_cons.2 ⟨hf, fun k hk => (hnew k hk).1⟩
    · exact List.forall_mem_cons.2 ⟨ha, h.allowed⟩

/-- What reserving some names in a row does, and when it can be done. -/
theorem reserveAll_eq_ok {names : List String} :
    names.foldlM Source.reserveName d = .ok d' ↔ Free d names ∧ d' = d.reserving names := by
  induction names generalizing d with
  | nil =>
    have hnil : d.reserving [] = d := by simp [reserving]
    rw [hnil]
    constructor
    · rintro ⟨⟩
      exact ⟨⟨List.nodup_nil, by simp, by simp⟩, rfl⟩
    · rintro ⟨-, rfl⟩
      rfl
  | cons name names ih =>
    have hstep : (d.reserving [name]).reserving names = d.reserving (name :: names) := by
      simp [reserving]
    rw [List.foldlM_cons, bind_eq_ok, free_cons]
    constructor
    · rintro ⟨mid, hm, h⟩
      obtain ⟨⟨⟩, hc, hm⟩ := bind_eq_ok.1 hm
      obtain ⟨hn, rfl⟩ := reserve_eq_ok hm
      obtain ⟨hfree, rfl⟩ := ih.1 h
      exact ⟨⟨hc, hn, hfree⟩, hstep⟩
    · rintro ⟨⟨hc, hn, hfree⟩, rfl⟩
      refine ⟨d.reserving [name], ?_, ih.2 ⟨hfree, hstep.symm⟩⟩
      have hcontains : Fields.contains d.slots name = false := by
        rw [← Bool.not_eq_true, Fields.contains_iff]
        exact hn
      rw [Source.reserveName, hc, ok_bind, reserve, hcontains]
      rfl

/-- Declaring leaves the slots that were there alone, and appends one with its body for each name. -/
theorem exists_added {decl : Source.DeclExpr} (hr : Source.reserveNames d decl = .ok e)
    (hd : Source.defineDecl e decl = .ok d') :
    ∃ added, Fields.keys added = decl.names ∧
      d' = { d with slots := d.slots ++ added.map fun b => (b.1, some b.2) } := by
  obtain ⟨hfree, rfl⟩ := reserveAll_eq_ok.1 hr
  obtain ⟨bodies, hb, hd⟩ := bind_eq_ok.1 hd
  have hnames := Source.resolveDecl_names hb
  have hfills := fills_of_foldlM hd
  have hext : Extends d d' := by
    refine foldlM_invariant (fun e b e' hm h => ?_) (Extends.reserving d decl.names) hd
    exact h.define (hfree.fresh b.1 (hnames.subset (Fields.mem_keys_of_mem hm)))
  obtain ⟨rest, hrest⟩ := hext.slots
  have hkeys : Fields.keys rest = decl.names := by
    have hk := hfills.keys
    rwa [← hrest, keys_reserving, Fields.keys_append, List.append_cancel_left_eq] at hk
  -- every new slot has the name of a body, and that body is in it
  have hsome : ∀ s ∈ rest, s.2.isSome := by
    intro s hs
    have hname : s.1 ∈ decl.names := hkeys ▸ Fields.mem_keys_of_mem hs
    obtain ⟨body, hbody⟩ := Fields.mem_keys.1 (hnames.symm.subset hname)
    have hfilled : Fields.get? d'.slots s.1 = some (some body) :=
      (hfills.filled s.1 body).2 (.inr hbody)
    have hdist : Fields.Distinct rest := by
      unfold Fields.Distinct
      rw [hkeys]
      exact hfree.distinct
    rw [← hrest, Fields.get?_append, Fields.get?_eq_none_iff.2 (hfree.fresh s.1 hname), Option.none_or,
      hdist.get?_eq_some hs] at hfilled
    rw [Option.some.inj hfilled]
    rfl
  obtain ⟨added, hadded⟩ := exists_bodies hsome
  have hrest' := bodies_eq_ok hadded
  refine ⟨added, ?_, ?_⟩
  · rw [← hkeys, hrest']
    simp [Fields.keys]
  · obtain ⟨name, imports, slots⟩ := d'
    obtain ⟨rfl, rfl, -⟩ := hext
    rw [← hrest', hrest]

/-- A declaration is added slot by slot, and only at the end of the draft. -/
theorem adding_performs (decl : Source.DeclExpr) (d : Draft) :
    Performs d (adding decl d) (Source.reserveNames d decl >>= (Source.defineDecl · decl)) := by
  refine Performs.bind (forM_performs ?_ (.refl d)) fun e hr => ?_
  · intro name _ e e' h hr
    obtain ⟨⟨⟩, -, hr⟩ := bind_eq_ok.1 hr
    exact h.reserve hr
  obtain ⟨hfree, rfl⟩ := reserveAll_eq_ok.1 hr
  have hext := Extends.reserving d decl.names
  generalize d.reserving decl.names = e at hext ⊢
  change Performs d ((ofExcept (Source.resolveDecl e decl) >>= fun bodies =>
    bodies.forM fun body => editing (·.define body.1 body.2) : Editing Unit) e) _
  rw [Source.defineDecl]
  cases hb : Source.resolveDecl e decl with
  | error err => exact .error hext
  | ok bodies =>
    refine forM_performs (fun b hm e e' h hd => ?_) hext
    have hname := (Source.resolveDecl_names hb).subset (Fields.mem_keys_of_mem hm)
    exact h.define (hfree.fresh b.1 hname) hd

theorem undoing_apply (edit : Editing Unit) (d : Draft) :
    undoing edit d =
      match edit d with
      | .ok () e => .ok () e
      | .error err e => .error err (e.rollback d.slots.length) := by
  change EStateM.tryCatch edit _ d = _
  unfold EStateM.tryCatch
  cases edit d <;> rfl

/-- Declaring in place gives the new draft, or an error and the draft as it was. -/
theorem declaring_eq (src : String) (d : Draft) :
    declaring src d =
      match d.declare src with
      | .ok (name, d') => .ok name d'
      | .error err => .error err d := by
  rw [declare]
  cases hp : Source.runOn Source.parseSingle src with
  | error err =>
    rw [declaring, hp]
    rfl
  | ok decl =>
    have hrun : declaring src d = (undoing (adding decl) >>= fun _ => pure decl.name) d := by
      rw [declaring, hp]
      rfl
    rw [hrun]
    change EStateM.bind _ _ d = _
    rw [EStateM.bind, undoing_apply]
    have h := adding_performs decl d
    generalize adding decl d = result at h ⊢
    generalize hy : Source.reserveNames d decl >>= (Source.defineDecl · decl) = y at h
    cases h with
    | ok e =>
      obtain ⟨mid, hm, he⟩ := bind_eq_ok.1 hy
      simp only [ok_bind, hm, he]
      rfl
    | @error err e hext =>
      have hpure : (do
          let e ← Source.reserveNames d decl
          return (decl.name, ← Source.defineDecl e decl) : Except SourceError (String × Draft)) =
            .error err := by
        rw [← bind_assoc, hy]
        rfl
      simp only [ok_bind, hpure, hext.rollback]

/-! ### Calls -/

inductive Call where
  | addImport (m : Module)
  | reserve (name : String)
  | define (name : String) (decl : Decl)
  | declare (src : String)

def Call.edit : Call → Editing Unit
  | .addImport m => editing (·.addImport m)
  | .reserve name => editing (·.reserve name)
  | .define name decl => editing (·.define name decl)
  | .declare src => do let _ ← declaring src

/-- The draft that an edit leaves behind, be it made or not. -/
def left : EStateM.Result SourceError Draft α → Draft
  | .ok _ d => d
  | .error _ d => d

/-- The draft after some calls; the next one is made whether or not the last has failed. -/
def run (d : Draft) (calls : List Call) : Draft := calls.foldl (fun d call => left (call.edit d)) d

/-- Imports and names at the end do not change what is found. -/
theorem Resolves.of_prefix {r : Ref} (hi : d.imports <+: e.imports)
    (hn : Fields.keys d.slots <+: Fields.keys e.slots) (hr : d.Resolves r) : e.Resolves r := by
  refine hr.mono (fun k i hk => ?_) fun k m hm => ?_
  · obtain ⟨more, hmore⟩ := hn
    rw [Fields.index?_eq] at hk ⊢
    rw [← hmore, List.findIdx?_append, hk, Option.some_or]
  · obtain ⟨more, hmore⟩ := hi
    rw [← hmore, Fields.get?_append, hm, Option.some_or]

/-- Imports and slots of `d` are still at their places in `e`, and bodies are still there. -/
structure Develops (d e : Draft) : Prop where
  name : e.name = d.name
  imports : d.imports <+: e.imports
  names : Fields.keys d.slots <+: Fields.keys e.slots
  bodies : ∀ name decl, d.Filled name decl → e.Filled name decl

namespace Develops

theorem refl (d : Draft) : Develops d d := ⟨rfl, List.prefix_rfl, List.prefix_rfl, fun _ _ h => h⟩

theorem trans (h : Develops d e) (h' : Develops e e') : Develops d e' :=
  ⟨h'.name.trans h.name, h.imports.trans h'.imports, h.names.trans h'.names,
    fun name decl hd => h'.bodies name decl (h.bodies name decl hd)⟩

theorem addImport {m : Module} (h : d.addImport m = .ok e) : Develops d e := by
  unfold Draft.addImport at h
  split at h
  · cases h
  cases h
  exact ⟨rfl, List.prefix_append _ _, List.prefix_rfl, fun _ _ hd => hd⟩

theorem of_extends (h : Extends d e) : Develops d e := by
  obtain ⟨more, hm⟩ := h.slots
  refine ⟨h.name, h.imports ▸ List.prefix_rfl, ?_, fun name decl hd => ?_⟩
  · rw [← hm, Fields.keys_append]
    exact List.prefix_append _ _
  · unfold Filled at hd ⊢
    rw [← hm, Fields.get?_append, hd, Option.some_or]

theorem define {name : String} {decl : Decl} (h : d.define name decl = .ok e) : Develops d e := by
  have hf := fills_of_define h
  obtain ⟨-, rfl⟩ := define_eq_ok h
  exact ⟨rfl, List.prefix_rfl, hf.keys ▸ List.prefix_rfl, fun k x hk => (hf.filled k x).2 (.inl hk)⟩

theorem declare {src name : String} (h : d.declare src = .ok (name, e)) : Develops d e := by
  obtain ⟨decl, -, h⟩ := bind_eq_ok.1 h
  obtain ⟨mid, hr, h⟩ := bind_eq_ok.1 h
  obtain ⟨last, hd, h⟩ := bind_eq_ok.1 h
  cases h
  obtain ⟨added, -, rfl⟩ := exists_added hr hd
  exact of_extends ⟨rfl, rfl, List.prefix_append _ _⟩

theorem resolves {r : Ref} (h : Develops d e) (hr : d.Resolves r) : e.Resolves r :=
  hr.of_prefix h.imports h.names

end Develops

theorem left_editing_develops {change : Draft → Except SourceError Draft}
    (h : ∀ e, change d = .ok e → Develops d e) : Develops d (left (editing change d)) := by
  have hrun := editing_performs change (Extends.refl d)
  generalize editing change d = result at hrun ⊢
  generalize hy : change d = y at hrun
  cases hrun with
  | ok e => exact h e hy
  | error hext => exact .of_extends hext

theorem left_declaring_develops (src : String) (d : Draft) : Develops d (left (declaring src d)) := by
  rw [declaring_eq]
  cases h : d.declare src with
  | error err => exact .refl d
  | ok result => exact .declare h

theorem call_develops (call : Call) (d : Draft) : Develops d (left (call.edit d)) := by
  cases call with
  | addImport m => exact left_editing_develops fun e => .addImport
  | reserve name => exact left_editing_develops fun e h => .of_extends ((Extends.refl d).reserve h)
  | define name decl => exact left_editing_develops fun e => .define
  | declare src =>
    have h := left_declaring_develops src d
    change Develops d (left (EStateM.bind (declaring src) _ d))
    unfold EStateM.bind
    generalize declaring src d = result at h ⊢
    cases result <;> exact h

/-- Whatever is called on a draft, it keeps its slots. -/
theorem run_develops (calls : List Call) (d : Draft) : Develops d (d.run calls) := by
  induction calls generalizing d with
  | nil => exact .refl d
  | cons call calls ih => exact (call_develops call d).trans (ih _)

/-! ### Paths -/

theorem resolvePath_eq_ok {path : List String} {r : Ref} (h : d.resolvePath path = .ok r) :
    path = r.via.toList ++ [r.name] := by
  unfold resolvePath at h
  split at h
  · split at h <;> cases h
    rfl
  · split at h <;> cases h
    rfl
  · cases h

end Draft

namespace Module

variable {m owner : Module} {r : Ref}

theorem splitPath_plain {name : String} (h : Source.Plain name) : splitPath name = (none, name) := by
  have hdrop : name.toList.dropWhile (· != '.') = [] := by
    rw [List.dropWhile_eq_nil_iff]
    intro c hc
    simpa using fun he : c = '.' => h (he ▸ hc)
  simp only [splitPath, hdrop]

theorem splitPath_dotted {i : String} (h : Source.Plain i) (name : String) :
    splitPath (i ++ "." ++ name) = (some i, name) := by
  have hall : ∀ c ∈ i.toList, (c != '.') = true := by
    intro c hc
    simpa using fun he : c = '.' => h (he ▸ hc)
  have hcs : (i ++ "." ++ name).toList = i.toList ++ '.' :: name.toList := by simp
  have htake : (i.toList ++ '.' :: name.toList).takeWhile (· != '.') = i.toList := by
    rw [List.takeWhile_append_of_pos hall]
    simp
  have hdrop : (i.toList ++ '.' :: name.toList).dropWhile (· != '.') = '.' :: name.toList := by
    rw [List.dropWhile_append_of_pos hall]
    simp
  simp only [splitPath, hcs, htake, hdrop, String.ofList_toList]

theorem intercalate_path (r : Ref) : ".".intercalate (r.via.toList ++ [r.name]) = r.path := by
  rw [Ref.path]
  cases r.via <;> rfl

/-- The path of a reference leads back to it, if no name on it has a point. -/
theorem lookup?_of_slot (ho : m.owner? r = some owner) (hs : owner.slotOf? r.name = some r.slot)
    (hp : ∀ s ∈ r.via.toList ++ [r.name], Source.Plain s) : m.lookup? r.path = some r := by
  obtain ⟨via, name, slot⟩ := r
  cases via with
  | none =>
    obtain rfl : m = owner := Option.some.inj ho
    have hname : Source.Plain name := hp name (by simp)
    simp only [lookup?, Ref.path, splitPath_plain hname, hs, Option.map_some]
  | some i =>
    have hi : Source.Plain i := hp i (by simp)
    have ho : m.import? i = some owner := ho
    simp only [lookup?, Ref.path, splitPath_dotted hi, ho, hs, Option.map_some]

end Module

namespace Draft

/-- A declaration is added as a whole or not at all. Slots and bodies stay what they are whatever calls
follow, so a path that was resolved at some time leads to the declaration of its name in the finished
module, and looking it up there gives the same reference. -/
theorem declaring_atomic_slots_stable (d : Draft) :
    (∀ src, (∃ err, declaring src d = .error err d) ∨
      ∃ decl added, Source.runOn Source.parseSingle src = .ok decl ∧
        Fields.keys added = decl.names ∧
        declaring src d =
          .ok decl.name { d with slots := d.slots ++ added.map fun b => (b.1, some b.2) }) ∧
    (∀ calls, Develops d (d.run calls)) ∧
    ∀ path r calls m, d.resolvePath path = .ok r → (d.run calls).finish = .ok m →
      path = r.via.toList ++ [r.name] ∧ m.Resolves r ∧
        (∀ decl, r.via = none → (d.run calls).Filled r.name decl → m.resolve? r = some (m, decl)) ∧
        ((∀ s ∈ path, Source.Plain s) → m.lookup? (".".intercalate path) = some r) := by
  refine ⟨fun src => ?_, fun calls => run_develops calls d, fun path r calls m hr hm => ?_⟩
  · rw [declaring_eq]
    cases h : d.declare src with
    | error err => exact .inl ⟨err, rfl⟩
    | ok result =>
      obtain ⟨decl, hp, h⟩ := bind_eq_ok.1 h
      obtain ⟨mid, hreserve, h⟩ := bind_eq_ok.1 h
      obtain ⟨last, hdefine, h⟩ := bind_eq_ok.1 h
      cases h
      obtain ⟨added, hkeys, rfl⟩ := exists_added hreserve hdefine
      exact .inr ⟨decl, added, hp, hkeys, rfl⟩
  · have hpath := resolvePath_eq_ok hr
    have hfinished := finished_of_finish hm
    have hresolves := (run_develops calls d).resolves (resolvePath_resolves hr)
    obtain ⟨owner, ho, hs⟩ := hresolves.exists_owner hfinished
    refine ⟨hpath, Module.resolve?_of_slot ho hs, fun decl hv hd => ?_, fun hp => ?_⟩
    · obtain ⟨owner', decl', ho', hg, hres⟩ := Module.resolve?_of_slot ho hs
      rw [Module.owner?, hv, Option.some.injEq] at ho'
      subst ho'
      rw [(hfinished.filled _ _).1 hd, Option.some.injEq] at hg
      rw [hres, hg]
    · subst hpath
      rw [Module.intercalate_path]
      exact Module.lookup?_of_slot ho hs hp

/-- A draft with an import and with a name that still waits for its body. -/
def sketch : Draft := ⟨"app", [("base", ⟨"base", [], [("Id", .alias (.prim .u64))]⟩)], [("Node", none)]⟩

/-- The second tag has a field of no known type; the last name is taken. -/
def sketchCalls : List Call :=
  [.declare "sum Pick \x7b Left | Right(of :: Missing) \x7d",
    .declare "struct Pair \x7b left :: Node, right :: base.Id \x7d",
    .define "Node" (.alias (.optional (.ref ⟨some "base", "Id", 0⟩))), .reserve "Pair"]

def sketched : Module :=
  ⟨"app", sketch.imports,
    [("Node", .alias (.optional (.ref ⟨some "base", "Id", 0⟩))),
      ("Pair", .struct [("left", .ref ⟨none, "Node", 0⟩), ("right", .ref ⟨some "base", "Id", 0⟩)])]⟩

theorem declaring_atomic_slots_stable_sketch :
    (sketch.run sketchCalls).finish = .ok sketched ∧
      sketched.Resolves ⟨none, "Node", 0⟩ ∧ sketched.lookup? "Node" = some ⟨none, "Node", 0⟩ ∧
      sketched.Resolves ⟨some "base", "Id", 0⟩ := by
  have hfinish : (sketch.run sketchCalls).finish = .ok sketched := by cbv
  have hnode : sketch.resolvePath ["Node"] = .ok ⟨none, "Node", 0⟩ := rfl
  have hid : sketch.resolvePath ["base", "Id"] = .ok ⟨some "base", "Id", 0⟩ := rfl
  have hplain : ∀ s ∈ ["Node"], Source.Plain s := by
    rintro s (_ | ⟨_, ⟨⟩⟩)
    unfold Source.Plain
    decide
  obtain ⟨-, -, h⟩ := declaring_atomic_slots_stable sketch
  obtain ⟨-, hres, -, hlook⟩ := h ["Node"] _ sketchCalls sketched hnode hfinish
  obtain ⟨-, hres', -, -⟩ := h ["base", "Id"] _ sketchCalls sketched hid hfinish
  exact ⟨hfinish, hres, hlook hplain, hres'⟩

end Draft

end Wireform
