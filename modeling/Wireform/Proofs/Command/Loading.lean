import Mathlib
import Wireform.Command.Run
import Wireform.Proofs.Command.ImportOrder
import Wireform.Proofs.Source.Errors

/-!
# Loading finds every import

Sources are filed under the names in their headers, with the imports named there (`Filed`). When a module
is compiled, those before it in the order have been, and its imports are among them. So compiling the
sources in the order of their imports never misses one, whatever the host does on the way (`Ends`).
-/

namespace Wireform.Command

section

variable {m : Type → Type} [Monad m] {α β : Type} {P : α → Prop} {Q : β → Prop} {E : Failure → Prop}

/-- Whatever the host does, a result is as `P` says and a failure as `E` says. -/
def Ends (P : α → Prop) (E : Failure → Prop) (task : Task m α) : Prop :=
  SatisfiesM (fun r => (∀ a, r = .ok a → P a) ∧ ∀ f, r = .error f → E f) task.run

/-- The failure is not that an import is missing in a source. -/
def ImportsFound (f : Failure) : Prop := ∀ i, f.cause ≠ .source (.unknownImport i)

namespace Ends

variable [LawfulMonad m]

theorem pure {a : α} (h : P a) : Ends P E (Pure.pure a : Task m α) := by
  refine SatisfiesM.pure ⟨?_, ?_⟩
  · rintro _ ⟨⟩
    exact h
  · rintro _ ⟨⟩

theorem throw {f : Failure} (h : E f) : Ends P E (MonadExcept.throw f : Task m α) := by
  refine SatisfiesM.pure ⟨?_, ?_⟩
  · rintro _ ⟨⟩
  · rintro _ ⟨⟩
    exact h

theorem bind {task : Task m α} {next : α → Task m β} (ht : Ends P E task)
    (hn : ∀ a, P a → Ends Q E (next a)) : Ends Q E (task >>= next) := by
  unfold Ends
  rw [ExceptT.run_bind]
  refine SatisfiesM.bind ht fun r hr => ?_
  cases r with
  | ok a => exact hn a (hr.1 a rfl)
  | error f => exact throw (hr.2 f rfl)

theorem imp {P' : α → Prop} {task : Task m α} (ht : Ends P E task) (h : ∀ a, P a → P' a) :
    Ends P' E task :=
  SatisfiesM.imp ht fun hr => ⟨fun a ha => h a (hr.1 a ha), hr.2⟩

theorem lift (op : m α) : Ends (fun _ => True) E (ExceptT.lift op : Task m α) := by
  unfold Ends
  rw [ExceptT.run_lift]
  refine SatisfiesM.map (SatisfiesM.of_true fun _ => trivial) fun _ => ⟨fun _ _ => trivial, ?_⟩
  rintro _ ⟨⟩

theorem during {task : Task m α} (d : Doing) (ht : Ends P E task) (hE : ∀ f, E f → E (f.during d)) :
    Ends P E (Command.during d task) := by
  unfold Ends
  show SatisfiesM _ (task.run >>= _)
  refine SatisfiesM.bind ht fun r hr => ?_
  cases r with
  | ok a => exact pure (hr.1 a rfl)
  | error f => exact throw (hE f (hr.2 f rfl))

theorem foldlM {f : β → α → Task m β} {l : List α} (hf : ∀ b, Q b → ∀ x ∈ l, Ends Q E (f b x)) {b : β}
    (hb : Q b) : Ends Q E (l.foldlM f b) := by
  induction l generalizing b with
  | nil => exact pure hb
  | cons x l ih =>
    rw [List.foldlM_cons]
    exact (hf b hb x (by simp)).bind fun b' hb' => ih (fun b hb y hy => hf b hb y (by simp [hy])) hb'

theorem mapM {f : α → Task m β} {l : List α} (hf : ∀ x, Ends (fun _ => True) E (f x)) :
    Ends (fun _ => True) E (l.mapM f) := by
  induction l with
  | nil => exact pure trivial
  | cons x l ih =>
    rw [List.mapM_cons]
    exact (hf x).bind fun _ _ => ih.bind fun _ _ => pure trivial

end Ends

end

/-! ### Reading sources -/

/-- Sources have different names, and those and their imports are what their headers say. -/
structure Filed (sources : Sources) : Prop where
  distinct : Fields.Distinct sources
  headers : ∀ s ∈ sources, Source.header s.2.text = .ok (s.1, s.2.imports)

theorem Filed.nil : Filed [] := ⟨List.nodup_nil, by simp⟩

variable {m : Type → Type} [Monad m] [LawfulMonad m] {sources : Sources} {order : List String}

theorem importsFound_during {f : Failure} (h : ImportsFound f) (d : Doing) : ImportsFound (f.during d) := h

theorem failWith_ends {α : Type} {P : α → Prop} {cause : Cause}
    (h : ∀ i, cause ≠ .source (.unknownImport i)) : Ends P ImportsFound (failWith cause : Task m α) :=
  .throw h

theorem pathsOf_ends (h : Host m) (input : String) :
    Ends (fun _ => True) ImportsFound (pathsOf h input) := by
  unfold pathsOf
  split
  · split
    · exact failWith_ends (by simp)
    · refine (Ends.lift _).bind fun paths _ => ?_
      split
      · exact (failWith_ends (P := fun _ => True) (by simp)).bind fun _ _ => .pure trivial
      · exact .pure trivial
  · exact .pure trivial

theorem ofFile_ends {α : Type} (op : m (Except FileFault α)) :
    Ends (fun _ => True) ImportsFound (ofFile op) := by
  refine (Ends.lift op).bind fun r _ => ?_
  cases r with
  | ok a => exact .pure trivial
  | error fault => exact failWith_ends (by simp)

theorem ofSource_ends {α : Type} {x : Except SourceError α} (hx : Raises SourceError.Inside x) :
    Ends (fun a => x = .ok a) ImportsFound (ofSource x : Task m α) := by
  cases x with
  | ok a => exact .pure rfl
  | error e => exact failWith_ends fun i hi => hx e rfl i (Cause.source.inj hi)

/-- A source that is read is filed under the name in its header. -/
theorem readSource_ends (h : Host m) (hs : Filed sources) (path : String) :
    Ends Filed ImportsFound (readSource h sources path) := by
  refine (Ends.during _ (ofFile_ends _) fun f hf => importsFound_during hf _).bind fun text _ => ?_
  have hheader := (Source.runOn_raises Source.parseHeader_complains text).mono fun _ he => he.inside
  refine (Ends.during _ (ofSource_ends hheader) fun f hf => importsFound_during hf _).bind fun head hhead => ?_
  obtain ⟨name, imports⟩ := head
  dsimp only
  split
  · exact failWith_ends (by simp)
  · rename_i hnone
    refine .pure ⟨?_, ?_⟩
    · have hnew := Fields.get?_eq_none_iff.1 hnone
      show (Fields.keys (sources ++ [(name, _)])).Nodup
      rw [Fields.keys_append, Fields.keys_cons, Fields.keys_nil, ← List.concat_eq_append]
      exact hs.distinct.concat hnew
    · intro s hmem
      rcases List.mem_append.1 hmem with hmem | hmem
      · exact hs.headers s hmem
      · rw [List.mem_singleton.1 hmem]
        exact hhead

/-! ### Compiling in order -/

/-- If its imports have been compiled, a source is not refused for a missing one. -/
theorem compileSource_ends (hs : Filed sources) {modules : Fields Module} {name : String}
    (hi : ∀ i, Imports sources name i → i ∈ Fields.keys modules) :
    Ends (fun modules' => ∀ a, a = name ∨ a ∈ Fields.keys modules → a ∈ Fields.keys modules') ImportsFound
      (compileSource sources modules name : Task m (Fields Module)) := by
  unfold compileSource
  split
  · exact failWith_ends (by simp)
  · rename_i unit hg
    have hinside : Raises SourceError.Inside (Source.compile modules unit.text) := by
      rintro e he i rfl
      obtain ⟨name', imports, hheader, hmem, hnone⟩ := Source.exists_missing_of_compile he
      rw [hs.headers _ (Fields.mem_of_get? hg)] at hheader
      cases hheader
      exact Fields.get?_eq_none_iff.1 hnone (hi i ⟨unit, hg, hmem⟩)
    refine (Ends.during _ (ofSource_ends hinside) fun f hf => importsFound_during hf _).bind
      fun compiled _ => .pure ?_
    exact fun a ha => Fields.mem_keys_insert.2 ha

theorem compileAll_ends (hs : Filed sources) (ho : Ordered sources order) :
    Ends (fun modules => ∀ a ∈ order, a ∈ Fields.keys modules) ImportsFound
      (order.foldlM (compileSource sources) [] : Task m (Fields Module)) := by
  induction ho with
  | nil => exact .pure (by simp)
  | @snoc order name _ _ _ himports ih =>
    rw [List.foldlM_append]
    refine ih.bind fun modules hmodules => ?_
    rw [List.foldlM_cons]
    refine Ends.bind (compileSource_ends hs fun i hi => hmodules i (himports i hi)) fun modules' hnew => ?_
    refine .pure fun a ha => hnew a ?_
    rcases List.mem_append.1 ha with ha | ha
    · exact .inr (hmodules a ha)
    · exact .inl (List.mem_singleton.1 ha)

theorem Unordered.importsFound {f : Failure} (h : Unordered f) : ImportsFound f := by
  intro i hi
  rcases h with ⟨names, h⟩ | ⟨name, h⟩
  · rw [h] at hi
    cases hi
  · rw [h] at hi
    cases hi

theorem loadModules_ends (h : Host m) (inputs : List String) :
    Ends (fun _ => True) ImportsFound (loadModules h inputs) := by
  refine (Ends.during _ (.mapM fun input => pathsOf_ends h input) fun f hf =>
    importsFound_during hf _).bind fun paths _ => ?_
  refine (Ends.foldlM (fun sources hs path _ => readSource_ends h hs path) Filed.nil).bind fun sources hs => ?_
  cases horder : importOrder sources with
  | ok order =>
    refine Ends.bind (P := fun o => o = order) (.pure rfl) fun o ho => ?_
    subst ho
    exact (compileAll_ends hs (importOrder_adds horder).ordered).imp fun _ _ => trivial
  | error f =>
    have hfound := (importOrder_raises sources f horder).importsFound
    exact Ends.bind (P := fun _ => False) (.throw hfound) fun _ hfalse => hfalse.elim

/-! ### The whole -/

/-- Imports are put in order exactly if they can be, and every source then finds its own. -/
theorem importOrder_correct (hd : Fields.Distinct sources) :
    (∀ fuel ≥ sources.length,
      (Fields.keys sources).foldlM (visit sources fuel []) [] = importOrder sources) ∧
    ((∃ order, importOrder sources = .ok order) ↔
      (∀ a i, Imports sources a i → i ∈ Fields.keys sources) ∧
        ∀ a, ¬ Relation.TransGen (Imports sources) a a) ∧
    (∀ order, importOrder sources = .ok order →
      order.Perm (Fields.keys sources) ∧
      (∀ before a after, order = before ++ a :: after → ∀ i, Imports sources a i → i ∈ before) ∧
      ((∀ s ∈ sources, Source.header s.2.text = .ok (s.1, s.2.imports)) →
        ∀ f, Id.run (ExceptT.run (order.foldlM (compileSource sources) [])) = .error f →
          ∀ i, f.cause ≠ .source (.unknownImport i))) ∧
    (∀ (m : Type → Type) [Monad m] [LawfulMonad m] (h : Host m) (inputs : List String),
      SatisfiesM (fun r => ∀ f, r = .error f → ∀ i, f.cause ≠ .source (.unknownImport i))
        (loadModules h inputs).run) := by
  refine ⟨fun fuel hf => importOrder_of_le hf, exists_importOrder_iff, fun order h => ⟨?_, ?_, ?_⟩, ?_⟩
  · exact importOrder_perm hd h
  · intro before a after he
    exact (importOrder_adds h).ordered.mem_before he
  · intro hheaders f hf
    have hends := compileAll_ends (m := Id) ⟨hd, hheaders⟩ (importOrder_adds h).ordered
    exact (SatisfiesM_Id_eq.1 hends).2 f hf
  · intro m _ _ h inputs
    exact SatisfiesM.imp (loadModules_ends h inputs) fun hr => hr.2

/-- Two modules that import the same one and are imported by the same one, which stands first. -/
def diamond : Sources :=
  [("app", ⟨"app.shapes", "module app import left import right", ["left", "right"]⟩),
    ("left", ⟨"left.shapes", "module left import base", ["base"]⟩),
    ("right", ⟨"right.shapes", "module right import base", ["base"]⟩),
    ("base", ⟨"base.shapes", "module base alias Id = I32", []⟩)]

theorem headers_diamond :
    diamond.map (fun s => Source.header s.2.text) = diamond.map fun s => .ok (s.1, s.2.imports) := by
  cbv

theorem importOrder_diamond : importOrder diamond = .ok ["base", "left", "right", "app"] := by
  cbv

theorem importOrder_correct_diamond :
    Fields.Distinct diamond ∧ importOrder diamond = .ok ["base", "left", "right", "app"] ∧
    (∀ a, ¬ Relation.TransGen (Imports diamond) a a) ∧
    ∀ f, Id.run (ExceptT.run (["base", "left", "right", "app"].foldlM (compileSource diamond) [])) =
      .error f → ∀ i, f.cause ≠ .source (.unknownImport i) := by
  have hd : Fields.Distinct diamond := by simp [diamond, Fields.Distinct, Fields.keys]
  obtain ⟨-, hiff, horder, -⟩ := importOrder_correct hd
  obtain ⟨-, -, hcompile⟩ := horder _ importOrder_diamond
  exact ⟨hd, importOrder_diamond, (hiff.1 ⟨_, importOrder_diamond⟩).2,
    hcompile (List.map_inj_left.1 headers_diamond)⟩

end Wireform.Command
