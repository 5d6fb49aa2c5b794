import Mathlib
import Wireform.Proofs.Source.Declaring
import Wireform.Proofs.Source.Scope

/-!
# Names first, bodies later

A declaration is resolved when it has its slots, and bodies go only into slots. So it does not matter when the
other slots are filled, or that slots are appended later: in the end every name stands in its place with its
body (`Files`). A whole file is compiled in this way, and so are declarations one by one.
-/

namespace Wireform

namespace Fields

variable {α : Type}

/-- A slot for each name, with what `f` says. -/
theorem get?_tabulate (names : List String) (f : String → α) (k : String) :
    get? (names.map fun n => (n, f n)) k = if k ∈ names then some (f k) else none := by
  induction names with
  | nil => rfl
  | cons n names ih =>
    rw [List.map_cons, get?_cons, ih]
    by_cases h : n = k
    · simp [h]
    · simp [Ne.symm h]

theorem keys_tabulate (names : List String) (f : String → α) : keys (names.map fun n => (n, f n)) = names := by
  simp [keys, Function.comp_def]

end Fields

namespace Draft

variable {d d' : Draft} {ρ : Ref → Ref}

theorem resolvePath_of_resolves {r : Ref} (h : d.Resolves r) :
    d.resolvePath (r.via.toList ++ [r.name]) = .ok r := by
  obtain ⟨via, name, slot⟩ := r
  cases via with
  | none =>
    have h : Fields.index? d.slots name = some slot := h
    simp [resolvePath, h]
  | some i =>
    obtain ⟨m, hm, hs⟩ := h
    simp [resolvePath, hm, hs]

theorem Sees.of_resolves (hρ : Ref.Renumbers ρ) (h : ∀ r, d.Resolves r → d'.Resolves (ρ r)) : d.Sees ρ d' := by
  intro path r hr
  rw [resolvePath_eq_ok hr, ← hρ.via, ← hρ.name]
  exact resolvePath_of_resolves (h r (resolvePath_resolves hr))

/-- More names at the end of the slots do not change what is found. -/
theorem Sees.of_names (hi : d'.imports = d.imports) (hn : Fields.keys d.slots <+: Fields.keys d'.slots) :
    d.Sees id d' :=
  .of_resolves .id fun _ hr => hr.of_prefix (hi ▸ List.prefix_rfl) hn

/-! ### Filing -/

/-- The draft with more names, each with its body if there is one. -/
def filing (d : Draft) (names : List String) (bodies : Fields Decl) : Draft :=
  { d with slots := d.slots ++ names.map fun n => (n, bodies.get? n) }

theorem keys_filing (d : Draft) (names : List String) (bodies : Fields Decl) :
    Fields.keys (d.filing names bodies).slots = Fields.keys d.slots ++ names := by
  rw [filing, Fields.keys_append, Fields.keys_tabulate]

variable {names : List String} {done : Fields Decl}

theorem filing_filing {names' : List String} {bodies : Fields Decl} (h : ∀ n ∈ names, n ∈ Fields.keys done)
    (h' : ∀ n ∈ names', n ∉ Fields.keys done) :
    (d.filing names done).filing names' bodies = d.filing (names ++ names') (done ++ bodies) := by
  have hold : ∀ n ∈ names, (n, Fields.get? done n) = (n, Fields.get? (done ++ bodies) n) := by
    intro n hn
    obtain ⟨x, hx⟩ := Fields.exists_get?_of_mem_keys (h n hn)
    rw [Fields.get?_append, hx, Option.some_or]
  have hnew : ∀ n ∈ names', (n, Fields.get? bodies n) = (n, Fields.get? (done ++ bodies) n) := by
    intro n hn
    rw [Fields.get?_append, Fields.get?_eq_none_iff.2 (h' n hn), Option.none_or]
  simp only [filing, List.map_append, List.append_assoc, List.map_congr_left hold, List.map_congr_left hnew]

theorem define_filing {k : String} (hfree : Free d names) (hk : k ∈ names) (hnew : k ∉ Fields.keys done)
    (x : Decl) : (d.filing names done).define k x = .ok (d.filing names (done ++ [(k, x)])) := by
  have hold : k ∉ Fields.keys d.slots := hfree.fresh k hk
  have hslot : Fields.get? (d.filing names done).slots k = some none := by
    rw [filing, Fields.get?_append, Fields.get?_eq_none_iff.2 hold, Option.none_or, Fields.get?_tabulate,
      if_pos hk, Fields.get?_eq_none_iff.2 hnew]
  have hinsert : Fields.insert k (some x) (names.map fun n => (n, done.get? n)) =
      names.map fun n => (n, Fields.get? (done ++ [(k, x)]) n) := by
    have hkeys : Fields.keys (Fields.insert k (some x) (names.map fun n => (n, done.get? n))) = names := by
      rw [Fields.keys_insert, Fields.keys_tabulate, if_pos hk]
    refine Fields.eq_of_keys_eq ?_ ?_ fun n hn => ?_
    · rw [hkeys, Fields.keys_tabulate]
    · unfold Fields.Distinct
      rw [hkeys]
      exact hfree.distinct
    · rw [hkeys] at hn
      rw [Fields.get?_insert, Fields.get?_tabulate, Fields.get?_tabulate, if_pos hn, if_pos hn,
        Fields.get?_append, Fields.get?_cons]
      by_cases hnk : n = k
      · subst hnk
        simp [Fields.get?_eq_none_iff.2 hnew]
      · simp [hnk]
  rw [define, hslot]
  simp only [filing, Fields.insert_append_of_not_mem hold, hinsert]

theorem defineAll_filing {bodies : Fields Decl} (hfree : Free d names)
    (hsub : ∀ k ∈ Fields.keys bodies, k ∈ names) (hnew : (Fields.keys done ++ Fields.keys bodies).Nodup) :
    bodies.foldlM (fun d b => d.define b.1 b.2) (d.filing names done) = .ok (d.filing names (done ++ bodies)) := by
  induction bodies generalizing done with
  | nil => rw [List.append_nil]; rfl
  | cons b bodies ih =>
    obtain ⟨hk, hsub⟩ := List.forall_mem_cons.1 hsub
    have hb : b.1 ∉ Fields.keys done := fun hm => (List.nodup_append.1 hnew).2.2 _ hm _ (by simp) rfl
    rw [List.foldlM_cons, define_filing hfree hk hb, ok_bind, ih hsub, List.append_assoc]
    · rfl
    · simpa [Fields.keys_append] using hnew

/-- A declaration whose names are reserved is resolved by the names alone. -/
theorem defineDecl_filing {e : Source.DeclExpr} (hfree : Free d names) (hsub : ∀ n ∈ e.names, n ∈ names)
    (hnew : (Fields.keys done ++ e.names).Nodup) :
    Source.defineDecl (d.filing names done) e = .ok d' ↔
      ∃ bodies, Source.resolveDecl (d.reserving names) e = .ok bodies ∧ d' = d.filing names (done ++ bodies) := by
  have hkeys : Fields.keys (d.filing names done).slots = Fields.keys (d.reserving names).slots := by
    rw [keys_filing, keys_reserving]
  have hdown : (d.filing names done).Sees id (d.reserving names) := .of_names rfl (hkeys ▸ List.prefix_rfl)
  have hup : (d.reserving names).Sees id (d.filing names done) := .of_names rfl (hkeys ▸ List.prefix_rfl)
  have hfill : ∀ bodies, Source.resolveDecl (d.reserving names) e = .ok bodies →
      bodies.foldlM (fun d b => d.define b.1 b.2) (d.filing names done) =
        .ok (d.filing names (done ++ bodies)) := by
    intro bodies hb
    have hp := Source.resolveDecl_names hb
    exact defineAll_filing hfree (fun k hk => hsub k (hp.subset hk)) ((hp.append_left _).nodup_iff.2 hnew)
  constructor
  · intro h
    obtain ⟨bodies, hb, h⟩ := bind_eq_ok.1 h
    have hb := Source.resolveDecl_same hdown (.refl e) hb
    refine ⟨bodies, hb, ?_⟩
    rw [hfill bodies hb] at h
    exact (Except.ok.inj h).symm
  · rintro ⟨bodies, hb, rfl⟩
    rw [Source.defineDecl, Source.resolveDecl_same hup (.refl e) hb, ok_bind, hfill bodies hb]

end Draft

namespace Source

/-- Declarations with the bodies they bring. -/
abbrev Parts := List (DeclExpr × Fields Decl)

def Parts.names (parts : Parts) : List String := parts.flatMap fun p => p.1.names

def Parts.bodies (parts : Parts) : Fields Decl := parts.flatMap Prod.snd

/-- All names of the declarations can be reserved in `d`, these are the bodies that they have then, and `d'` is
what comes of it. -/
structure Files (d : Draft) (parts : Parts) (d' : Draft) : Prop where
  free : Draft.Free d parts.names
  resolve : ∀ p ∈ parts, resolveDecl (d.reserving parts.names) p.1 = .ok p.2
  draft : d' = d.filing parts.names parts.bodies

variable {d d' : Draft}

theorem resolveDecl_bodies_names {parts : Parts} (h : ∀ p ∈ parts, resolveDecl d p.1 = .ok p.2) :
    (Fields.keys parts.bodies).Perm parts.names := by
  induction parts with
  | nil => exact .nil
  | cons p parts ih =>
    obtain ⟨hp, h⟩ := List.forall_mem_cons.1 h
    rw [Parts.bodies, List.flatMap_cons, Fields.keys_append]
    exact (resolveDecl_names hp).append (ih h)

/-! ### All at once -/

theorem reserveDecls_eq_ok {es : List DeclExpr} :
    es.foldlM reserveNames d = .ok d' ↔
      d.Free (es.flatMap DeclExpr.names) ∧ d' = d.reserving (es.flatMap DeclExpr.names) := by
  rw [← Draft.reserveAll_eq_ok]
  suffices h : es.foldlM reserveNames d = (es.flatMap DeclExpr.names).foldlM reserveName d by rw [h]
  induction es generalizing d with
  | nil => rfl
  | cons e es ih =>
    rw [List.foldlM_cons, List.flatMap_cons, List.foldlM_append]
    exact bind_congr fun d => ih

theorem defineDecls_eq_ok {names : List String} {done : Fields Decl} {es : List DeclExpr}
    (hfree : d.Free names) (hsub : ∀ n ∈ es.flatMap DeclExpr.names, n ∈ names)
    (hnew : (Fields.keys done ++ es.flatMap DeclExpr.names).Nodup) :
    es.foldlM defineDecl (d.filing names done) = .ok d' ↔
      ∃ parts : Parts, parts.map Prod.fst = es ∧
        (∀ p ∈ parts, resolveDecl (d.reserving names) p.1 = .ok p.2) ∧
          d' = d.filing names (done ++ parts.bodies) := by
  induction es generalizing done with
  | nil =>
    constructor
    · rintro ⟨⟩
      exact ⟨[], rfl, by simp, by simp [Parts.bodies]⟩
    · rintro ⟨parts, hp, -, rfl⟩
      obtain rfl := List.map_eq_nil_iff.1 hp
      simp [Parts.bodies]
  | cons e es ih =>
    rw [List.flatMap_cons] at hsub hnew
    obtain ⟨he, hes⟩ := List.forall_mem_append.1 hsub
    have hfirst : (Fields.keys done ++ e.names).Nodup := by
      rw [← List.append_assoc] at hnew
      exact (List.nodup_append.1 hnew).1
    have hrest : ∀ bodies, resolveDecl (d.reserving names) e = .ok bodies →
        (Fields.keys (done ++ bodies) ++ es.flatMap DeclExpr.names).Nodup := by
      intro bodies hb
      rw [Fields.keys_append, List.append_assoc]
      exact (((resolveDecl_names hb).append_right _).append_left _).nodup_iff.2 hnew
    rw [List.foldlM_cons, bind_eq_ok]
    constructor
    · rintro ⟨mid, hm, h⟩
      obtain ⟨bodies, hb, rfl⟩ := (Draft.defineDecl_filing hfree he hfirst).1 hm
      obtain ⟨parts, rfl, hp, rfl⟩ := (ih hes (hrest bodies hb)).1 h
      exact ⟨(e, bodies) :: parts, rfl, List.forall_mem_cons.2 ⟨hb, hp⟩, by simp [Parts.bodies]⟩
    · rintro ⟨parts, hp, hr, rfl⟩
      obtain ⟨p, parts, rfl, rfl, rfl⟩ := List.map_eq_cons_iff.1 hp
      obtain ⟨hb, hr⟩ := List.forall_mem_cons.1 hr
      refine ⟨_, (Draft.defineDecl_filing hfree he hfirst).2 ⟨p.2, hb, rfl⟩, ?_⟩
      exact (ih hes (hrest p.2 hb)).2 ⟨parts, rfl, hr, by simp [Parts.bodies]⟩

theorem files_iff {es : List DeclExpr} :
    (∃ mid, es.foldlM reserveNames d = .ok mid ∧ es.foldlM defineDecl mid = .ok d') ↔
      ∃ parts : Parts, parts.map Prod.fst = es ∧ Files d parts d' := by
  have hdefine : d.Free (es.flatMap DeclExpr.names) → _ := fun hfree =>
    @defineDecls_eq_ok d d' _ [] es hfree (fun _ hn => hn) hfree.distinct
  have hnames : ∀ parts : Parts, parts.map Prod.fst = es → parts.names = es.flatMap DeclExpr.names := by
    rintro parts rfl
    rw [List.flatMap_map, Parts.names]
  constructor
  · rintro ⟨mid, hr, hf⟩
    obtain ⟨hfree, rfl⟩ := reserveDecls_eq_ok.1 hr
    obtain ⟨parts, hp, hres, rfl⟩ := (hdefine hfree).1 hf
    rw [← hnames parts hp] at hfree hres ⊢
    exact ⟨parts, hp, hfree, hres, rfl⟩
  · rintro ⟨parts, hp, hfree, hres, hd⟩
    rw [hnames parts hp] at hfree hres hd
    exact ⟨_, reserveDecls_eq_ok.2 ⟨hfree, rfl⟩, (hdefine hfree).2 ⟨parts, hp, hres, hd⟩⟩

/-- A file is compiled by filing its declarations. -/
theorem compileFile_eq_ok {available : Fields Module} {file : SourceFile} {m : Module} :
    compileFile available file = .ok m ↔
      ∃ d parts d', file.imports.foldlM (importInto available) (Draft.new file.name) = .ok d ∧
        parts.map Prod.fst = file.decls ∧ Files d parts d' ∧ d'.finish = .ok m := by
  constructor
  · intro h
    obtain ⟨d, hd, h⟩ := bind_eq_ok.1 h
    obtain ⟨mid, hr, h⟩ := bind_eq_ok.1 h
    obtain ⟨d', hf, h⟩ := bind_eq_ok.1 h
    obtain ⟨parts, hp, hfiles⟩ := files_iff.1 ⟨mid, hr, hf⟩
    exact ⟨d, parts, d', hd, hp, hfiles, h⟩
  · rintro ⟨d, parts, d', hd, hp, hfiles, h⟩
    obtain ⟨mid, hr, hf⟩ := files_iff.2 ⟨parts, hp, hfiles⟩
    rw [compileFile, hd, ok_bind, hr, ok_bind, hf, ok_bind, h]

/-! ### One by one -/

theorem Files.nil (d : Draft) : Files d [] d where
  free := ⟨List.nodup_nil, by simp [Parts.names], by simp [Parts.names]⟩
  resolve := by simp
  draft := by simp [Draft.filing, Parts.names]

/-- What is filed later neither moves nor hides what was filed before. -/
theorem Files.cons {mid : Draft} {p : DeclExpr × Fields Decl} {parts : Parts} (h : Files d [p] mid)
    (h' : Files mid parts d') : Files d (p :: parts) d' := by
  obtain ⟨hfree, hres, rfl⟩ := h
  obtain ⟨hfree', hres', rfl⟩ := h'
  have hnames : Parts.names [p] = p.1.names := by simp [Parts.names]
  have hbodies : Parts.bodies [p] = p.2 := by simp [Parts.bodies]
  rw [List.forall_mem_singleton] at hres
  rw [hnames, hbodies] at hfree' hres' ⊢
  rw [hnames] at hfree hres
  have hnew : ∀ n ∈ parts.names, n ∉ Fields.keys d.slots ∧ n ∉ p.1.names := by
    intro n hn
    have := hfree'.fresh n hn
    rwa [Draft.keys_filing, List.mem_append, not_or] at this
  have hkeys := resolveDecl_names hres
  have hsees : (d.reserving p.1.names).Sees id (d.reserving (p.1.names ++ parts.names)) := by
    refine .of_names rfl ?_
    rw [Draft.keys_reserving, Draft.keys_reserving, ← List.append_assoc]
    exact List.prefix_append _ _
  have hsees' : ((d.filing p.1.names p.2).reserving parts.names).Sees id
      (d.reserving (p.1.names ++ parts.names)) := by
    refine .of_names rfl ?_
    rw [Draft.keys_reserving, Draft.keys_reserving, Draft.keys_filing, ← List.append_assoc]
  refine ⟨⟨?_, ?_, ?_⟩, List.forall_mem_cons.2 ⟨?_, fun q hq => ?_⟩, ?_⟩
  · exact List.nodup_append.2 ⟨hfree.distinct, hfree'.distinct, fun a ha b hb he => (hnew b hb).2 (he ▸ ha)⟩
  · exact List.forall_mem_append.2 ⟨hfree.fresh, fun n hn => (hnew n hn).1⟩
  · exact List.forall_mem_append.2 ⟨hfree.allowed, hfree'.allowed⟩
  · exact resolveDecl_same hsees (.refl p.1) hres
  · exact resolveDecl_same hsees' (.refl q.1) (hres' q hq)
  · exact Draft.filing_filing (fun n hn => hkeys.symm.subset hn) fun n hn hm => (hnew n hn).2 (hkeys.subset hm)

theorem declareAll_files {sources : List String}
    (h : sources.foldlM (fun d src => return (← d.declare src).2) d = .ok d') :
    ∃ parts, List.Forall₂ (fun src p => runOn parseSingle src = .ok p.1) sources parts ∧ Files d parts d' := by
  induction sources generalizing d with
  | nil =>
    cases h
    exact ⟨[], .nil, .nil _⟩
  | cons src sources ih =>
    rw [List.foldlM_cons] at h
    obtain ⟨mid, hm, h⟩ := bind_eq_ok.1 h
    obtain ⟨⟨name, e⟩, hdecl, hm⟩ := bind_eq_ok.1 hm
    cases hm
    obtain ⟨decl, hparse, hdecl⟩ := bind_eq_ok.1 hdecl
    obtain ⟨reserved, hr, hdecl⟩ := bind_eq_ok.1 hdecl
    obtain ⟨filled, hf, hdecl⟩ := bind_eq_ok.1 hdecl
    cases hdecl
    obtain ⟨parts, hp, hfiles⟩ := (@files_iff d e [decl]).1 ⟨reserved, by simp [hr], by simp [hf]⟩
    obtain ⟨p, parts, rfl, rfl, hnil⟩ := List.map_eq_cons_iff.1 hp
    obtain rfl := List.map_eq_nil_iff.1 hnil
    obtain ⟨rest, hforall, hrest⟩ := ih h
    exact ⟨p :: rest, .cons hparse hforall, hfiles.cons hrest⟩

end Source

end Wireform
