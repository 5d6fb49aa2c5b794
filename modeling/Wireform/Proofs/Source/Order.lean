import Mathlib
import Wireform.Proofs.Codec.Renumbering
import Wireform.Proofs.Source.Filing
import Wireform.Proofs.Source.Lines

/-!
# The order of declarations

All names of a file are reserved before any body is resolved, so a declaration finds the same names wherever it
stands in the file. With the declarations in another order the file has the same names and the same bodies;
only slots are numbered differently (`compile_reordered`).
-/

namespace Wireform

theorem Fields.get?_perm {α : Type} {fs gs : Fields α} (h : fs.Perm gs) (hd : Fields.Distinct fs) (k : String) :
    fs.get? k = gs.get? k := by
  have hd' : Fields.Distinct gs := (h.map Prod.fst).nodup_iff.1 hd
  ext a
  rw [hd.get?_eq_some_iff, hd'.get?_eq_some_iff, h.mem_iff]

namespace Draft

variable {decls decls' : Fields Decl} {ρ : Ref → Ref}

theorem aliasCycle?_eq_none_iff (hd : Fields.Distinct decls) :
    aliasCycle? decls = none ↔
      ∀ name t, decls.get? name = some (.alias t) → aliasesOutlast decls decls.length t = false := by
  rw [aliasCycle?, Option.map_eq_none_iff, List.find?_eq_none]
  constructor
  · intro h name t ht
    simpa using h _ (Fields.mem_of_get? ht)
  · rintro h ⟨name, decl⟩ hm
    cases decl with
    | «alias» t => simpa using h name t (hd.get?_eq_some hm)
    | _ => simp

/-- Aliases that come to an end do so with other slots too. -/
theorem aliasCycle?_rebuild (hd : Fields.Distinct decls) (hd' : Fields.Distinct decls')
    (hl : decls'.length = decls.length) (hρ : Ref.Renumbers ρ)
    (hget : ∀ name, decls'.get? name = (decls.get? name).map (Decl.rebuild .annot ρ))
    (h : aliasCycle? decls = none) : aliasCycle? decls' = none := by
  rw [aliasCycle?_eq_none_iff hd] at h
  rw [aliasCycle?_eq_none_iff hd']
  intro name t ht
  rw [hget, Option.map_eq_some_iff] at ht
  obtain ⟨decl, hdecl, ht⟩ := ht
  cases decl with
  | «alias» s =>
    cases ht
    have hstrip : ∀ doc t, (Ty.annot doc t).stripAnnot = t.stripAnnot := fun _ _ => rfl
    rw [hl, aliasesOutlast_rebuild hstrip hρ hget]
    exact h name s hdecl
  | _ => cases ht

end Draft

namespace Source

variable {d d' : Draft} {parts : Parts}

/-- Without slots from before the filed names are all there is. -/
theorem Files.exists_decls (h : Files d parts d') (hs : d.slots = []) :
    ∃ decls : Fields Decl, decls.keys = parts.names ∧ (∀ n, decls.get? n = parts.bodies.get? n) ∧
      ∀ m, d'.finish = .ok m ↔ Draft.aliasCycle? decls = none ∧ m = ⟨d.name, d.imports, decls⟩ := by
  obtain ⟨hfree, hres, rfl⟩ := h
  have hkeys := resolveDecl_bodies_names hres
  have hslots : (d.filing parts.names parts.bodies).slots = parts.names.map fun n => (n, parts.bodies.get? n) := by
    rw [Draft.filing, hs, List.nil_append]
  have hsome : ∀ s ∈ (d.filing parts.names parts.bodies).slots, s.2.isSome := by
    rw [hslots]
    refine List.forall_mem_map.2 fun n hn => ?_
    obtain ⟨x, hx⟩ := Fields.exists_get?_of_mem_keys (hkeys.symm.subset hn)
    rw [hx]
    rfl
  obtain ⟨decls, hb⟩ := Draft.exists_bodies hsome
  have hdecls := Draft.bodies_eq_ok hb
  rw [hslots] at hdecls
  refine ⟨decls, ?_, fun n => ?_, fun m => ?_⟩
  · have := congrArg Fields.keys hdecls
    rw [Fields.keys_tabulate] at this
    simpa [Fields.keys, Function.comp_def] using this.symm
  · have := congrArg (Fields.get? · n) hdecls
    simp only [Fields.get?_tabulate, Fields.get?_map fun e => some e.2] at this
    split at this
    · cases hn : decls.get? n with
      | none => rw [hn] at this; cases this
      | some x =>
        rw [hn] at this
        exact (Option.some.inj this).symm
    · rename_i hn
      have hnone : parts.bodies.get? n = none := Fields.get?_eq_none_iff.2 fun hm => hn (hkeys.subset hm)
      rw [hnone]
      exact Option.map_eq_none_iff.1 this.symm
  · rw [Draft.finish, hb, ok_bind]
    cases Draft.aliasCycle? decls with
    | some name => simp
    | none =>
      simp only [Except.ok.injEq, true_and]
      exact eq_comm

theorem foldlM_importInto_slots {available : Fields Module} {imports : List String}
    (h : imports.foldlM (importInto available) d = .ok d') : d'.slots = d.slots := by
  refine foldlM_invariant (P := fun e => e.slots = d.slots) (fun e i e' _ he hi => ?_) rfl h
  unfold importInto at hi
  split at hi
  · unfold Draft.addImport at hi
    split at hi
    · cases hi
    · cases hi
      exact he
  · cases hi

/-- References to names find them at their new places. -/
theorem sees_reserving {names names' : List String} (hs : d.slots = []) (hp : names'.Perm names) :
    (d.reserving names).Sees (Ref.renumber (moveSlot names names')) (d.reserving names') := by
  have hkeys : ∀ names, Fields.keys (d.reserving names).slots = names := by
    intro names
    rw [Draft.keys_reserving, hs]
    rfl
  refine .of_resolves (Ref.renumber_renumbers _) fun r hr => ?_
  cases hv : r.via with
  | none =>
    rw [Ref.renumber_of_local _ hv]
    simp only [Draft.Resolves, hv, Fields.index?_eq, hkeys] at hr ⊢
    rw [findIdx?_moveSlot hp, hr, Option.map_some]
  | some i =>
    rw [Ref.renumber_of_via _ hv]
    simp only [Draft.Resolves, hv] at hr ⊢
    exact hr

/-- In another order the declarations can be filed as well, and their bodies refer to the new slots. -/
theorem Files.reorder {parts' : Parts} {decls : List DeclExpr} (h : Files d parts d') (hs : d.slots = [])
    (hp : parts'.Perm parts) (hl : List.Forall₂ DeclExpr.Like (parts'.map Prod.fst) decls) :
    ∃ (again : Parts) (d'' : Draft), again.map Prod.fst = decls ∧ Files d again d'' ∧
      again.names.Perm parts.names ∧ ∀ n, again.bodies.get? n =
        (parts.bodies.get? n).map (Decl.rebuild .annot (Ref.renumber (moveSlot parts.names again.names))) := by
  rw [List.forall₂_map_left_iff] at hl
  obtain ⟨pairs, rfl, rfl, hlike⟩ := exists_pairs hl
  obtain ⟨hfree, hres, rfl⟩ := h
  have hnames : (Parts.names (pairs.map Prod.fst)).Perm parts.names := hp.flatMap_right _
  have hbodies : (Parts.bodies (pairs.map Prod.fst)).Perm parts.bodies := hp.flatMap_right _
  have hdistinct : Fields.Distinct (Parts.bodies (pairs.map Prod.fst)) := by
    refine (hbodies.map Prod.fst).nodup_iff.2 ?_
    exact (resolveDecl_bodies_names hres).nodup_iff.2 hfree.distinct
  generalize hρ : Ref.renumber (moveSlot parts.names (Parts.names (pairs.map Prod.fst))) = ρ
  have hsees := sees_reserving hs hnames
  rw [hρ] at hsees
  let again : Parts := pairs.map fun q => (q.2, q.1.2.mapVal (Decl.rebuild .annot ρ))
  have hagain : again.names = Parts.names (pairs.map Prod.fst) := by
    simp only [again, Parts.names, List.flatMap_map]
    exact List.flatMap_congr fun q hq => (hlike q hq).names
  have hagain' : again.bodies = (Parts.bodies (pairs.map Prod.fst)).mapVal (Decl.rebuild .annot ρ) := by
    simp only [again, Parts.bodies, List.flatMap_map, Fields.mapVal, List.map_flatMap]
  refine ⟨again, _, by simp [again, Function.comp_def], ⟨?_, ?_, rfl⟩, ?_, fun n => ?_⟩
  · rw [hagain]
    exact ⟨hnames.nodup_iff.2 hfree.distinct, fun n hn => hfree.fresh n (hnames.subset hn),
      fun n hn => hfree.allowed n (hnames.subset hn)⟩
  · rw [hagain]
    refine List.forall_mem_map.2 fun q hq => ?_
    exact resolveDecl_like hsees (hlike q hq) (hres q.1 (hp.subset (List.mem_map_of_mem hq)))
  · rw [hagain]
    exact hnames
  · rw [hagain, hρ, hagain', Fields.get?_mapVal, Fields.get?_perm hbodies hdistinct]

/-- A module finished from declarations in another order has other slots and is otherwise the same. -/
theorem Files.finish_reorder {again : Parts} {d'' : Draft} {m : Module} (h : Files d parts d')
    (hs : d.slots = []) (hm : d'.finish = .ok m) (h' : Files d again d'')
    (hnames : again.names.Perm parts.names)
    (hget : ∀ n, again.bodies.get? n =
      (parts.bodies.get? n).map (Decl.rebuild .annot (Ref.renumber (moveSlot parts.names again.names)))) :
    ∃ m' σ, d''.finish = .ok m' ∧ m.Renumbered σ m' := by
  obtain ⟨decls, hkeys, hdecls, hfinish⟩ := h.exists_decls hs
  obtain ⟨decls', hkeys', hdecls', hfinish'⟩ := h'.exists_decls hs
  obtain ⟨halias, rfl⟩ := (hfinish m).1 hm
  have hd : Fields.Distinct decls := by
    rw [Fields.Distinct, hkeys]
    exact h.free.distinct
  have hd' : Fields.Distinct decls' := by
    rw [Fields.Distinct, hkeys']
    exact h'.free.distinct
  have hsame : ∀ n, decls'.get? n =
      (decls.get? n).map (Decl.rebuild .annot (Ref.renumber (moveSlot parts.names again.names))) := by
    intro n
    rw [hdecls', hdecls, hget]
  have hperm : decls'.keys.Perm decls.keys := by rwa [hkeys, hkeys']
  have hlength : decls'.length = decls.length := by simpa [Fields.keys] using hperm.length_eq
  have halias' := Draft.aliasCycle?_rebuild hd hd' hlength (Ref.renumber_renumbers _) hsame halias
  refine ⟨⟨d.name, d.imports, decls'⟩, moveSlot parts.names again.names, (hfinish' _).2 ⟨halias', rfl⟩, ?_⟩
  exact .of_get rfl rfl hd hperm (by rw [hkeys, hkeys']) hsame

/-! ### Texts -/

/-- Two texts with the same header and the same declarations, these perhaps in another order. Blanks, line breaks
and comments may be anywhere. -/
def Reordered (src src' : String) : Prop :=
  ∃ name imports pieces pieces', Pieces src name imports pieces ∧ Pieces src' name imports pieces' ∧
    pieces'.Perm pieces

theorem Reordered.symm {src src' : String} (h : Reordered src src') : Reordered src' src := by
  obtain ⟨name, imports, pieces, pieces', hp, hp', hperm⟩ := h
  exact ⟨name, imports, pieces', pieces, hp', hp, hperm.symm⟩

/-- What can be put into another order is what can be read as a file. -/
theorem reordered_self_iff {src : String} : Reordered src src ↔ ∃ file, runOn parseFile src = .ok file := by
  constructor
  · rintro ⟨name, imports, pieces, -, hp, -⟩
    obtain ⟨spelled, rfl, hspelled⟩ := exists_parts hp.spelled
    obtain ⟨decls, hfile, -⟩ := parseFile_of_lexes hp.lexes (forall₂_parts hspelled)
    exact ⟨_, hfile⟩
  · rintro ⟨file, hfile⟩
    obtain ⟨pieces, hp⟩ := exists_pieces hfile
    exact ⟨file.name, file.imports, pieces, pieces, hp, hp, .refl pieces⟩

/-- Texts of declarations below a header can be put into any order. -/
theorem reordered_of_lines {header name : String} {imports : List String} {texts texts' : List String}
    (hheader : Lexes header (headerKinds name imports))
    (htexts : ∀ text ∈ texts, ∃ decl, runOn parseSingle text = .ok decl) (hp : texts'.Perm texts) :
    Reordered ("\n".intercalate (header :: texts)) ("\n".intercalate (header :: texts')) := by
  have hpiece : ∀ text ∈ texts, ∃ ks, Lexes text ks ∧ ∃ decl, Spells ks decl := by
    intro text ht
    obtain ⟨decl, hdecl⟩ := htexts text ht
    obtain ⟨ks, hlex, hspells⟩ := exists_spells hdecl
    exact ⟨ks, hlex, decl, hspells⟩
  have hpieces : ∀ (texts : List String) (pieces : List (List TokenKind)),
      List.Forall₂ (fun text ks => Lexes text ks ∧ ∃ decl, Spells ks decl) texts pieces →
        Pieces ("\n".intercalate (header :: texts)) name imports pieces := by
    intro texts pieces h
    refine ⟨Lexes.lines (.cons hheader (h.imp fun _ _ hb => hb.1)) (by simp), fun ks hks => ?_⟩
    obtain ⟨pairs, rfl, rfl, hpairs⟩ := exists_pairs h
    obtain ⟨p, hm, rfl⟩ := List.mem_map.1 hks
    exact (hpairs p hm).2
  obtain ⟨parts, rfl, hparts⟩ := exists_parts hpiece
  have h : List.Forall₂ (fun text ks => Lexes text ks ∧ ∃ decl, Spells ks decl) (parts.map Prod.fst)
      (parts.map Prod.snd) := forall₂_parts hparts
  obtain ⟨pieces', h', hperm⟩ := List.perm_comp_forall₂ hp h
  exact ⟨name, imports, _, pieces', hpieces _ _ h, hpieces _ _ h', hperm⟩

theorem Reordered.exists_compile {available : Fields Module} {src src' : String} {m : Module}
    (h : Reordered src src') (hm : compile available src = .ok m) :
    ∃ m' σ, compile available src' = .ok m' ∧ m.Renumbered σ m' := by
  obtain ⟨name, imports, pieces, pieces', hp, hp', hperm⟩ := h
  obtain ⟨spelled, rfl, hspelled⟩ := exists_parts hp.spelled
  obtain ⟨decls, hfile, hspells, -⟩ := parseFile_of_lexes hp.lexes (forall₂_parts hspelled)
  rw [compile, hfile, ok_bind] at hm
  obtain ⟨d, parts, d', hd, rfl, hfiles, hfinish⟩ := compileFile_eq_ok.1 hm
  rw [List.forall₂_map_right_iff] at hspells
  obtain ⟨parts', hspells', hparts⟩ := List.perm_comp_forall₂ hperm hspells
  obtain ⟨decls', hfile', -, hl⟩ := parseFile_of_lexes hp'.lexes (List.forall₂_map_right_iff.2 hspells')
  have hs : d.slots = [] := foldlM_importInto_slots hd
  obtain ⟨again, d'', hagain, hfiles', hnames, hget⟩ := hfiles.reorder hs hparts hl
  obtain ⟨m', σ, hfinish', hrenumbered⟩ := hfiles.finish_reorder hs hfinish hfiles' hnames hget
  refine ⟨m', σ, ?_, hrenumbered⟩
  rw [compile, hfile', ok_bind]
  exact compileFile_eq_ok.2 ⟨d, again, d'', hd, hagain, hfiles', hfinish'⟩

/-- The order of declarations decides on the numbers of slots and on nothing else. -/
theorem compile_reordered {available : Fields Module} {src src' : String} (h : Reordered src src') :
    ((∃ m, compile available src = .ok m) ↔ ∃ m', compile available src' = .ok m') ∧
    ∀ m m', compile available src = .ok m → compile available src' = .ok m' →
      (∃ σ, m.Renumbered σ m') ∧ ∀ depth path,
        (∀ j, (Codec.mk m' depth).decodeNamed path j = (Codec.mk m depth).decodeNamed path j) ∧
        (∀ v, (do (Codec.mk m' depth).encodeAs (← (Codec.mk m' depth).named path) v) =
          do (Codec.mk m depth).encodeAs (← (Codec.mk m depth).named path) v) ∧
        ∀ a b, (do return (Codec.mk m' depth).equals (← (Codec.mk m' depth).named path) a b) =
          (do return (Codec.mk m depth).equals (← (Codec.mk m depth).named path) a b) := by
  refine ⟨⟨?_, ?_⟩, fun m m' hm hm' => ?_⟩
  · rintro ⟨m, hm⟩
    obtain ⟨m', -, hm', -⟩ := h.exists_compile hm
    exact ⟨m', hm'⟩
  · rintro ⟨m', hm'⟩
    obtain ⟨m, -, hm, -⟩ := h.symm.exists_compile hm'
    exact ⟨m, hm⟩
  · obtain ⟨m₁, σ, hm₁, hσ⟩ := h.exists_compile hm
    rw [hm', Except.ok.injEq] at hm₁
    subst hm₁
    exact ⟨⟨σ, hσ⟩, fun depth path => Codec.agree_of_renumbered hσ depth path⟩

/-- Two declarations that need each other. -/
def forestTexts : List String :=
  ["sum Tree \x7b Leaf | Fork(kids :: Forest) \x7d", "alias Forest = List(Tree) # trees"]

def forest : Module where
  name := "forest"
  imports := []
  decls := [("Tree", .sum [("Leaf", []), ("Fork", [("kids", .ref ⟨none, "Forest", 3⟩)])]),
    ("Leaf", .variant "Tree" 0), ("Fork", .variant "Tree" 1),
    ("Forest", .alias (.list (.ref ⟨none, "Tree", 0⟩)))]

/-- The same with the other declaration first. -/
def forestReversed : Module where
  name := "forest"
  imports := []
  decls := [("Forest", .alias (.list (.ref ⟨none, "Tree", 1⟩))),
    ("Tree", .sum [("Leaf", []), ("Fork", [("kids", .ref ⟨none, "Forest", 0⟩)])]),
    ("Leaf", .variant "Tree" 0), ("Fork", .variant "Tree" 1)]

set_option maxRecDepth 4000 in
theorem compile_forest : compile [] ("\n".intercalate ("module forest" :: forestTexts)) = .ok forest := by cbv

set_option maxRecDepth 4000 in
theorem compile_forestReversed :
    compile [] ("\n".intercalate ("module forest" :: forestTexts.reverse)) = .ok forestReversed := by cbv

theorem compile_reordered_forest :
    compile [] ("\n".intercalate ("module forest" :: forestTexts)) = .ok forest ∧
      compile [] ("\n".intercalate ("module forest" :: forestTexts.reverse)) = .ok forestReversed ∧
      (∃ σ, forest.Renumbered σ forestReversed) ∧ ∀ depth j,
        (Codec.mk forestReversed depth).decodeNamed "Tree" j = (Codec.mk forest depth).decodeNamed "Tree" j := by
  have hheader : Lexes "module forest" (headerKinds "forest" []) := by
    simpa [headerKinds] using @Lexes.words "module" "forest" (by decide) (by decide)
  have htexts : ∀ text ∈ forestTexts, ∃ decl, runOn parseSingle text = .ok decl := by
    have hok : forestTexts.all (fun text => (runOn parseSingle text).isOk) = true := by cbv
    intro text ht
    have := List.all_eq_true.1 hok text ht
    cases hdecl : runOn parseSingle text with
    | ok decl => exact ⟨decl, rfl⟩
    | error e => simp [hdecl, Except.isOk, Except.toBool] at this
  have h := reordered_of_lines hheader htexts (List.reverse_perm forestTexts)
  obtain ⟨hσ, hsame⟩ := (compile_reordered h).2 forest forestReversed compile_forest compile_forestReversed
  exact ⟨compile_forest, compile_forestReversed, hσ, fun depth j => (hsame depth "Tree").1 j⟩

end Source

end Wireform
