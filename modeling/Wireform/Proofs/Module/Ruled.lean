import Mathlib
import Wireform.Proofs.Module.Built

/-!
# Declarations against any imports

What a module declares follows rules of its own, whatever the modules are that it imports: its names are
different identifiers, its bodies are spelled as a source spells them, and tags and sums belong together.
Drafts keep the same rules on the way.
-/

namespace Wireform

/-- The rules for names that are declared and for the bodies that some of them have. -/
structure Ruled (names : List String) (body : String → Decl → Prop) : Prop where
  distinct : names.Nodup
  identifiers : ∀ name ∈ names, Source.Identifier name
  spelled : ∀ name decl, body name decl → decl.Spelled fun _ => True
  tags : ∀ name variants, body name (.sum variants) →
    ∀ i v, variants[i]? = some v → body v.1 (.variant name i)
  parents : ∀ tag parent index, body tag (.variant parent index) →
    ∃ variants fields, body parent (.sum variants) ∧ variants[index]? = some (tag, fields)

namespace Ruled

variable {names : List String} {body body' : String → Decl → Prop}

theorem congr (h : Ruled names body) (hb : ∀ k x, body' k x ↔ body k x) : Ruled names body' := by
  obtain rfl : body' = body := funext fun k => funext fun x => propext (hb k x)
  exact h

theorem concat {name : String} (h : Ruled names body) (hi : Source.Identifier name) (hn : name ∉ names) :
    Ruled (names ++ [name]) body where
  distinct := List.nodup_append.2 ⟨h.distinct, List.nodup_singleton _, fun a ha b hb he =>
    hn (List.mem_singleton.1 hb ▸ he ▸ ha)⟩
  identifiers := List.forall_mem_append.2 ⟨h.identifiers, by simpa using hi⟩
  spelled := h.spelled
  tags := h.tags
  parents := h.parents

/-- The bodies that one declaration brings have their tags and their sums among themselves. -/
theorem add {refs : Ref → Prop} {bodies : List (String × Decl)} (h : Ruled names body)
    (hb : Draft.Bodies refs bodies) : Ruled names fun k x => body k x ∨ (k, x) ∈ bodies where
  distinct := h.distinct
  identifiers := h.identifiers
  spelled k x hk := by
    rcases hk with hk | hk
    · exact h.spelled k x hk
    · exact (hb.spelled _ hk).mono fun _ _ => trivial
  tags k vs hk i v hv := hk.imp (fun hk => h.tags k vs hk i v hv) fun hk => hb.tags k vs hk i v hv
  parents tag parent index hk := by
    rcases hk with hk | hk
    · obtain ⟨variants, fields, hp, hv⟩ := h.parents tag parent index hk
      exact ⟨variants, fields, .inl hp, hv⟩
    · obtain ⟨variants, fields, hp, hv⟩ := hb.parents tag parent index hk
      exact ⟨variants, fields, .inr hp, hv⟩

end Ruled

theorem Draft.ruled_keeps : Keeps (fun d => Ruled (Fields.keys d.slots) d.Filled) fun _ => True where
  new name := ⟨List.nodup_nil, by simp [new], by simp [new, Filled], by simp [new, Filled], by simp [new, Filled]⟩
  addImport d d' m h _ ha := by
    unfold Draft.addImport at ha
    split at ha
    · cases ha
    cases ha
    exact h
  reserve d d' name h hi hr := by
    refine Ruled.congr ?_ (filled_reserve hr)
    obtain ⟨hn, rfl⟩ := reserve_eq_ok hr
    rw [Fields.keys_append]
    exact h.concat hi hn
  fill d d' bodies h hb hf := by
    rw [hf.keys]
    exact (h.add hb).congr hf.filled
  finish _ _ _ _ := trivial

/-- The rules for the declarations of a module. -/
abbrev Module.Ruled (m : Module) : Prop :=
  Wireform.Ruled (Fields.keys m.decls) fun name decl => m.get? name = some decl

/-- Every source that compiles keeps the rules. -/
theorem ruled_of_compile {available : Fields Module} {src : String} {m : Module}
    (h : Source.compile available src = .ok m) : m.Ruled := by
  obtain ⟨d, hd, hf⟩ := Draft.ruled_keeps.exists_finished (fun _ _ => trivial) h
  have hf := Draft.finished_of_finish hf
  rw [Module.Ruled, hf.keys]
  exact hd.congr fun k x => (hf.filled k x).symm

end Wireform
