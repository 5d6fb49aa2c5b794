import Mathlib
import Wireform.Emit.Name
import Wireform.Proofs.Source.Names

/-!
# Names after escaping

A reserved word in its raw form has a mark that no declared name has. A word without a raw form gets an
underscore instead, and then it can be a name that is declared beside it: that is the only way in which
different names come to have one identifier (`Clash`).
-/

namespace Wireform.Emit

open Source (Identifier)

/-- A word without a raw form, and the name that it is escaped to. -/
def Clash (names : List String) : Prop := ∃ word ∈ pathWords, word ∈ names ∧ word ++ "_" ∈ names

theorem identifier_of_mem {word : String} (h : word ∈ pathWords) : identifier word = word ++ "_" := by
  rw [identifier, if_pos (by simpa using h)]

/-- The escaped form is left as it is. -/
theorem identifier_escaped {word : String} (h : word ∈ pathWords) : identifier (word ++ "_") = word ++ "_" := by
  revert word
  decide

/-- An identifier of a name is the name escaped, in its raw form, or as it is. -/
theorem identifier_cases (name : String) :
    (name ∈ pathWords ∧ identifier name = name ++ "_") ∨
      (name ∉ pathWords ∧ identifier name = "r#" ++ name) ∨
      (name ∉ pathWords ∧ identifier name = name) := by
  unfold identifier
  split_ifs with h₁ h₂
  · exact .inl ⟨by simpa using h₁, rfl⟩
  · exact .inr (.inl ⟨by simpa using h₁, rfl⟩)
  · exact .inr (.inr ⟨by simpa using h₁, rfl⟩)

/-- The raw form of a word is no name that can be declared, nor the escaped form of one. -/
theorem raw_ne {name other : String} (h : Identifier other) : "r#" ++ name ≠ other := by
  rintro rfl
  exact h.not_mem (by decide : Source.isIdentContinue '#' = false) (by simp)

theorem escaped_form {word : String} (h : word ∈ pathWords) : Identifier (word ++ "_") := by
  revert word
  decide

theorem identifier_eq_iff {a b : String} (ha : Identifier a) (hb : Identifier b) :
    identifier a = identifier b ↔
      a = b ∨ (a ∈ pathWords ∧ b = a ++ "_") ∨ (b ∈ pathWords ∧ a = b ++ "_") := by
  constructor
  · intro h
    rcases identifier_cases a with ⟨hpa, ea⟩ | ⟨-, ea⟩ | ⟨-, ea⟩ <;>
      rcases identifier_cases b with ⟨hpb, eb⟩ | ⟨-, eb⟩ | ⟨-, eb⟩ <;> rw [ea, eb] at h
    · exact .inl ((String.append_left_inj _).1 h)
    · exact absurd h.symm (raw_ne (escaped_form hpa))
    · exact .inr (.inl ⟨hpa, h.symm⟩)
    · exact absurd h (raw_ne (escaped_form hpb))
    · exact .inl ((String.append_right_inj _).1 h)
    · exact absurd h (raw_ne hb)
    · exact .inr (.inr ⟨hpb, h⟩)
    · exact absurd h.symm (raw_ne ha)
    · exact .inl h
  · rintro (rfl | ⟨h, rfl⟩ | ⟨h, rfl⟩)
    · rfl
    · rw [identifier_of_mem h, identifier_escaped h]
    · rw [identifier_of_mem h, identifier_escaped h]

/-- Different names have different identifiers unless they clash. -/
theorem nodup_identifiers_iff {names : List String} (hd : names.Nodup)
    (hi : ∀ name ∈ names, Identifier name) : (names.map identifier).Nodup ↔ ¬ Clash names := by
  rw [List.nodup_map_iff_inj_on hd]
  constructor
  · rintro hinj ⟨word, hw, hin, hin'⟩
    have he := hinj word hin _ hin' ((identifier_eq_iff (hi _ hin) (hi _ hin')).2 (.inr (.inl ⟨hw, rfl⟩)))
    exact absurd (String.append_eq_left_iff.1 he.symm) (by decide)
  · intro hclash a ha b hb h
    rcases (identifier_eq_iff (hi a ha) (hi b hb)).1 h with he | ⟨hw, rfl⟩ | ⟨hw, rfl⟩
    · exact he
    · exact absurd ⟨a, hw, ha, hb⟩ hclash
    · exact absurd ⟨b, hw, hb, ha⟩ hclash

end Wireform.Emit
