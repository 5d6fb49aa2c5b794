import Mathlib
import Wireform.Proofs.Codec.Reads
import Wireform.Proofs.Text.Quoted

/-!
# The names of an object

An object is checked by counting: it has as many properties as there are expected names, and each of these.
As long as no name is expected twice, this is equality of sets. What the check reports when it fails is
found by two filters that do not count; they find nothing exactly if the sets are equal.
-/

namespace Wireform.Codec

/-- What an object is to have: its fields and, if it is tagged, its tag. -/
def Expects (tagged : Bool) (names : List String) (k : String) : Prop :=
  k ∈ names ∨ tagged = true ∧ k = discriminator

section

variable {props : Fields Json} {expected names : List String} {tagged : Bool} {k : String}

theorem mem_expectedNames : k ∈ expectedNames tagged names ↔ Expects tagged names k := by
  cases tagged with
  | false => simp [expectedNames, Expects]
  | true => simp [expectedNames, Expects, or_comm]

theorem nodup_expectedNames (hn : names.Nodup) (ht : tagged = true → discriminator ∉ names) :
    (expectedNames tagged names).Nodup := by
  cases tagged with
  | false => exact hn
  | true => exact List.nodup_cons.2 ⟨ht rfl, hn⟩

/-- Counting decides on equality of sets if neither list has a name twice. -/
theorem hasNames_iff (hp : Fields.Distinct props) (he : expected.Nodup) :
    hasNames props expected = true ↔ ∀ k, k ∈ Fields.keys props ↔ k ∈ expected := by
  constructor
  · intro h k
    exact (perm_of_hasNames he h).mem_iff.symm
  · intro h
    have hperm : (Fields.keys props).Perm expected := (List.perm_ext_iff_of_nodup hp he).2 h
    rw [hasNames, Bool.and_eq_true, beq_iff_eq, List.all_eq_true]
    refine ⟨by simpa using hperm.length_eq, fun k hk => ?_⟩
    exact Fields.contains_iff.2 ((h k).2 hk)

/-- Names that are expected and absent. -/
def missingNames (props : Fields Json) (expected : List String) : List String :=
  expected.filter fun k => !props.contains k

/-- Names that are present and not expected. -/
def unexpectedNames (props : Fields Json) (expected : List String) : List String :=
  (Fields.keys props).filter fun k => !expected.contains k

theorem mem_missingNames : k ∈ missingNames props expected ↔ k ∈ expected ∧ k ∉ Fields.keys props := by
  rw [missingNames, List.mem_filter, Bool.not_eq_true', ← Bool.not_eq_true, Fields.contains_iff]

theorem mem_unexpectedNames : k ∈ unexpectedNames props expected ↔ k ∈ Fields.keys props ∧ k ∉ expected := by
  simp [unexpectedNames]

/-- The filters find nothing exactly if the sets are equal. -/
theorem sameNames_iff_nil :
    (∀ k, k ∈ Fields.keys props ↔ k ∈ expected) ↔
      missingNames props expected = [] ∧ unexpectedNames props expected = [] := by
  rw [List.eq_nil_iff_forall_not_mem, List.eq_nil_iff_forall_not_mem]
  simp only [mem_missingNames, mem_unexpectedNames, not_and, not_not]
  constructor
  · exact fun h => ⟨fun k hk => (h k).2 hk, fun k hk => (h k).1 hk⟩
  · exact fun h k => ⟨h.2 k, h.1 k⟩

end

/-! ### The report as text -/

section

variable {missing unexpected missing' unexpected' : List String}

theorem message_keys (missing unexpected : List String) :
    (Mismatch.keys missing unexpected).message =
      "; ".intercalate ((if missing.isEmpty then [] else ["missing " ++ Text.quoteList missing]) ++
        (if unexpected.isEmpty then [] else ["unexpected " ++ Text.quoteList unexpected])) := rfl

/-- What follows the missing names in a report. -/
def unexpectedTail (unexpected : List String) : List Char :=
  if unexpected = [] then [] else "; ".toList ++ ("unexpected ".toList ++ (Text.quoteList unexpected).toList)

theorem toList_message_missing (h : missing ≠ []) :
    (Mismatch.keys missing unexpected).message.toList =
      "missing ".toList ++ ((Text.quoteList missing).toList ++ unexpectedTail unexpected) := by
  have hm : missing.isEmpty = false := by simpa using h
  rw [message_keys, unexpectedTail, hm]
  by_cases hu : unexpected = []
  · simp only [hu, Bool.false_eq_true, if_false, if_true, List.isEmpty_nil, List.append_nil,
      String.intercalate_singleton, String.toList_append]
  · have hu' : unexpected.isEmpty = false := by simpa using hu
    simp only [hu, hu', Bool.false_eq_true, if_false, List.singleton_append, String.intercalate_cons_cons,
      String.intercalate_singleton, String.toList_append, List.append_assoc]

theorem toList_message_unexpected (h : unexpected ≠ []) :
    (Mismatch.keys [] unexpected).message.toList =
      "unexpected ".toList ++ (Text.quoteList unexpected).toList := by
  have hu : unexpected.isEmpty = false := by simpa using h
  rw [message_keys, hu]
  simp only [Bool.false_eq_true, if_false, if_true, List.isEmpty_nil, List.nil_append,
    String.intercalate_singleton, String.toList_append]

theorem toList_message_nil : (Mismatch.keys [] []).message.toList = [] := rfl

theorem quoteList_injective : Function.Injective Text.quoteList := by
  intro ss ss' h
  have happend : (Text.quoteList ss).toList ++ [] = (Text.quoteList ss').toList ++ [] := by rw [h]
  exact (Text.quoteList_append_inj happend).1

theorem unexpectedTail_injective : Function.Injective unexpectedTail := by
  intro us us' h
  unfold unexpectedTail at h
  split_ifs at h with hu hu'
  · rw [hu, hu']
  · cases h
  · cases h
  · exact quoteList_injective (String.toList_injective (List.append_cancel_left (List.append_cancel_left h)))

/-- No two pairs of lists are reported by the same text. -/
theorem message_keys_inj
    (h : (Mismatch.keys missing unexpected).message = (Mismatch.keys missing' unexpected').message) :
    missing = missing' ∧ unexpected = unexpected' := by
  -- The first letter tells whether names are missing, and whether there are any.
  have h := congrArg String.toList h
  by_cases hm : missing = [] <;> by_cases hm' : missing' = []
  · subst hm hm'
    by_cases hu : unexpected = [] <;> by_cases hu' : unexpected' = []
    · rw [hu, hu']
      exact ⟨rfl, rfl⟩
    · rw [hu, toList_message_nil, toList_message_unexpected hu'] at h
      cases h
    · rw [hu', toList_message_nil, toList_message_unexpected hu] at h
      cases h
    · rw [toList_message_unexpected hu, toList_message_unexpected hu'] at h
      exact ⟨rfl, quoteList_injective (String.toList_injective (List.append_cancel_left h))⟩
  · subst hm
    by_cases hu : unexpected = []
    · rw [hu, toList_message_nil, toList_message_missing hm'] at h
      cases h
    · rw [toList_message_unexpected hu, toList_message_missing hm'] at h
      cases (List.cons.inj h).1
  · subst hm'
    by_cases hu' : unexpected' = []
    · rw [hu', toList_message_nil, toList_message_missing hm] at h
      cases h
    · rw [toList_message_unexpected hu', toList_message_missing hm] at h
      cases (List.cons.inj h).1
  · rw [toList_message_missing hm, toList_message_missing hm'] at h
    obtain ⟨rfl, ht⟩ := Text.quoteList_append_inj (List.append_cancel_left h)
    exact ⟨rfl, unexpectedTail_injective ht⟩

end

/-! ### The check -/

/-- The check succeeds on exactly those objects that have the expected names and no others. Its report lists
every expected name that is absent and every name that is not expected, each once; it is never empty, and
its text belongs to these two lists only. -/
theorem expectRecord_exact {props : Fields Json} {names : List String} {tagged : Bool}
    (hp : Fields.Distinct props) (hn : names.Nodup) (ht : tagged = true → discriminator ∉ names)
    (context : String) :
    ((∃ found, expectRecord (.obj props) context tagged names = .ok found) ↔
      ∀ k, k ∈ Fields.keys props ↔ Expects tagged names k) ∧
    (∀ found, expectRecord (.obj props) context tagged names = .ok found → found = props) ∧
    ∀ e, expectRecord (.obj props) context tagged names = .error e →
      ∃ missing unexpected, e = .mismatch context (.keys missing unexpected) ∧
        missing.Nodup ∧ unexpected.Nodup ∧
        (∀ k, k ∈ missing ↔ Expects tagged names k ∧ k ∉ Fields.keys props) ∧
        (∀ k, k ∈ unexpected ↔ k ∈ Fields.keys props ∧ ¬ Expects tagged names k) ∧
        (missing ≠ [] ∨ unexpected ≠ []) ∧
        ∀ missing' unexpected',
          (CodecError.mismatch context (.keys missing' unexpected')).message = e.message →
            missing' = missing ∧ unexpected' = unexpected := by
  have he := nodup_expectedNames hn ht
  have hiff := hasNames_iff hp he
  simp only [mem_expectedNames] at hiff
  refine ⟨?_, ?_, ?_⟩
  · rw [← hiff]
    constructor
    · rintro ⟨found, hf⟩
      obtain ⟨hj, hh⟩ := expectRecord_eq_ok.1 hf
      obtain rfl := Json.obj.inj hj
      exact hh
    · exact fun hh => ⟨props, expectRecord_eq_ok.2 ⟨rfl, hh⟩⟩
  · intro found hf
    exact (Json.obj.inj (expectRecord_eq_ok.1 hf).1).symm
  · intro e hf
    unfold expectRecord at hf
    simp only at hf
    split at hf
    · cases hf
    rename_i hh
    cases hf
    refine ⟨_, _, rfl, he.filter _, hp.filter _, fun k => ?_, fun k => ?_, ?_, ?_⟩
    · rw [← mem_expectedNames]
      exact mem_missingNames
    · rw [← mem_expectedNames]
      exact mem_unexpectedNames
    · by_contra hnone
      rw [not_or, not_not, not_not] at hnone
      exact hh ((hasNames_iff hp he).2 (sameNames_iff_nil.2 hnone))
    · intro missing' unexpected' hmessage
      have hreport := (String.append_right_inj _).1 hmessage
      exact message_keys_inj hreport

/-- A tagged object without `y`, with `w` instead. -/
def ballProps : Fields Json := [("w", .null), ("_type", .str "Ball"), ("x", .null)]

theorem expectRecord_exact_ball :
    Fields.Distinct ballProps ∧ ["x", "y"].Nodup ∧ discriminator ∉ ["x", "y"] ∧
      (¬ ∃ found, expectRecord (.obj ballProps) "Ball" true ["x", "y"] = .ok found) ∧
      ∃ e missing unexpected, expectRecord (.obj ballProps) "Ball" true ["x", "y"] = .error e ∧
        e = .mismatch "Ball" (.keys missing unexpected) ∧ "y" ∈ missing ∧ "w" ∈ unexpected ∧
        "_type" ∉ unexpected := by
  have hp : Fields.Distinct ballProps := by decide
  have hn : ["x", "y"].Nodup := by decide
  have ht : discriminator ∉ ["x", "y"] := by decide
  obtain ⟨hiff, -, herror⟩ := expectRecord_exact hp hn (fun _ => ht) "Ball"
  have hfails : expectRecord (.obj ballProps) "Ball" true ["x", "y"] =
      .error (.mismatch "Ball" (.keys ["y"] ["w"])) := rfl
  obtain ⟨missing, unexpected, he, -, -, hm, hu, -, -⟩ := herror _ hfails
  refine ⟨hp, hn, ht, ?_, _, missing, unexpected, hfails, he, (hm "y").2 ?_, (hu "w").2 ?_, fun h => ?_⟩
  · rw [hfails]
    rintro ⟨found, hf⟩
    cases hf
  · exact ⟨.inl (by decide), by decide⟩
  · exact ⟨by decide, by simp [Expects, discriminator]⟩
  · exact ((hu "_type").1 h).2 (.inr ⟨rfl, rfl⟩)

end Wireform.Codec
