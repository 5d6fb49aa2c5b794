import Mathlib
import Wireform.Json.Basic
import Wireform.Proofs.Fields
import Wireform.Proofs.Schema.Pattern

/-!
# When a document validates

The draft-07 meaning of the keywords that exported schemas consist of. A `$ref` can lead anywhere, so
a check has a number of steps to make, and its verdict is open if they do not suffice. It is open too
for a keyword, or a form of one, that is not known here. A document validates if the verdict is
`true` from some number of steps on.
-/

namespace Wireform

/-- What a number measures. -/
def Number.value : Number → ℚ
  | .int n => n
  | .float x _ => (if x.isNegative then -1 else 1) * x.significand * 2 ^ x.exponent

namespace Schema

/-- A verdict is open (`none`) or final. -/
abbrev Verdict := Option Bool

namespace Verdict

def all (vs : List Verdict) : Verdict :=
  if some false ∈ vs then some false else if none ∈ vs then none else some true

def any (vs : List Verdict) : Verdict :=
  if some true ∈ vs then some true else if none ∈ vs then none else some false

def exactlyOne (vs : List Verdict) : Verdict :=
  if 2 ≤ vs.count (some true) then some false
  else if none ∈ vs then none
  else some (vs.count (some true) == 1)

theorem all_eq_true {vs : List Verdict} : all vs = some true ↔ ∀ v ∈ vs, v = some true := by
  unfold all
  split
  · rename_i hf
    simp only [Option.some.injEq, Bool.false_eq_true, false_iff, not_forall]
    exact ⟨_, hf, by simp⟩
  · rename_i hf
    split
    · rename_i hn
      simp only [reduceCtorEq, false_iff, not_forall]
      exact ⟨_, hn, by simp⟩
    · rename_i hn
      simp only [true_iff]
      rintro (_ | _ | _) hv
      · exact absurd hv hn
      · exact absurd hv hf
      · rfl

theorem all_eq_false {vs : List Verdict} (h : some false ∈ vs) : all vs = some false := if_pos h

theorem any_eq_true {vs : List Verdict} : any vs = some true ↔ some true ∈ vs := by
  refine ⟨fun h => ?_, fun h => if_pos h⟩
  unfold any at h
  split at h
  · assumption
  · split at h <;> cases h

theorem all_singleton (v : Verdict) : all [v] = v := by
  rcases v with _ | _ | _ <;> rfl

theorem any_singleton (v : Verdict) : any [v] = v := by
  rcases v with _ | _ | _ <;> rfl

/-- An alternative that is ruled out can be left out. -/
theorem any_append_false (vs : List Verdict) : any (vs ++ [some false]) = any vs := by
  simp [any]

theorem exactlyOne_eq_true {pre post : List Verdict} (hpre : ∀ v ∈ pre, v = some false)
    (hpost : ∀ v ∈ post, v = some false) : exactlyOne (pre ++ some true :: post) = some true := by
  rw [List.eq_replicate_of_mem hpre, List.eq_replicate_of_mem hpost]
  simp [exactlyOne, List.count_replicate, List.mem_replicate]

end Verdict

/-! ### Keywords -/

def hasType (name : String) (j : Json) : Verdict :=
  match name, j with
  | "null", .null => some true
  | "boolean", .bool _ => some true
  | "number", .num _ => some true
  | "integer", .num n => some (n.value.den == 1)
  | "string", .str _ => some true
  | "array", .arr _ => some true
  | "object", .obj _ => some true
  | _, _ => if ["null", "boolean", "number", "integer", "string", "array", "object"].contains name
    then some false else none

def typeVerdict (types j : Json) : Verdict :=
  match types with
  | .str name => hasType name j
  | .arr names => Verdict.any (names.map fun n => n.str?.bind fun name => hasType name j)
  | _ => none

/-- A bound holds of numbers. -/
def boundVerdict (holds : ℚ → ℚ → Bool) (bound j : Json) : Verdict :=
  match j, bound with
  | .num n, .num b => some (holds b.value n.value)
  | .num _, _ => none
  | _, _ => some true

def patternVerdict (pattern j : Json) : Verdict :=
  match j with
  | .str s => (pattern.str?.bind Pattern.ofText?).map fun q => q.found s
  | _ => some true

/-- The schemas of a list of schemas. -/
def schemas? : Json → Option (List Json)
  | .arr ss => some ss
  | _ => none

/-- Keywords that say nothing about validity. -/
def remarks : List String := ["$comment", "description", "contentEncoding"]

/-- What one keyword says of a document; `declared` are the names under `properties`. -/
def keyword (valid : Json → Json → Verdict) (declared : List String) (j : Json) (name : String)
    (value : Json) : Verdict :=
  match name with
  | "type" => typeVerdict value j
  | "minimum" => boundVerdict (fun b x => b ≤ x) value j
  | "maximum" => boundVerdict (fun b x => x ≤ b) value j
  | "pattern" => patternVerdict value j
  | "const" => value.str?.map fun s => j.str? == some s
  | "items" =>
    match j with
    | .arr items => Verdict.all (items.map (valid value))
    | _ => some true
  | "properties" =>
    match j, value with
    | .obj props, .obj schemas => Verdict.all (schemas.map fun s =>
        match Fields.get? props s.1 with
        | some x => valid s.2 x
        | none => some true)
    | .obj _, _ => none
    | _, _ => some true
  | "required" =>
    match j, value with
    | .obj props, .arr names => Verdict.all (names.map fun n =>
        n.str?.map fun name => Fields.contains props name)
    | .obj _, _ => none
    | _, _ => some true
  | "additionalProperties" =>
    match j with
    | .obj props => Verdict.all (props.map fun p =>
        if declared.contains p.1 then some true else valid value p.2)
    | _ => some true
  | "allOf" => (schemas? value).bind fun ss => Verdict.all (ss.map (valid · j))
  | "anyOf" => (schemas? value).bind fun ss => Verdict.any (ss.map (valid · j))
  | "oneOf" => (schemas? value).bind fun ss => Verdict.exactlyOne (ss.map (valid · j))
  | name => if remarks.contains name then some true else none

/-- The names under `properties`. -/
def declaredNames (keywords : Fields Json) : List String :=
  match Fields.get? keywords "properties" with
  | some (.obj props) => Fields.keys props
  | _ => []

/-- The definition that a reference points at in a schema document. -/
def target? (document : Json) (ref : Json) : Option Json := do
  let path ← ref.str?
  let key ← String.ofList <$> List.dropPrefix? path.toList "#/$defs/".toList
  let defs ← document.prop? "$defs"
  defs.prop? key

/-- The verdict of a schema on a document. Keywords beside a reference are ignored. -/
def check (document : Json) : Nat → Json → Json → Verdict
  | 0, _, _ => none
  | _ + 1, .bool b, _ => some b
  | n + 1, .obj keywords, j =>
    match Fields.get? keywords "$ref" with
    | some ref => (target? document ref).bind fun schema => check document n schema j
    | none => Verdict.all (keywords.map fun k =>
        keyword (check document n) (declaredNames keywords) j k.1 k.2)
  | _ + 1, _, _ => none

def Validates (document schema j : Json) : Prop :=
  ∃ n, ∀ steps ≥ n, check document steps schema j = some true

def Rejects (document schema j : Json) : Prop :=
  ∃ n, ∀ steps ≥ n, check document steps schema j = some false

theorem Validates.not_rejects {document schema j : Json} (h : Validates document schema j) :
    ¬Rejects document schema j := by
  rintro ⟨k, hk⟩
  obtain ⟨n, hn⟩ := h
  have hv := (hn (max n k) (by omega)).symm.trans (hk (max n k) (by omega))
  cases hv

/-- The keyword holds from some number of steps on. -/
def Passes (document : Json) (declared : List String) (j : Json) (name : String) (value : Json) :
    Prop :=
  ∃ n, ∀ steps ≥ n, keyword (check document steps) declared j name value = some true

variable {document j value : Json} {declared : List String}

/-- What holds of each from some number of steps on holds of all from some number on. -/
theorem exists_steps {α : Type} {R : α → Nat → Prop} {l : List α}
    (h : ∀ x ∈ l, ∃ n, ∀ steps ≥ n, R x steps) : ∃ n, ∀ steps ≥ n, ∀ x ∈ l, R x steps := by
  induction l with
  | nil => exact ⟨0, by simp⟩
  | cons x l ih =>
    obtain ⟨n, hn⟩ := h x (by simp)
    obtain ⟨k, hk⟩ := ih fun x hx => h x (by simp [hx])
    refine ⟨max n k, fun steps hs => List.forall_mem_cons.2 ⟨hn steps ?_, hk steps ?_⟩⟩ <;> omega

theorem validates_obj {keywords : Fields Json} (hr : Fields.get? keywords "$ref" = none) :
    Validates document (.obj keywords) j ↔
      ∀ k ∈ keywords, Passes document (declaredNames keywords) j k.1 k.2 := by
  have hc : ∀ steps, check document (steps + 1) (.obj keywords) j = some true ↔
      ∀ k ∈ keywords,
        keyword (check document steps) (declaredNames keywords) j k.1 k.2 = some true := by
    intro steps
    rw [check, hr]
    simp only [Verdict.all_eq_true, List.forall_mem_map]
  constructor
  · rintro ⟨n, h⟩ k hk
    exact ⟨n, fun steps hs => (hc steps).1 (h (steps + 1) (by omega)) k hk⟩
  · intro h
    obtain ⟨n, hn⟩ := exists_steps h
    refine ⟨n + 1, fun steps hs => ?_⟩
    obtain ⟨steps, rfl⟩ : ∃ k, steps = k + 1 := ⟨steps - 1, by omega⟩
    exact (hc steps).2 (hn steps (by omega))

theorem rejects_obj {keywords : Fields Json} (hr : Fields.get? keywords "$ref" = none)
    {k : String × Json} (hk : k ∈ keywords) {n : Nat}
    (h : ∀ steps ≥ n,
      keyword (check document steps) (declaredNames keywords) j k.1 k.2 = some false) :
    Rejects document (.obj keywords) j := by
  refine ⟨n + 1, fun steps hs => ?_⟩
  obtain ⟨steps, rfl⟩ : ∃ k, steps = k + 1 := ⟨steps - 1, by omega⟩
  rw [check, hr]
  exact Verdict.all_eq_false (List.mem_map.2 ⟨k, hk, h steps (by omega)⟩)

/-! ### When a keyword holds -/

theorem passes_type (h : typeVerdict value j = some true) :
    Passes document declared j "type" value :=
  ⟨0, fun _ _ => h⟩

theorem passes_const {s : String} : Passes document declared (.str s) "const" (.str s) :=
  ⟨0, fun _ _ => by simp [keyword, Json.str?]⟩

theorem passes_remark {name : String} (h : name ∈ remarks) :
    Passes document declared j name value := by
  refine ⟨0, fun _ _ => ?_⟩
  simp only [remarks, List.mem_cons, List.not_mem_nil, or_false] at h
  rcases h with rfl | rfl | rfl <;> rfl

theorem passes_items {items : List Json} (h : ∀ x ∈ items, Validates document value x) :
    Passes document declared (.arr items) "items" value := by
  obtain ⟨n, hn⟩ := exists_steps h
  refine ⟨n, fun steps hs => Verdict.all_eq_true.2 ?_⟩
  exact List.forall_mem_map.2 fun x hx => hn steps hs x hx

theorem passes_properties {props schemas : Fields Json}
    (h : ∀ s ∈ schemas, ∃ x, Fields.get? props s.1 = some x ∧ Validates document s.2 x) :
    Passes document declared (.obj props) "properties" (.obj schemas) := by
  have h' : ∀ s ∈ schemas, ∃ n, ∀ steps ≥ n,
      (match Fields.get? props s.1 with
        | some x => check document steps s.2 x
        | none => some true) = some true := by
    intro s hs
    obtain ⟨x, hx, n, hn⟩ := h s hs
    exact ⟨n, fun steps hs => by rw [hx]; exact hn steps hs⟩
  obtain ⟨n, hn⟩ := exists_steps h'
  refine ⟨n, fun steps hs => Verdict.all_eq_true.2 ?_⟩
  exact List.forall_mem_map.2 fun s hm => hn steps hs s hm

theorem passes_required {props : Fields Json} {names : List String}
    (h : ∀ name ∈ names, name ∈ Fields.keys props) :
    Passes document declared (.obj props) "required" (.arr (names.map .str)) := by
  refine ⟨0, fun _ _ => Verdict.all_eq_true.2 ?_⟩
  rw [List.map_map, List.forall_mem_map]
  intro name hn
  show some (Fields.contains props name) = some true
  rw [Fields.contains_iff.2 (h name hn)]

theorem passes_additional {props : Fields Json}
    (h : ∀ p ∈ props, p.1 ∈ declared ∨ Validates document value p.2) :
    Passes document declared (.obj props) "additionalProperties" value := by
  have h' : ∀ p ∈ props, ∃ n, ∀ steps ≥ n,
      (if declared.contains p.1 then some true else check document steps value p.2) =
        some true := by
    intro p hp
    rcases h p hp with hd | ⟨n, hn⟩
    · exact ⟨0, fun _ _ => if_pos (List.contains_iff_mem.2 hd)⟩
    · refine ⟨n, fun steps hs => ?_⟩
      split
      · rfl
      · exact hn steps hs
  obtain ⟨n, hn⟩ := exists_steps h'
  refine ⟨n, fun steps hs => Verdict.all_eq_true.2 ?_⟩
  exact List.forall_mem_map.2 fun p hp => hn steps hs p hp

theorem passes_allOf {schemas : List Json} (h : ∀ s ∈ schemas, Validates document s j) :
    Passes document declared j "allOf" (.arr schemas) := by
  obtain ⟨n, hn⟩ := exists_steps h
  refine ⟨n, fun steps hs => Verdict.all_eq_true.2 ?_⟩
  exact List.forall_mem_map.2 fun s hm => hn steps hs s hm

theorem passes_anyOf {schemas : List Json} {s : Json} (hs : s ∈ schemas)
    (h : Validates document s j) : Passes document declared j "anyOf" (.arr schemas) := by
  obtain ⟨n, hn⟩ := h
  exact ⟨n, fun steps hn' => Verdict.any_eq_true.2 (List.mem_map.2 ⟨s, hs, hn steps hn'⟩)⟩

theorem passes_oneOf {pre post : List Json} {s : Json} (h : Validates document s j)
    (hpre : ∀ s ∈ pre, Rejects document s j) (hpost : ∀ s ∈ post, Rejects document s j) :
    Passes document declared j "oneOf" (.arr (pre ++ s :: post)) := by
  obtain ⟨n, hn⟩ := h
  obtain ⟨k, hk⟩ := exists_steps hpre
  obtain ⟨l, hl⟩ := exists_steps hpost
  refine ⟨max n (max k l), fun steps hs => ?_⟩
  show Verdict.exactlyOne ((pre ++ s :: post).map (check document steps · j)) = some true
  rw [List.map_append, List.map_cons, hn steps (by omega)]
  exact Verdict.exactlyOne_eq_true (List.forall_mem_map.2 fun s hm => hk steps (by omega) s hm)
    (List.forall_mem_map.2 fun s hm => hl steps (by omega) s hm)

/-! ### References -/

theorem target?_definition {document : Json} {defs : Fields Json} {key : String}
    (hd : document.prop? "$defs" = some (.obj defs)) :
    target? document (.str ("#/$defs/" ++ key)) = Fields.get? defs key := by
  have hk : List.dropPrefix? ("#/$defs/" ++ key).toList "#/$defs/".toList = some key.toList := by
    rw [String.toList_append]
    exact List.dropPrefix?_append_of_beq _ (beq_self_eq_true _)
  show (Option.map String.ofList (List.dropPrefix? ("#/$defs/" ++ key).toList "#/$defs/".toList)).bind
    (fun key => (document.prop? "$defs").bind fun defs => defs.prop? key) = _
  rw [hk, hd]
  simp only [Option.map_some, Option.bind_some, String.ofList_toList]
  rfl

section

variable {key : String} {defs : Fields Json} {schema : Json}

theorem check_ref (hd : document.prop? "$defs" = some (.obj defs))
    (hk : Fields.get? defs key = some schema) (steps : Nat) :
    check document (steps + 1) (.obj [("$ref", .str ("#/$defs/" ++ key))]) j =
      check document steps schema j := by
  rw [check, Fields.get?_cons, if_pos rfl]
  simp only [target?_definition hd, hk, Option.bind_some]

theorem validates_ref (hd : document.prop? "$defs" = some (.obj defs))
    (hk : Fields.get? defs key = some schema) (h : Validates document schema j) :
    Validates document (.obj [("$ref", .str ("#/$defs/" ++ key))]) j := by
  obtain ⟨n, hn⟩ := h
  refine ⟨n + 1, fun steps hs => ?_⟩
  obtain ⟨steps, rfl⟩ : ∃ k, steps = k + 1 := ⟨steps - 1, by omega⟩
  rw [check_ref hd hk, hn steps (by omega)]

theorem rejects_ref (hd : document.prop? "$defs" = some (.obj defs))
    (hk : Fields.get? defs key = some schema) (h : Rejects document schema j) :
    Rejects document (.obj [("$ref", .str ("#/$defs/" ++ key))]) j := by
  obtain ⟨n, hn⟩ := h
  refine ⟨n + 1, fun steps hs => ?_⟩
  obtain ⟨steps, rfl⟩ : ∃ k, steps = k + 1 := ⟨steps - 1, by omega⟩
  rw [check_ref hd hk, hn steps (by omega)]

end

end Schema

end Wireform
