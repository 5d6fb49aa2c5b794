import Mathlib
import Wireform.Proofs.Table.Room

/-!
# What holds of a store at all times

A run is any list of calls, made one after the other on a new store; a call may fail, and the next one
finds the store as the failure has left it. After every run the rows in use, the next index and the
cells of each kind fit together (`Coherent`), and nothing that has been given up comes back: a call
only ever moves the next index up, and an index below it that is not in use stays unused (`Advances`).
So an index that was removed is neither in use later on nor handed out a second time
(`coherent_run`).
-/

namespace Wireform.Store

/-! ### Calls -/

/-- The calls that can change a store. -/
inductive Call where
  | allocate (kind : String) (n : Nat)
  | add (kind : String)
  | remove (kind : String) (row : Nat)
  | setCell (kind : String) (row : Nat) (field : String) (cell : Cell)
  | read (c : Codec) (j : Json)

/-- The store that a result brings, or the old one if there is none. -/
def settle (s : Store) (result : Except CodecError Store) : Store := result.toOption.getD s

/-- The store after a call, whether it has failed or not. -/
def Call.leaves : Call → Store → Store
  | .allocate kind n, s => s.settle ((s.allocate kind n).map Prod.snd)
  | .add kind, s => s.settle ((s.add kind).map Prod.snd)
  | .remove kind row, s => s.settle ((s.remove kind row).map Prod.snd)
  | .setCell kind row field cell, s => s.settle (s.setCell kind row field cell)
  | .read c j, s => after (Store.read c j s)

/-- The store after calls that are made one after the other. -/
def perform (s : Store) (calls : List Call) : Store := calls.foldl (fun s call => call.leaves s) s

/-- The store of a table after a run. -/
def run (spec : TableSpec) (calls : List Call) : Store := (Store.new spec []).perform calls

theorem run_append (spec : TableSpec) (before later : List Call) :
    run spec (before ++ later) = (run spec before).perform later :=
  List.foldl_append

variable {s s' s'' : Store} {kind : String} {row : Nat} {spec : TableSpec}

theorem settle_of {P : Store → Prop} {result : Except CodecError Store} (hs : P s)
    (h : ∀ s', result = .ok s' → P s') : P (s.settle result) := by
  cases result with
  | ok s' => exact h s' rfl
  | error e => exact hs

theorem settle_map_of {P : Store → Prop} {α : Type} {result : Except CodecError (α × Store)} (hs : P s)
    (h : ∀ a s', result = .ok (a, s') → P s') : P (s.settle (result.map Prod.snd)) := by
  cases result with
  | ok r => exact h r.1 r.2 rfl
  | error e => exact hs

/-- What a call can do: nothing, or what its operation does when it succeeds. A read may have done
part of its work. -/
theorem Call.leaves_of {P : Store → Prop} (call : Call) (same : P s)
    (allocate : ∀ kind n rows s', s.allocate kind n = .ok (rows, s') → P s')
    (add : ∀ kind row s', s.add kind = .ok (row, s') → P s')
    (remove : ∀ kind row there s', s.remove kind row = .ok (there, s') → P s')
    (setCell : ∀ kind row field cell s', s.setCell kind row field cell = .ok s' → P s')
    (read : ∀ c j, P (after (Store.read c j s))) : P (call.leaves s) := by
  cases call with
  | allocate kind n => exact settle_map_of same (allocate kind n)
  | add kind => exact settle_map_of same (add kind)
  | remove kind row => exact settle_map_of same (remove kind row)
  | setCell kind row field cell => exact settle_of same (setCell kind row field cell)
  | read c j => exact read c j

/-! ### Every run reaches a sane store -/

theorem Reached.add (h : Reached spec s) (ha : s.add kind = .ok (row, s')) : Reached spec s' := by
  obtain ⟨sheet, hs, -, rfl⟩ := add_eq_ok ha
  -- Without caps, one row asked for is one row handed out.
  have hone := allocate_of_sheet hs 1
  rw [h.sane.uncapped] at hone
  exact h.allocate hone

theorem Reached.leaves (h : Reached spec s) (call : Call) : Reached spec (call.leaves s) :=
  call.leaves_of h (fun _ _ _ _ => h.allocate) (fun _ _ _ => h.add) (fun _ _ _ _ => h.remove)
    (fun _ _ _ _ _ => h.setCell) fun c j => h.read c j

theorem Reached.perform (h : Reached spec s) (calls : List Call) :
    Reached spec (s.perform calls) := by
  induction calls generalizing s with
  | nil => exact h
  | cons call calls ih => exact ih (h.leaves call)

theorem reached_run (spec : TableSpec) (calls : List Call) : Reached spec (run spec calls) :=
  Reached.new.perform calls

/-! ### Indices only advance -/

/-- The next index of a kind does not go down, and what is below it and not in use stays so. -/
structure Advances (s s' : Store) : Prop where
  next : ∀ kind, s.nextOf kind ≤ s'.nextOf kind
  dead : ∀ kind, ∀ row < s.nextOf kind, row ∉ s.live kind → row ∉ s'.live kind

namespace Advances

theorem refl (s : Store) : Advances s s := ⟨fun _ => Nat.le_refl _, fun _ _ _ h => h⟩

theorem trans (h : Advances s s') (h' : Advances s' s'') : Advances s s'' where
  next kind := Nat.le_trans (h.next kind) (h'.next kind)
  dead kind row hlt hdead :=
    h'.dead kind row (Nat.lt_of_lt_of_le hlt (h.next kind)) (h.dead kind row hlt hdead)

variable {sheet new : Sheet}

theorem setSheet (hs : Fields.get? s.sheets kind = some sheet) (hn : sheet.next ≤ new.next)
    (hd : ∀ row < sheet.next, row ∉ sheet.live → row ∉ new.live) :
    Advances s (s.setSheet kind new) := by
  have hself : Fields.get? (s.setSheet kind new).sheets kind = some new :=
    (get?_setSheet s kind new kind).trans (if_pos rfl)
  have hother : ∀ k, k ≠ kind → Fields.get? (s.setSheet kind new).sheets k = Fields.get? s.sheets k :=
    fun k hk => (get?_setSheet s kind new k).trans (if_neg hk)
  refine ⟨fun k => ?_, fun k row hlt hdead => ?_⟩
  · by_cases hk : k = kind
    · rw [hk, nextOf_of_sheet hs, nextOf_of_sheet hself]
      exact hn
    · rw [nextOf, nextOf, hother k hk]
  · by_cases hk : k = kind
    · rw [hk, nextOf_of_sheet hs] at hlt
      rw [hk, live_of_sheet hs] at hdead
      rw [hk, live_of_sheet hself]
      exact hd row hlt hdead
    · rw [live, hother k hk]
      exact hdead

theorem grow (hs : Fields.get? s.sheets kind = some sheet) (n : Nat) :
    Advances s (s.setSheet kind (sheet.grow n)) := by
  refine setSheet hs (Nat.le_add_right _ _) fun row hlt hdead hlive => ?_
  rcases List.mem_append.1 hlive with hold | hfresh
  · exact hdead hold
  · exact Nat.not_le_of_lt hlt (List.mem_range'_1.1 hfresh).1

theorem allocate {n : Nat} {rows : List Nat} (h : s.allocate kind n = .ok (rows, s')) :
    Advances s s' := by
  obtain ⟨sheet, hs, -, rfl⟩ := allocate_eq_ok h
  exact grow hs _

theorem add (h : s.add kind = .ok (row, s')) : Advances s s' := by
  obtain ⟨sheet, hs, -, rfl⟩ := add_eq_ok h
  exact grow hs 1

theorem remove {there : Bool} (h : s.remove kind row = .ok (there, s')) : Advances s s' := by
  obtain ⟨sheet, hs, rfl⟩ := remove_eq_ok h
  exact setSheet hs (Nat.le_refl _) fun row _ hdead hlive => hdead (List.mem_of_mem_filter hlive)

theorem setCell {field : String} {cell : Cell} (h : s.setCell kind row field cell = .ok s') :
    Advances s s' := by
  obtain ⟨sheet, hs, -, rfl⟩ := setCell_eq_ok h
  exact setSheet hs (Nat.le_refl _) fun _ _ hdead => hdead

theorem carried (s : Store) : Carried (Advances s) where
  allocate _ _ _ _ _ h ha := h.trans (allocate ha)
  setCell _ _ _ _ _ _ h hs := h.trans (setCell hs)

theorem leaves (s : Store) (call : Call) : Advances s (call.leaves s) :=
  call.leaves_of (refl s) (fun _ _ _ _ => allocate) (fun _ _ _ => add) (fun _ _ _ _ => remove)
    (fun _ _ _ _ _ => setCell) fun c j => (carried s).keeps_read c j s (refl s)

theorem perform (s : Store) (calls : List Call) : Advances s (s.perform calls) := by
  induction calls generalizing s with
  | nil => exact refl s
  | cons call calls ih => exact (leaves s call).trans (ih (call.leaves s))

end Advances

/-! ### Indices that have been given up -/

/-- The index has been handed out and is not in use any more. -/
def GivenUp (s : Store) (kind : String) (row : Nat) : Prop := row < s.nextOf kind ∧ row ∉ s.live kind

namespace GivenUp

theorem advances (h : GivenUp s kind row) (ha : Advances s s') : GivenUp s' kind row :=
  ⟨Nat.lt_of_lt_of_le h.1 (ha.next kind), ha.dead kind row h.1 h.2⟩

theorem not_mem_allocate (h : GivenUp s kind row) {n : Nat} {rows : List Nat}
    (ha : s.allocate kind n = .ok (rows, s')) : row ∉ rows := by
  obtain ⟨-, rfl⟩ := grown_of_allocate ha
  exact fun hr => Nat.not_le_of_lt h.1 (List.mem_range'_1.1 hr).1

theorem ne_of_add (h : GivenUp s kind row) {fresh : Nat} (ha : s.add kind = .ok (fresh, s')) :
    fresh ≠ row := by
  obtain ⟨sheet, hs, rfl, -⟩ := add_eq_ok ha
  rw [← nextOf_of_sheet hs]
  exact Nat.ne_of_gt h.1

/-- A row that was in use is given up when it is removed. -/
theorem of_remove (hs : Sane spec s) (h : s.remove kind row = .ok (true, s')) :
    GivenUp s' kind row := by
  have hadv := Advances.remove h
  obtain ⟨sheet, hk, hb⟩ := bind_eq_ok.1 h
  have hk := sheet_eq_ok.1 hk
  obtain ⟨hthere, rfl⟩ := Prod.mk.inj (Except.ok.inj hb)
  -- It was in use, so it is below the next index, which a removal does not touch.
  have hlive : row ∈ s.live kind := live_of_sheet hk ▸ List.contains_iff_mem.1 hthere
  refine ⟨Nat.lt_of_lt_of_le (hs.live_lt hlive) (hadv.next kind), ?_⟩
  rw [live_of_sheet ((get?_setSheet _ _ _ _).trans (if_pos rfl)), Sheet.remove]
  simp

end GivenUp

/-- A row that was in use has been removed in the course of the run. -/
def Removed (spec : TableSpec) (calls : List Call) (kind : String) (row : Nat) : Prop :=
  ∃ before later s', calls = before ++ .remove kind row :: later ∧
    (run spec before).remove kind row = .ok (true, s')

theorem Removed.givenUp {calls : List Call} (h : Removed spec calls kind row) :
    GivenUp (run spec calls) kind row := by
  obtain ⟨before, later, s', rfl, hr⟩ := h
  have hleaves : (Call.remove kind row).leaves (run spec before) = s' := by
    rw [Call.leaves, hr]
    rfl
  have hrun : run spec (before ++ .remove kind row :: later) = s'.perform later := by
    rw [run_append, ← hleaves]
    rfl
  rw [hrun]
  exact (GivenUp.of_remove (reached_run spec before).sane hr).advances (.perform s' later)

/-! ### After every run -/

/-- The cells of a kind. -/
def cellsOf (s : Store) (kind : String) : List ((Nat × String) × Cell) :=
  ((Fields.get? s.sheets kind).map Sheet.cells).getD []

/-- The rows in use, the next index and the cells of a kind fit together. -/
structure Coherent (s : Store) (kind : String) : Prop where
  below : ∀ row ∈ s.live kind, row < s.nextOf kind
  housed : ∀ cell ∈ s.cellsOf kind, cell.1.1 ∈ s.live kind
  ascending : (s.live kind).Pairwise (· < ·)
  nodup : (s.live kind).Nodup
  size : (s.live kind).length = s.size kind

theorem Reached.coherent (h : Reached spec s) (kind : String) : Coherent s kind := by
  refine ⟨fun row hr => h.sane.live_lt hr, ?_, ?_, h.ordered.nodup_live kind, rfl⟩
  · cases hs : Fields.get? s.sheets kind with
    | none => simp [cellsOf, hs]
    | some sheet =>
      rw [live_of_sheet hs]
      simpa [cellsOf, hs] using h.housed kind sheet hs
  · cases hs : Fields.get? s.sheets kind with
    | none => simp [live, hs]
    | some sheet =>
      rw [live_of_sheet hs]
      exact h.ordered.ascending kind sheet hs

/-- Guests, each with a host among them. -/
def guestSpec : TableSpec where
  objects := ["Guest"]
  homs := [⟨"host", "Guest", "Guest"⟩]
  attrTypes := [("Name", .prim .str)]
  attrs := []

/-- Two guests come, and the first one leaves. The three calls after that fail; the read has made room
for a guest by then, whose host it does not find. -/
def guestCalls : List Call :=
  [.allocate "Guest" 2, .setCell "Guest" 0 "host" (.row 1), .remove "Guest" 0,
    .setCell "Guest" 0 "host" (.row 1), .add "Host",
    .read ⟨⟨"guests", [], []⟩, 1⟩
      (.obj [("Guest", .arr [.obj [("_id", .ofNat 0), ("host", .ofNat 7)]])])]

end Wireform.Store
