import TableScript.Proofs.Run.Changes
import TableScript.Proofs.Tables.History

/-!
# What a state stores

Values are stored in the globals, in the frames, and in tables, there as keys as well.  `State.Each`
says that something holds of all of them.  What is read is one of them or nil, and what is stored by
a change is given to it; so if something holds of nil and of all that is given, it goes on holding
of everything that is stored.
-/

namespace TableScript

/-- Something holds of all values that names are bound to. -/
def Bindings.Each (holds : Value → Prop) (bindings : Bindings String Value) : Prop :=
  ∀ entry ∈ bindings.entries, holds entry.2

/-- Something holds of all keys and values of a table. -/
def Table.Each (holds : Value → Prop) (table : Table) : Prop :=
  ∀ entry ∈ table.entries, holds entry.1 ∧ holds entry.2

/-- Something holds of all values that a state binds and of all that is in its tables. -/
structure State.Each (holds : Value → Prop) (state : State) : Prop where
  globals : state.scope.globals.Each holds
  frames : ∀ frame ∈ state.scope.frames, frame.bindings.Each holds
  tables : ∀ entry ∈ state.heap.tables.entries, entry.2.Each holds

variable {holds also : Value → Prop}

/-! ## Bindings -/

namespace Bindings

theorem each_empty : Each holds .empty := fun _ hentry => absurd hentry List.not_mem_nil

section Entries

variable {ν α : Type} [DecidableEq ν] {name : ν} {value : α} {entries : List (ν × α)}

theorem mem_insertEntry {entry : ν × α} (hentry : entry ∈ insertEntry name value entries) :
    entry.2 = value ∨ entry ∈ entries := by
  induction entries with
  | nil =>
      cases List.mem_singleton.mp hentry
      exact .inl rfl
  | cons first rest ih =>
      rw [insertEntry] at hentry
      split at hentry
      · rcases List.mem_cons.mp hentry with rfl | hentry
        · exact .inl rfl
        · exact .inr (List.mem_cons_of_mem _ hentry)
      · rcases List.mem_cons.mp hentry with rfl | hentry
        · exact .inr List.mem_cons_self
        · exact (ih hentry).imp_right (List.mem_cons_of_mem _)

theorem mem_of_findIn? (hfound : findIn? name entries = some value) :
    ∃ entry ∈ entries, entry.2 = value := by
  induction entries with
  | nil => cases hfound
  | cons first rest ih =>
      rw [findIn?.eq_def] at hfound
      dsimp only at hfound
      split at hfound
      · cases hfound
        exact ⟨first, List.mem_cons_self, rfl⟩
      · obtain ⟨entry, hentry, hvalue⟩ := ih hfound
        exact ⟨entry, List.mem_cons_of_mem _ hentry, hvalue⟩

end Entries

variable {bindings : Bindings String Value}

theorem Each.mono (himplies : ∀ value, holds value → also value) (hbindings : bindings.Each holds) :
    bindings.Each also :=
  fun entry hentry => himplies entry.2 (hbindings entry hentry)

theorem Each.insert (hbindings : bindings.Each holds) (name : String) {value : Value}
    (hvalue : holds value) : (bindings.insert name value).Each holds := by
  intro entry hentry
  rcases mem_insertEntry hentry with heq | hentry
  · rw [heq]
    exact hvalue
  · exact hbindings entry hentry

theorem Each.of_find? (hbindings : bindings.Each holds) {name : String} {value : Value}
    (hfound : bindings.find? name = some value) : holds value := by
  obtain ⟨entry, hentry, rfl⟩ := mem_of_findIn? hfound
  exact hbindings entry hentry

/-- A parameter is bound to an argument or to nil. -/
theorem Each.bindParameters (hnil : holds .nil) (hbindings : bindings.Each holds)
    (parameters : List String) {arguments : List Value}
    (harguments : ∀ value ∈ arguments, holds value) :
    (Scope.bindParameters bindings parameters arguments).Each holds := by
  induction parameters generalizing bindings arguments with
  | nil => exact hbindings
  | cons parameter rest ih =>
      cases arguments with
      | nil => exact ih (hbindings.insert parameter hnil) harguments
      | cons first others =>
          obtain ⟨hfirst, hothers⟩ := List.forall_mem_cons.mp harguments
          exact ih (hbindings.insert parameter hfirst) hothers

end Bindings

/-! ## Tables -/

namespace Table

theorem each_empty (probe : Probe) : Each holds (.empty probe) :=
  fun _ hentry => absurd hentry List.not_mem_nil

variable {table : Table}

theorem Each.mono (himplies : ∀ value, holds value → also value) (htable : table.Each holds) :
    table.Each also :=
  fun entry hentry => (htable entry hentry).imp (himplies entry.1) (himplies entry.2)

theorem Each.get (hnil : holds .nil) (htable : table.Each holds) (key : Value) :
    holds (table.get key) := by
  unfold Table.get
  split
  · next entry hfound =>
      obtain ⟨place, -, hentry⟩ := Option.bind_eq_some_iff.mp hfound
      exact (htable entry (List.mem_of_getElem? hentry)).2
  · exact hnil

theorem Each.set (htable : table.Each holds) {key value : Value} (hkey : holds key)
    (hvalue : holds value) {later : Table} (hset : table.set key value = .ok later) :
    later.Each holds := by
  intro entry hentry
  obtain ⟨-, ⟨-, hentries⟩ | ⟨-, hentries⟩⟩ := entries_of_set hset
  · rw [hentries] at hentry
    exact htable entry (takeAt_sublist.subset hentry)
  · rw [hentries] at hentry
    refine ⟨?_, ?_⟩
    · exact forall_key_putAt holds (fun entry hold => (htable entry hold).1) hkey entry hentry
    · rcases mem_putAt hentry with hold | ⟨rfl, -⟩
      · exact (htable entry hold).2
      · exact hvalue

end Table

/-! ## Reading -/

theorem Frames.each_of_find? {name : String} {frames : List Frame} {value : Value}
    (hframes : ∀ frame ∈ frames, frame.bindings.Each holds)
    (hfound : find? name frames = some value) : holds value := by
  induction frames with
  | nil => cases hfound
  | cons frame rest ih =>
      obtain ⟨hframe, hrest⟩ := List.forall_mem_cons.mp hframes
      rw [find?] at hfound
      split at hfound
      · next hbound =>
          cases hfound
          exact hframe.of_find? hbound
      · split at hfound
        · cases hfound
        · exact ih hrest hfound

theorem Frames.each_update? {name : String} {value : Value} {frames updated : List Frame}
    (hframes : ∀ frame ∈ frames, frame.bindings.Each holds) (hvalue : holds value)
    (hupdate : update? name value frames = some updated) :
    ∀ frame ∈ updated, frame.bindings.Each holds := by
  induction frames generalizing updated with
  | nil => cases hupdate
  | cons frame rest ih =>
      obtain ⟨hframe, hrest⟩ := List.forall_mem_cons.mp hframes
      rw [update?] at hupdate
      split at hupdate
      · cases hupdate
        exact List.forall_mem_cons.mpr ⟨hframe.insert name hvalue, hrest⟩
      · split at hupdate
        · cases hupdate
        · obtain ⟨others, hothers, rfl⟩ := Option.map_eq_some_iff.mp hupdate
          exact List.forall_mem_cons.mpr ⟨hframe, ih hrest hothers⟩

namespace State

theorem each_start (host : Host) (callLimit : Nat) (input : List InputLine) (output : Output) :
    (State.start host callLimit input output).Each holds where
  globals := Bindings.each_empty
  frames _ hframe := absurd hframe List.not_mem_nil
  tables _ hentry := absurd hentry List.not_mem_nil

namespace Each

variable {state : State} (hstate : state.Each holds)

include hstate

theorem mono (himplies : ∀ value, holds value → also value) : state.Each also where
  globals := hstate.globals.mono himplies
  frames frame hframe := (hstate.frames frame hframe).mono himplies
  tables entry hentry := (hstate.tables entry hentry).mono himplies

theorem table (identity : TableId) : (state.heap.table identity).Each holds := by
  unfold Heap.table
  cases hfound : state.heap.tables.find? identity with
  | none => exact Table.each_empty _
  | some table =>
      obtain ⟨entry, hentry, rfl⟩ := Bindings.mem_of_findIn? hfound
      exact hstate.tables entry hentry

section Nil

variable (hnil : holds .nil)

include hnil

theorem lookup (name : String) : holds (state.scope.lookup name) := by
  unfold Scope.lookup
  split
  · next hfound => exact Frames.each_of_find? hstate.frames hfound
  · cases hfound : state.scope.globals.find? name with
    | none => exact hnil
    | some value => exact hstate.globals.of_find? hfound

theorem follow {name : String} {visited keys : List Value} {current value : Value}
    (hcurrent : holds current)
    (hfollow : State.follow state.heap name visited current keys = .ok value) : holds value := by
  induction keys generalizing visited current with
  | nil =>
      cases hfollow
      exact hcurrent
  | cons key rest ih =>
      rw [State.follow.eq_def] at hfollow
      dsimp only at hfollow
      split at hfollow
      · next identity => exact ih ((hstate.table identity).get hnil key) hfollow
      · cases hfollow
        exact hnil
      · cases hfollow

theorem read {name : String} {keys : List Value} {value : Value}
    (hread : state.read name keys = .ok value) : holds value :=
  hstate.follow hnil (hstate.lookup hnil name) hread

theorem enterCall {function : Function} {arguments : List Value} {entered : State}
    (harguments : ∀ value ∈ arguments, holds value)
    (hentered : state.enterCall function arguments = .ok entered) : entered.Each holds := by
  obtain ⟨scope, hscope, rfl⟩ := State.enterCall_cases hentered
  obtain ⟨-, rfl⟩ := Scope.enterCall_cases hscope
  have hframe := Bindings.each_empty.bindParameters hnil function.parameters harguments
  exact ⟨hstate.globals, List.forall_mem_cons.mpr ⟨hframe, hstate.frames⟩, hstate.tables⟩

end Nil

/-! ## Changes -/

theorem declare (name : String) {value : Value} (hvalue : holds value) :
    (state.declare name value).Each holds := by
  unfold State.declare
  rcases state.scope.declare_cases name value with
    ⟨-, hdeclared⟩ | ⟨frame, rest, hframes, hdeclared⟩
  · rw [hdeclared]
    exact ⟨hstate.globals.insert name hvalue, hstate.frames, hstate.tables⟩
  · obtain ⟨hframe, hrest⟩ := List.forall_mem_cons.mp (hframes ▸ hstate.frames)
    rw [hdeclared]
    exact ⟨hstate.globals,
      List.forall_mem_cons.mpr ⟨hframe.insert name hvalue, hrest⟩, hstate.tables⟩

theorem store (name : String) {value : Value} (hvalue : holds value) :
    State.Each holds { state with scope := state.scope.store name value } := by
  rcases state.scope.store_cases name value with ⟨-, hstored⟩ | ⟨frames, hupdate, hstored⟩
  · rw [hstored]
    exact ⟨hstate.globals.insert name hvalue, hstate.frames, hstate.tables⟩
  · rw [hstored]
    exact ⟨hstate.globals, Frames.each_update? hstate.frames hvalue hupdate, hstate.tables⟩

theorem assign {name : String} {keys : List Value} {value : Value} {later : State}
    (hkeys : ∀ key ∈ keys, holds key) (hvalue : holds value)
    (hassign : state.assign name keys value = .ok later) : later.Each holds := by
  rcases State.assign_cases hassign with ⟨-, rfl⟩ | ⟨last, identity, table, hlast, -, hset, rfl⟩
  · exact hstate.store name hvalue
  · have hkey : holds last := hkeys last (List.mem_of_getLast? hlast)
    have htable : table.Each holds := (hstate.table identity).set hkey hvalue hset
    refine ⟨hstate.globals, hstate.frames, fun other hother => ?_⟩
    rcases Bindings.mem_insertEntry hother with heq | hother
    · rw [heq]
      exact htable
    · exact hstate.tables other hother

theorem allocate {table : Table} (htable : table.Each holds) :
    (state.allocate table).2.Each holds := by
  refine ⟨hstate.globals, hstate.frames, fun other hother => ?_⟩
  rcases List.mem_cons.mp hother with rfl | hother
  · exact htable
  · exact hstate.tables other hother

theorem define (function : Function) : (state.define function).Each holds :=
  ⟨hstate.globals, hstate.frames, hstate.tables⟩

theorem leaveCall : state.leaveCall.Each holds := by
  unfold State.leaveCall Scope.leaveCall
  split
  · exact hstate
  · next frame rest hframes =>
      have hrest := (List.forall_mem_cons.mp (hframes ▸ hstate.frames)).2
      exact ⟨hstate.globals, hrest, hstate.tables⟩

theorem enterLoop (keyword : LoopKeyword) : (state.enterLoop keyword).Each holds :=
  ⟨hstate.globals, List.forall_mem_cons.mpr ⟨Bindings.each_empty, hstate.frames⟩, hstate.tables⟩

theorem leaveLoop : state.leaveLoop.Each holds :=
  ⟨hstate.globals, fun frame hframe => hstate.frames frame (List.mem_of_mem_tail hframe),
    hstate.tables⟩

theorem takeLine : state.takeLine.2.Each holds := by
  unfold State.takeLine
  split
  · exact hstate
  · exact ⟨hstate.globals, hstate.frames, hstate.tables⟩

theorem printLine (line : String) : (state.printLine line).2.Each holds :=
  ⟨hstate.globals, hstate.frames, hstate.tables⟩

/-- Nothing is bound where a program starts; the tables are those that there were. -/
theorem restart : state.restart.Each holds :=
  ⟨Bindings.each_empty, fun _ hframe => absurd hframe List.not_mem_nil, hstate.tables⟩

end Each

end State

end TableScript
