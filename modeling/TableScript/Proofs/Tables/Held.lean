import TableScript.Proofs.Lists.Proper
import TableScript.Proofs.Run.Values

/-!
# Every identity leads to a table

A value that is a table is the identity of one; its entries are in the heap.  A state could hold
identities that lead nowhere, then, or one that is given to a table made later.  None that comes up
in a run does.  All tables that are held in it were made (`madeTables`, which is a standard of
values), and those that were made are kept (`tablesKept`).  So what reads as a table has entries of
its own, and a new table is held by nothing.
-/

namespace TableScript

/-! ## Values -/

namespace Value

/-- All tables in a value were made in the heap. -/
def MadeIn (heap : Heap) (value : Value) : Prop :=
  ∀ identity, .table identity ∈ value.leaves → heap.Has identity

variable {heap later : Heap}

theorem madeIn_of_isScalar {value : Value} (hscalar : value.isScalar = true) :
    value.MadeIn heap := by
  intro identity hmember
  cases value with
  | table other | list items => cases hscalar
  | _ => cases List.mem_singleton.mp hmember

theorem madeIn_table {identity : TableId} (hhas : heap.Has identity) :
    (Value.table identity).MadeIn heap := by
  intro other hmember
  cases List.mem_singleton.mp hmember
  exact hhas

theorem madeIn_list_iff {items : List Value} :
    (Value.list items).MadeIn heap ↔ ∀ item ∈ items, item.MadeIn heap := by
  unfold MadeIn
  simp only [leaves, leavesOfEach_eq_flatMap, List.mem_flatMap]
  constructor
  · exact fun hmade item hitem identity hmember => hmade identity ⟨item, hitem, hmember⟩
  · rintro hmade identity ⟨item, hitem, hmember⟩
    exact hmade item hitem identity hmember

end Value

/-- All tables that are held were made. -/
def madeTables : ValueStandard where
  OfValue heap value := value.MadeIn heap
  grows hgrows hmade identity hmember := hgrows.has (hmade identity hmember)
  scalar := Value.madeIn_of_isScalar
  table := Value.madeIn_table
  list _ := Value.madeIn_list_iff.mpr
  items := Value.madeIn_list_iff.mp

/-! ## States -/

namespace State

/-- The tables that a state holds were made, and those that were made have their entries. -/
structure HoldsTables (state : State) : Prop where
  made : state.Each (Value.MadeIn state.heap)
  kept : state.KeepsTables

namespace HoldsTables

variable {state : State} (hstate : state.HoldsTables)

include hstate

/-- What reads as a table has entries in the heap. -/
theorem exists_table_of_read {name : String} {keys : List Value} {identity : TableId}
    (hread : state.read name keys = .ok (.table identity)) :
    ∃ table, state.heap.tables.find? identity = some table := by
  have hmade : (Value.table identity).MadeIn state.heap := hstate.made.read madeTables.nil hread
  exact Option.isSome_iff_exists.mp (hstate.kept identity (hmade identity List.mem_cons_self))

/-- A new table is held by nothing yet. -/
theorem new_not_held (table : Table) :
    state.Each fun value => .table (state.heap.allocate table).1 ∉ value.leaves :=
  hstate.made.mono fun _ hmade hmember => Heap.not_has_allocate table (hmade _ hmember)

end HoldsTables

end State

/-! ## Runs -/

/-- **Every identity in a run leads to a table of its own.**  When a program is executed, after
whatever came before it in a session, then in every state that it comes through the tables that are
held were made and have their entries.  What reads as a table is in the heap, and a table made next
has an identity that nothing holds.  The tables in the values that a task is given, or gives, were
made too. -/
theorem tables_held {host : Host} {callLimit : Nat} {input : List InputLine} {output : Output}
    {state : State} (hreached : Session.Reaches host callLimit input output state) (fuel : Nat)
    (program : Block) :
    (∀ moment ∈ (Task.block program).moments fuel state.restart,
      moment.HoldsTables ∧
      (∀ name keys identity, moment.read name keys = .ok (.table identity) →
        ∃ table, moment.heap.tables.find? identity = some table) ∧
      ∀ table, moment.Each fun value => .table (moment.heap.allocate table).1 ∉ value.leaves) ∧
    (Task.block program).Throughout
      (fun left _ task inner =>
        task.Takes (Value.MadeIn inner.heap) ∧
        ∀ value later, task.run left inner = .done value later →
          task.Gives (Value.MadeIn later.heap) value)
      fuel state.restart := by
  have htask : madeTables.standard.OfTask (.block program) state.restart.heap := trivial
  have hmade : madeTables.standard.OfState state.restart :=
    (madeTables.each_of_reaches hreached).restart
  have hkept : state.restart.KeepsTables := hreached.keepsTables.congr rfl
  -- the first part is about states alone, the second about the values in flight between them
  constructor
  · intro moment hmoment
    have hholds : moment.HoldsTables :=
      ⟨madeTables.sound.moments fuel htask hmade moment hmoment,
        tablesKept.moments fuel _ hkept moment hmoment⟩
    exact ⟨hholds, fun _ _ _ => hholds.exists_table_of_read, hholds.new_not_held⟩
  · refine (madeTables.sound.throughout fuel htask hmade).mono ?_
    intro left α task inner hmoment
    obtain ⟨htask, hinner⟩ := hmoment
    exact ⟨htask, fun _ _ => madeTables.gives_of_run task hinner htask⟩

end TableScript
