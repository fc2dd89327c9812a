import TableScript.Proofs.Frames.Moments
import TableScript.Proofs.Run.Changes

/-!
# The heap only grows

A table that was made is in the heap for good: it can be changed, but it does not go away, and its
identity is given to no other table.  `Heap.Has` says of an identity that it is that of a table made
in a heap.  What a heap has it keeps in every run (`heapGrowth`), and it has the entries of all
tables that were made (`tablesKept`).
-/

namespace TableScript

namespace Heap

variable {heap later last : Heap} {identity : TableId}

/-- Whether an identity is that of a table made in the heap. -/
def Has (heap : Heap) (identity : TableId) : Prop :=
  ∃ age < heap.made, heap.host.address age = identity.address

/-- On the same machine, with as many tables made or more. -/
structure GrowsInto (heap later : Heap) : Prop where
  host : later.host = heap.host
  made : heap.made ≤ later.made

namespace GrowsInto

theorem refl (heap : Heap) : heap.GrowsInto heap := ⟨rfl, Nat.le_refl _⟩

theorem of_eq (hsame : later = heap) : heap.GrowsInto later := hsame ▸ refl heap

theorem trans (hgrows : heap.GrowsInto later) (hgrows' : later.GrowsInto last) :
    heap.GrowsInto last :=
  ⟨hgrows'.host.trans hgrows.host, Nat.le_trans hgrows.made hgrows'.made⟩

theorem allocate (heap : Heap) (table : Table) : heap.GrowsInto (heap.allocate table).2 :=
  ⟨rfl, Nat.le_succ _⟩

/-- What was in the heap is in it later. -/
theorem has (hgrows : heap.GrowsInto later) (hhas : heap.Has identity) : later.Has identity := by
  obtain ⟨age, hage, haddress⟩ := hhas
  exact ⟨age, Nat.lt_of_lt_of_le hage hgrows.made, hgrows.host ▸ haddress⟩

end GrowsInto

theorem has_allocate (table : Table) : (heap.allocate table).2.Has (heap.allocate table).1 :=
  ⟨heap.made, Nat.lt_succ_self _, rfl⟩

/-- A new table is none of those that were made before. -/
theorem not_has_allocate (table : Table) : ¬ heap.Has (heap.allocate table).1 := by
  rintro ⟨age, hage, haddress⟩
  exact absurd (heap.host.address_injective _ _ haddress) (Nat.ne_of_lt hage)

end Heap

/-! ## Runs -/

namespace State

variable {state later : State}

theorem heap_takeLine : state.takeLine.2.heap = state.heap := by
  unfold takeLine
  split <;> rfl

theorem heap_enterCall {function : Function} {arguments : List Value}
    (hentered : state.enterCall function arguments = .ok later) : later.heap = state.heap := by
  obtain ⟨scope, -, rfl⟩ := enterCall_cases hentered
  rfl

theorem heap_growsInto_assign {name : String} {keys : List Value} {value : Value}
    (hassign : state.assign name keys value = .ok later) : state.heap.GrowsInto later.heap := by
  rcases assign_cases hassign with ⟨-, rfl⟩ | ⟨_, _, _, -, -, -, rfl⟩
  · exact .refl _
  · exact ⟨rfl, Nat.le_refl _⟩

/-- Every table that was made is kept. -/
def KeepsTables (state : State) : Prop :=
  ∀ identity, state.heap.Has identity → (state.heap.tables.find? identity).isSome

theorem KeepsTables.congr (hkept : state.KeepsTables) (hsame : later.heap = state.heap) :
    later.KeepsTables := by
  unfold KeepsTables
  rw [hsame]
  exact hkept

theorem KeepsTables.assign (hkept : state.KeepsTables) {name : String} {keys : List Value}
    {value : Value} (hassign : state.assign name keys value = .ok later) : later.KeepsTables := by
  rcases assign_cases hassign with ⟨-, rfl⟩ | ⟨_, identity, table, -, -, -, rfl⟩
  · exact hkept.congr rfl
  · -- a table is put in the place of one, which takes none away
    intro other hhas
    change (Bindings.find? (state.heap.tables.insert identity table) other).isSome
    rw [Bindings.find?_insert]
    split
    · rfl
    · exact hkept other hhas

theorem KeepsTables.allocate (hkept : state.KeepsTables) (table : Table) :
    (state.allocate table).2.KeepsTables := by
  rintro other ⟨age, hage, haddress⟩
  change (Bindings.find? (state.heap.tables.push _ table) other).isSome
  rw [Bindings.find?_push]
  split
  · rfl
  · next hother =>
      -- it is not the youngest table, so it was made before
      refine hkept other ⟨age, ?_, haddress⟩
      refine (Nat.lt_succ_iff_lt_or_eq.mp hage).resolve_right ?_
      rintro rfl
      exact hother (congrArg TableId.mk haddress)

end State

/-- Every single change of a run leaves the heap as it is or adds to it. -/
theorem heapGrowth : Discipline (fun state later => state.heap.GrowsInto later.heap)
    fun state later => state.heap.GrowsInto later.heap where
  expressions_refl state := .refl state.heap
  expressions_trans _ _ _ := .trans
  statements_refl state := .refl state.heap
  statements_trans _ _ _ := .trans
  embed _ _ := id
  allocate state table := .allocate state.heap table
  takeLine _ := .of_eq State.heap_takeLine
  printLine state _ := .refl state.heap
  declare state _ _ := .refl state.heap
  assign _ _ _ _ _ := State.heap_growsInto_assign
  define state _ := .refl state.heap
  call _ _ _ _ _ hentered hlater :=
    (Heap.GrowsInto.of_eq (State.heap_enterCall hentered)).trans hlater
  loop _ _ _ := id

/-- A run has all tables in the end that it began with. -/
theorem Task.heap_growsInto {α : Type} (task : Task α) (fuel : Nat) {state later : State}
    (hends : (task.run fuel state).state? = some later) : state.heap.GrowsInto later.heap :=
  heapGrowth.logic.executes_run [] fuel task state later hends

/-- Every single change of a run keeps the tables that were made. -/
theorem tablesKept : Invariant State.KeepsTables where
  allocate _ table hkept := hkept.allocate table
  takeLine _ hkept := hkept.congr State.heap_takeLine
  printLine _ _ hkept := hkept.congr rfl
  declare _ _ _ hkept := hkept.congr rfl
  assign _ _ _ _ _ hassign hkept := hkept.assign hassign
  define _ _ hkept := hkept.congr rfl
  enterCall _ _ _ _ hentered hkept := hkept.congr (State.heap_enterCall hentered)
  leaveCall _ _ _ _ _ hkept := hkept.congr rfl
  enterLoop _ _ hkept := hkept.congr rfl
  leaveLoop _ _ _ _ _ hkept := hkept.congr rfl

/-- A session keeps them too. -/
theorem Session.Reaches.keepsTables {host : Host} {callLimit : Nat} {input : List InputLine}
    {output : Output} {state : State}
    (hreached : Session.Reaches host callLimit input output state) : state.KeepsTables := by
  refine hreached.of_moments ?_ ?_ ?_ fun fuel task _ _ => tablesKept.moments fuel task
  · -- no table was made yet
    rintro identity ⟨age, hage, -⟩
    exact absurd hage (Nat.not_lt_zero age)
  · exact fun _ hkept => hkept.congr rfl
  · exact fun _ _ _ hkept => hkept.congr rfl

end TableScript
