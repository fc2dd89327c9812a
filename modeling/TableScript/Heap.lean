import TableScript.Bindings
import TableScript.Table

/-!
# The heap

All tables, each found by its identity.  Where a new table is kept is up to the machine that a
program runs on, and so is where lookups end that two entries answer; a program runs in the same way
on every machine as far as it does not print or compare the address of a table.
-/

namespace TableScript

/-- What the machine decides that a program runs on. -/
structure Host where
  /-- The address of a new table, by the number of tables made before it. -/
  address : Nat → Nat
  /-- No two tables have one address. -/
  address_injective : ∀ first second, address first = address second → first = second
  /-- Where lookups in tables end. -/
  probe : Table.Probe

/-- A machine that puts tables in a row and lets every lookup end at the first entry. -/
def Host.plain : Host where
  address age := 0x560000000000 + 64 * age
  address_injective := by omega
  probe _ _ := 0

/-- All tables, each found by its identity. -/
structure Heap where
  host : Host
  /-- The number of tables made. -/
  made : Nat
  tables : Bindings TableId Table

namespace Heap

/-- The heap without tables. -/
def start (host : Host) : Heap := ⟨host, 0, .empty⟩

/-- A table without entries. -/
def newTable (heap : Heap) : Table := .empty heap.host.probe

/-- The table with an identity. -/
def table (heap : Heap) (identity : TableId) : Table :=
  (heap.tables.find? identity).getD heap.newTable

/-- Puts a table into the heap under an identity that no table had. -/
def allocate (heap : Heap) (table : Table) : TableId × Heap :=
  let identity : TableId := ⟨heap.host.address heap.made⟩
  (identity, { heap with made := heap.made + 1, tables := heap.tables.push identity table })

/-- Puts another table in the place of one. -/
def replace (heap : Heap) (identity : TableId) (table : Table) : Heap :=
  { heap with tables := heap.tables.insert identity table }

end Heap

end TableScript
