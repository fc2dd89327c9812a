import TableScript.Value.Compare

/-!
# Tables

A table is a list of entries in the order in which their keys came in.  A lookup finds an entry by
hashing: its key and the key that is asked for have to hash alike and to be equal in the language,
so that an integer and its text are one key.  No entry has nil as its value: storing nil removes the
entry.

Equality is not transitive at the zeros, so that a key can match two entries that do not match each
other: `0.0` is equal to the text `"0.0"` and to `-0.0`.  At which of the two a lookup ends is not
for the table to say.  It is left open here, as a function of all that was stored.
-/

namespace TableScript

/-- Why a value cannot be a key. -/
inductive InvalidKey where
  | nil | nan
  deriving DecidableEq, Repr

/-- The message about a value that cannot be a key. -/
def InvalidKey.message : InvalidKey → String
  | nil => "table index is nil"
  | nan => "table index is NaN"

namespace Value

/-- Why a value cannot be a key, if it cannot. -/
def invalidKey? : Value → Option InvalidKey
  | .nil => some .nil
  | .float value => if value.isNaN then some .nan else none
  | _ => none

/-- The text that a key is hashed by.  The negative zero equals the positive one as well as its own
text, so all of them are hashed by one text. -/
def hashForm (key : Value) : String :=
  let form := key.text
  if form = "-0.0" then "0.0" else form

/-- Whether a lookup can end at an entry with a key when it is asked for another. -/
def fits (held asked : Value) : Bool := held.equals asked && held.hashForm == asked.hashForm

end Value

namespace Table

/-- At which of the entries that a key fits a lookup ends, by all that was stored in the table, the
latest first, and the key; the number is taken modulo the number of these entries. -/
abbrev Probe := List (Value × Value) → Value → Nat

/-- The entries of a table all hold something, under keys that can be keys and that do not fit each
other. -/
structure WellFormed (entries : List (Value × Value)) : Prop where
  values : ∀ entry ∈ entries, entry.2.isNil = false
  keys : ∀ entry ∈ entries, entry.1.invalidKey? = none
  distinct : (entries.map Prod.fst).Pairwise fun earlier later => earlier.fits later = false

end Table

/-- Keys with their values, the key that came in first being the first. -/
structure Table where
  entries : List (Value × Value)
  /-- All that was stored, the latest first. -/
  stored : List (Value × Value)
  probe : Table.Probe
  wellFormed : Table.WellFormed entries

namespace Table

theorem wellFormed_nil : WellFormed [] := ⟨by simp, by simp, .nil⟩

/-- The table without entries. -/
def empty (probe : Probe) : Table := ⟨[], [], probe, wellFormed_nil⟩

/-- The number of entries. -/
def size (table : Table) : Nat := table.entries.length

/-! ## Looking up -/

/-- The places of the entries that a key fits, the first entry having the place given. -/
def placesFrom (key : Value) : Nat → List (Value × Value) → List Nat
  | _, [] => []
  | place, entry :: rest =>
    if entry.1.fits key then place :: placesFrom key (place + 1) rest
    else placesFrom key (place + 1) rest

theorem mem_placesFrom {key : Value} {start place : Nat} {entries : List (Value × Value)} :
    place ∈ placesFrom key start entries ↔
      ∃ index entry, entries[index]? = some entry ∧ entry.1.fits key = true ∧
        place = start + index := by
  induction entries generalizing start with
  | nil => simp [placesFrom]
  | cons first rest ih =>
      -- the first entry has the place itself, and the others one place more than in the rest
      have hsplit : (∃ index entry, (first :: rest)[index]? = some entry ∧
          entry.1.fits key = true ∧ place = start + index) ↔
          first.1.fits key = true ∧ place = start ∨
            ∃ index entry, rest[index]? = some entry ∧ entry.1.fits key = true ∧
              place = start + 1 + index := by
        constructor
        · rintro ⟨_ | index, entry, hentry, hfits, hplace⟩
          · cases hentry
            exact .inl ⟨hfits, hplace⟩
          · exact .inr ⟨index, entry, hentry, hfits, by omega⟩
        · rintro (⟨hfits, hplace⟩ | ⟨index, entry, hentry, hfits, hplace⟩)
          · exact ⟨0, first, rfl, hfits, hplace⟩
          · exact ⟨index + 1, entry, hentry, hfits, by omega⟩
      rw [hsplit, ← ih, placesFrom]
      split <;> simp [*]

/-- The place of the entry at which a lookup ends, if there is one that the key fits. -/
def place? (table : Table) (key : Value) : Option Nat :=
  let places := placesFrom key 0 table.entries
  places[table.probe table.stored key % places.length]?

/-- A lookup ends at an entry that the key fits. -/
theorem fits_of_place? {table : Table} {key : Value} {place : Nat}
    (hplace : table.place? key = some place) :
    ∃ entry, table.entries[place]? = some entry ∧ entry.1.fits key = true := by
  obtain ⟨index, entry, hentry, hfits, hsame⟩ := mem_placesFrom.mp (List.mem_of_getElem? hplace)
  rw [Nat.zero_add] at hsame
  exact ⟨entry, hsame ▸ hentry, hfits⟩

/-- A lookup ends nowhere if and only if the key fits no entry. -/
theorem place?_eq_none_iff {table : Table} {key : Value} :
    table.place? key = none ↔ ∀ entry ∈ table.entries, entry.1.fits key = false := by
  have hplaces : table.place? key = none ↔ placesFrom key 0 table.entries = [] := by
    unfold place?
    cases placesFrom key 0 table.entries with
    | nil => simp
    | cons place rest =>
        have hlt := Nat.mod_lt (table.probe table.stored key) (Nat.succ_pos rest.length)
        simpa using hlt
  rw [hplaces, List.eq_nil_iff_forall_not_mem]
  constructor
  · intro hnone entry hentry
    obtain ⟨index, hindex⟩ := List.mem_iff_getElem?.mp hentry
    refine Bool.eq_false_iff.mpr fun hfits => hnone (0 + index) ?_
    exact mem_placesFrom.mpr ⟨index, entry, hindex, hfits, rfl⟩
  · intro hnone place hplace
    obtain ⟨index, entry, hentry, hfits, -⟩ := mem_placesFrom.mp hplace
    rw [hnone entry (List.mem_of_getElem? hentry)] at hfits
    cases hfits

/-- The value that belongs to a key, or nil. -/
def get (table : Table) (key : Value) : Value :=
  match (table.place? key).bind (table.entries[·]?) with
  | some entry => entry.2
  | none => .nil

/-! ## Storing -/

/-- Replaces the value of the entry at a place, or puts a new entry at the end. -/
def putAt (entries : List (Value × Value)) (key value : Value) :
    Option Nat → List (Value × Value)
  | some place => entries.modify place fun entry => (entry.1, value)
  | none => entries ++ [(key, value)]

/-- Takes out the entry at a place, if there is one; those behind it move up. -/
def takeAt (entries : List (Value × Value)) : Option Nat → List (Value × Value)
  | some place => entries.eraseIdx place
  | none => entries

theorem WellFormed.sublist {entries fewer : List (Value × Value)} (hwell : WellFormed entries)
    (hfewer : fewer.Sublist entries) : WellFormed fewer where
  values := fun entry hentry => hwell.values entry (hfewer.subset hentry)
  keys := fun entry hentry => hwell.keys entry (hfewer.subset hentry)
  distinct := hwell.distinct.sublist (hfewer.map Prod.fst)

theorem takeAt_sublist {entries : List (Value × Value)} {place : Option Nat} :
    (takeAt entries place).Sublist entries := by
  cases place with
  | none => exact .refl _
  | some place => exact List.eraseIdx_sublist _ _

/-- An entry whose value is replaced keeps its key. -/
theorem keys_modify (entries : List (Value × Value)) (place : Nat) (value : Value) :
    (entries.modify place fun entry => (entry.1, value)).map Prod.fst =
      entries.map Prod.fst := by
  refine List.ext_getElem? fun index => ?_
  rw [List.getElem?_map, List.getElem?_map, List.getElem?_modify]
  cases entries[index]? with
  | none => rfl
  | some entry => by_cases hplace : place = index <;> simp [hplace]

theorem mem_putAt {entries : List (Value × Value)} {key value : Value} {place : Option Nat}
    {entry : Value × Value} (hentry : entry ∈ putAt entries key value place) :
    entry ∈ entries ∨ entry.2 = value ∧ (entry.1 = key ∨ ∃ old ∈ entries, old.1 = entry.1) := by
  cases place with
  | none =>
      rcases List.mem_append.mp hentry with hold | hnew
      · exact .inl hold
      · obtain rfl := List.mem_singleton.mp hnew
        exact .inr ⟨rfl, .inl rfl⟩
  | some place =>
      obtain ⟨index, hindex⟩ := List.mem_iff_getElem?.mp hentry
      rw [putAt, List.getElem?_modify] at hindex
      obtain ⟨old, hold, hsame⟩ := Option.map_eq_some_iff.mp hindex
      have hmember := List.mem_of_getElem? hold
      split at hsame
      · exact hsame ▸ .inr ⟨rfl, .inr ⟨old, hmember, rfl⟩⟩
      · exact hsame ▸ .inl hmember

/-- Every key is the new one or was there. -/
theorem forall_key_putAt {entries : List (Value × Value)} {key value : Value}
    {place : Option Nat} (holds : Value → Prop) (hold : ∀ entry ∈ entries, holds entry.1)
    (hkey : holds key) : ∀ entry ∈ putAt entries key value place, holds entry.1 := by
  intro entry hentry
  -- an entry that is overwritten keeps its key
  rcases mem_putAt hentry with hsame | ⟨-, rfl | ⟨old, hmember, hsame⟩⟩
  · exact hold entry hsame
  · exact hkey
  · exact hsame ▸ hold old hmember

theorem WellFormed.putAt {table : Table} {key value : Value} (hkey : key.invalidKey? = none)
    (hvalue : value.isNil = false) :
    WellFormed (Table.putAt table.entries key value (table.place? key)) where
  values := by
    intro entry hentry
    rcases mem_putAt hentry with hold | ⟨rfl, -⟩
    · exact table.wellFormed.values entry hold
    · exact hvalue
  keys := forall_key_putAt (fun key => key.invalidKey? = none) table.wellFormed.keys hkey
  distinct := by
    cases hplace : table.place? key with
    | some place =>
        rw [Table.putAt, keys_modify]
        exact table.wellFormed.distinct
    | none =>
        -- a key that fits no entry goes to the end
        rw [Table.putAt, List.map_append, List.pairwise_append]
        refine ⟨table.wellFormed.distinct, List.pairwise_singleton _ _, ?_⟩
        intro earlier hearlier later hlater
        obtain ⟨entry, hentry, rfl⟩ := List.mem_map.mp hearlier
        obtain rfl := List.mem_singleton.mp hlater
        exact place?_eq_none_iff.mp hplace entry hentry

/-- Stores a value that is not nil under a key that can be one.  An entry that is there keeps its
place and its key. -/
def insert (table : Table) (key value : Value) (hkey : key.invalidKey? = none)
    (hvalue : value.isNil = false) : Table where
  entries := putAt table.entries key value (table.place? key)
  stored := (key, value) :: table.stored
  probe := table.probe
  wellFormed := .putAt hkey hvalue

/-- Takes the entry of a key out of a table. -/
def remove (table : Table) (key : Value) : Table where
  entries := takeAt table.entries (table.place? key)
  stored := (key, .nil) :: table.stored
  probe := table.probe
  wellFormed := table.wellFormed.sublist takeAt_sublist

/-- Stores a value under a key; nil removes the entry. -/
def set (table : Table) (key value : Value) : Except InvalidKey Table :=
  match hkey : key.invalidKey? with
  | some problem => .error problem
  | none =>
    match hvalue : value.isNil with
    | true => .ok (table.remove key)
    | false => .ok (table.insert key value hkey hvalue)

end Table

end TableScript
