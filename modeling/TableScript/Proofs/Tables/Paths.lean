import TableScript.Action
import TableScript.Proofs.Run.Changes
import TableScript.Proofs.Tables.History

/-!
# Index paths

Reading and storing walk along an index path in two loops, which part at nil: what is read through
nil is nil, and what is stored through nil is refused.  Both get to the same tables, though
(`State.reach_eq_ok_iff`), so that a value can be stored where the path before the last key reads as
a table.

Tables are shared, and the table that is stored into may be one that the path goes through.  What
was stored is read back if no step of the path looks it up (`assign_read`).  That is the frame rule
for paths: a path reads as before if the tables on it answer the keys asked of them as before
(`State.follow_congr`).
-/

namespace TableScript

/-! ## What is found after storing -/

namespace Value

variable {key entry query : Value}

theorem fits_self (hkey : key.invalidKey? = none) : key.fits key = true := by
  rw [fits_eq_equals, equals_self_iff]
  cases key with
  | float number => exact isNaN_of_valid hkey
  | _ => rfl

/-- What answers a key does not answer something that is not equal to the key. -/
theorem fits_other (hkey : key.invalidKey? = none) (hplain : ¬ key.WrittenZero)
    (hentry : entry.invalidKey? = none) (hfits : entry.fits key = true)
    (hother : query.equals key = false) : entry.fits query = false := by
  rw [fits_eq_equals] at hfits ⊢
  by_cases hquery : query = .nil
  · subst hquery
    exact equals_nil (ne_nil_of_valid hentry)
  · -- the entry has the text of the key, so it is not written as a zero either
    have htext : entry.text = key.text :=
      (key_equals_iff_text hentry (fun hzeros => hplain hzeros.2) (ne_nil_of_valid hkey)).mp hfits
    have hzero : ¬ entry.WrittenZero := by
      unfold WrittenZero at hplain ⊢
      rwa [htext]
    refine Bool.eq_false_iff.mpr fun hfound => ?_
    have hsame : entry.text = query.text :=
      (key_equals_iff_text hentry (fun hzeros => hzero hzeros.1) hquery).mp hfound
    have hequal : key.equals query = true :=
      (key_equals_iff_text hkey (fun hzeros => hplain hzeros.1) hquery).mpr (htext.symm.trans hsame)
    rw [equals_symm, hequal] at hother
    cases hother

end Value

namespace Table

variable {table stored : Table} {key value query : Value}

/-- To replace a value is to keep the key. -/
theorem fits_comp_replace :
    (fun entry : Value × Value => entry.1.fits query) ∘
      (fun entry : Value × Value => if entry.1.fits key then (entry.1, value) else entry) =
      fun entry => entry.1.fits query := by
  funext entry
  simp only [Function.comp_apply]
  split <;> rfl

/-- What was put in under a key is found there. -/
theorem Decides.find?_putAt_self (hdecides : table.Decides key) (hkey : key.invalidKey? = none) :
    ((putAt table.entries key value (table.place? key)).find? fun entry =>
      entry.1.fits key).map Prod.snd = some value := by
  by_cases hpresent : ∃ entry ∈ table.entries, entry.1.fits key = true
  · obtain ⟨entry, hfound⟩ := Option.isSome_iff_exists.mp (List.find?_isSome.mpr hpresent)
    rw [hdecides.putAt_eq_map hpresent, List.find?_map, fits_comp_replace, hfound, Option.map_some,
      if_pos (List.find?_some hfound), Option.map_some]
  · have habsent : ∀ entry ∈ table.entries, entry.1.fits key = false := by
      simpa using hpresent
    have hnone : (table.entries.find? fun entry => entry.1.fits key) = none := by
      simpa using habsent
    rw [putAt_absent habsent, List.find?_append, hnone, Option.none_or]
    simp [Value.fits_self hkey]

/-- What was stored under a key is what the key then leads to. -/
theorem get_set_self (hplain : ¬ key.WrittenZero) (hset : table.set key value = .ok stored) :
    stored.get key = value := by
  obtain ⟨hkey, hstored⟩ := entries_of_set hset
  have hdecides (table : Table) : table.Decides key := decides_of_not_writtenZero hplain
  rw [(hdecides stored).get_eq]
  obtain ⟨rfl, hentries⟩ | ⟨-, hentries⟩ := hstored
  · rw [hentries, (hdecides table).takeAt_eq]
    have hnone : ((table.entries.filter fun entry => !entry.1.fits key).find? fun entry =>
        entry.1.fits key) = none := by
      simp
    rw [hnone]
    rfl
  · rw [hentries, (hdecides table).find?_putAt_self hkey]
    rfl

/-- What is stored under a key that does not answer a query leaves at most one entry that does. -/
theorem Decides.of_set (hdecides : table.Decides query) (hset : table.set key value = .ok stored)
    (hkey : key.fits query = false) : stored.Decides query := by
  obtain ⟨-, ⟨-, hentries⟩ | ⟨-, hentries⟩⟩ := entries_of_set hset
  · rw [Decides, hentries]
    exact hdecides.sublist takeAt_sublist
  · rw [Decides, AtMostOne, hentries]
    cases table.place? key with
    | none =>
        refine List.pairwise_append.mpr ⟨hdecides, List.pairwise_singleton _ _, ?_⟩
        rintro earlier - later hlater -
        obtain rfl := List.mem_singleton.mp hlater
        exact hkey
    | some place =>
        -- the keys are the same, and only they matter
        have hkeys : (table.entries.map Prod.fst).Pairwise fun earlier later =>
            earlier.fits query = true → later.fits query = false := List.pairwise_map.mpr hdecides
        rw [← keys_modify table.entries place value] at hkeys
        exact List.pairwise_map.mp hkeys

/-- Other keys lead to what they led to, if at most one entry answers them. -/
theorem get_set_other (hplain : ¬ key.WrittenZero) (hset : table.set key value = .ok stored)
    (hother : query.equals key = false) (hquery : table.Decides query) :
    stored.get query = table.get query := by
  obtain ⟨hkey, hstored⟩ := entries_of_set hset
  have hdecides : table.Decides key := decides_of_not_writtenZero hplain
  -- an entry that the key fits is not one that the query fits, since the two are not equal
  have hapart : ∀ entry ∈ table.entries, entry.1.fits key = true → entry.1.fits query = false :=
    fun entry hentry hfits => Value.fits_other hkey hplain (valid_of_mem hentry) hfits hother
  have hnew : key.fits query = false :=
    Value.fits_other hkey hplain hkey (Value.fits_self hkey) hother
  rw [(hquery.of_set hset hnew).get_eq, hquery.get_eq]
  obtain ⟨-, hentries⟩ | ⟨-, hentries⟩ := hstored
  · rw [hentries, hdecides.takeAt_eq, List.find?_filter]
    congr 2
    refine List.find?_congr fun entry hentry => ?_
    cases hfits : entry.1.fits key with
    | false => simp
    | true => simp [hapart entry hentry hfits]
  · rw [hentries]
    -- the entry changes where it is, or goes to the end; either way the query passes it over
    by_cases hpresent : ∃ entry ∈ table.entries, entry.1.fits key = true
    · rw [hdecides.putAt_eq_map hpresent, List.find?_map, fits_comp_replace]
      cases hfound : table.entries.find? fun entry => entry.1.fits query with
      | none => rfl
      | some entry =>
          have hkept : ¬ entry.1.fits key = true := fun hfits => by
            have hquery' := List.find?_some hfound
            rw [hapart entry (List.mem_of_find?_eq_some hfound) hfits] at hquery'
            cases hquery'
          rw [Option.map_some, if_neg hkept]
    · have habsent : ∀ entry ∈ table.entries, entry.1.fits key = false := by
        simpa using hpresent
      rw [putAt_absent habsent, List.find?_append]
      simp [hnew]

end Table

/-! ## Tables in the heap -/

namespace Heap

variable {heap : Heap} {identity other : TableId} {table : Table}

theorem table_replace_self : (heap.replace identity table).table identity = table := by
  unfold Heap.table Heap.replace
  rw [Bindings.find?_insert, if_pos rfl, Option.getD_some]

theorem table_replace_other (hother : other ≠ identity) :
    (heap.replace identity table).table other = heap.table other := by
  unfold Heap.table Heap.replace
  rw [Bindings.find?_insert, if_neg hother.symm]
  rfl

theorem table_allocate_self : (heap.allocate table).2.table (heap.allocate table).1 = table := by
  unfold Heap.table Heap.allocate
  rw [Bindings.find?_push, if_pos rfl, Option.getD_some]

theorem table_allocate_other (hother : other ≠ (heap.allocate table).1) :
    (heap.allocate table).2.table other = heap.table other := by
  exact congrArg (Option.getD · heap.newTable)
    ((Bindings.find?_push heap.tables _ other table).trans (if_neg hother.symm))

end Heap

/-! ## Following a path -/

namespace State

section Paths

variable {heap later : Heap} {name : String} {visited keys : List Value}
  {current result key : Value} {identity : TableId}

/-- **Storing gets where reading gets**: the keys lead to a table that can be stored into if what
they lead to reads as that table. -/
theorem reach_eq_ok_iff :
    reach heap name visited current keys = .ok identity ↔
      follow heap name visited current keys = .ok (.table identity) := by
  induction keys generalizing visited current with
  | nil => cases current <;> simp [reach, follow]
  | cons key rest ih =>
      cases current with
      | table other => exact ih
      | _ => simp [reach, follow]

/-- Where storing gets nowhere, the fault is one of type. -/
theorem kind_of_reach_error {cause : Cause}
    (hreach : reach heap name visited current keys = .error cause) : cause.kind = .type := by
  induction keys generalizing visited current with
  | nil =>
      cases current with
      | table identity => cases hreach
      | _ => cases hreach; rfl
  | cons key rest ih =>
      cases current with
      | table identity => exact ih hreach
      | _ => cases hreach; rfl

/-- One more key is asked of the table that the keys before it lead to. -/
theorem follow_concat (hfollow : follow heap name visited current keys = .ok (.table identity)) :
    follow heap name visited current (keys ++ [key]) = .ok ((heap.table identity).get key) := by
  induction keys generalizing visited current with
  | nil =>
      cases hfollow
      rfl
  | cons first rest ih =>
      cases current with
      | table other => exact ih hfollow
      | _ => cases hfollow

/-- **Tables that answer as before lead where they led**: a path reads the same in two heaps if the
tables that it comes through give the same under the keys that it asks them for. -/
theorem follow_congr
    (hsame : ∀ before step after identity, keys = before ++ step :: after →
      follow heap name visited current before = .ok (.table identity) →
      (later.table identity).get step = (heap.table identity).get step) :
    follow later name visited current keys = follow heap name visited current keys := by
  induction keys generalizing visited current with
  | nil => rfl
  | cons key rest ih =>
      cases current with
      | table identity =>
          have hstep : (later.table identity).get key = (heap.table identity).get key :=
            hsame [] key rest identity rfl rfl
          calc follow later name visited (.table identity) (key :: rest)
              = follow later name (visited ++ [key]) ((heap.table identity).get key) rest := by
                rw [← hstep]
                rfl
            _ = follow heap name (visited ++ [key]) ((heap.table identity).get key) rest := by
                refine ih fun before step after other hkeys hbefore => ?_
                exact hsame (key :: before) step after other (congrArg (key :: ·) hkeys) hbefore
      | _ => rfl

end Paths

/-! ## Storing at the end of a path -/

variable {state later : State} {name : String} {path : List Value} {key value : Value}

theorem setEntry_eq_ok_iff {identity : TableId} :
    (∃ later, state.setEntry identity key value = .ok later) ↔ key.invalidKey? = none := by
  unfold setEntry
  cases hset : (state.heap.table identity).set key value with
  | ok table => simpa using (Table.entries_of_set hset).1
  | error problem => simp [Table.set_eq_error_iff.mp hset]

/-- An assignment with keys stores under the last one, into the table that the others lead to. -/
theorem assign_concat :
    state.assign name (path ++ [key]) value =
      (reach state.heap name [] (state.scope.lookup name) path).bind
        fun identity => state.setEntry identity key value := by
  unfold assign
  rw [List.getLast?_concat, List.dropLast_concat]
  cases reach state.heap name [] (state.scope.lookup name) path <;> rfl

/-- It succeeds if the others read as a table and the last one can be a key. -/
theorem assign_concat_eq_ok_iff :
    (∃ later, state.assign name (path ++ [key]) value = .ok later) ↔
      (∃ identity, state.read name path = .ok (.table identity)) ∧ key.invalidKey? = none := by
  rw [assign_concat]
  cases hreach : reach state.heap name [] (state.scope.lookup name) path with
  | ok identity =>
      have hread : state.read name path = .ok (.table identity) := reach_eq_ok_iff.mp hreach
      rw [Except.bind, setEntry_eq_ok_iff, hread]
      simp
  | error cause =>
      have hnone : ¬ ∃ identity, state.read name path = .ok (.table identity) := by
        rintro ⟨identity, hread⟩
        rw [reach_eq_ok_iff.mpr hread] at hreach
        cases hreach
      simp [Except.bind, hnone]

theorem assign_concat_cases (hassign : state.assign name (path ++ [key]) value = .ok later) :
    ∃ identity table, state.read name path = .ok (.table identity) ∧
      (state.heap.table identity).set key value = .ok table ∧
      later = { state with heap := state.heap.replace identity table } := by
  rcases assign_cases hassign with ⟨hkeys, -⟩ | ⟨last, identity, table, hlast, hreach, hset, hlater⟩
  · simp at hkeys
  · rw [List.getLast?_concat, Option.some.injEq] at hlast
    rw [List.dropLast_concat] at hreach
    subst hlast
    exact ⟨identity, table, reach_eq_ok_iff.mp hreach, hset, hlater⟩

theorem kind_of_assign_error {keys : List Value} {cause : Cause}
    (hassign : state.assign name keys value = .error cause) : cause.kind = .type := by
  unfold assign at hassign
  split at hassign
  · cases hassign
  · split at hassign
    · unfold setEntry at hassign
      split at hassign
      · cases hassign
      · cases hassign
        rfl
    · next hreach =>
        cases hassign
        exact kind_of_reach_error hreach

end State

/-- **What is stored at the end of a path is what the path then reads.**  A value can be stored
under a key at the end of a path if and only if the path reads as a table and the key is neither nil
nor a floating-point number that is not a number; then the entry of that one table is all that
changes, and else the fault is one of type and nothing changes.  After the value is stored, the path
with the key reads as the value, unless a step of the path looks up in that very table a key that is
equal to the one stored under.  A key that is written as a zero is left aside, as the one stored
under and as one looked up that two entries of the table answer: where such a lookup ends can change
with anything that is stored. -/
theorem assign_read (state : State) (name : String) (path : List Value) (key value : Value) :
    ((∃ later, state.assign name (path ++ [key]) value = .ok later) ↔
      (∃ identity, state.read name path = .ok (.table identity)) ∧
        key ≠ .nil ∧ ¬ ∃ number : Float, key = .float number ∧ number.isNaN = true) ∧
    (∀ later, state.assign name (path ++ [key]) value = .ok later →
      ∃ identity table, state.read name path = .ok (.table identity) ∧
        (state.heap.table identity).set key value = .ok table ∧
        later = { state with heap := state.heap.replace identity table } ∧
        later.heap.table identity = table ∧
        (∀ other, other ≠ identity → later.heap.table other = state.heap.table other) ∧
        (¬ key.WrittenZero →
          (∀ before step after, path = before ++ step :: after →
            state.read name before = .ok (.table identity) →
            step.equals key = false ∧
              (step.WrittenZero → (state.heap.table identity).Decides step)) →
          later.read name (path ++ [key]) = .ok value)) ∧
    (∀ cause, state.assign name (path ++ [key]) value = .error cause →
      cause.kind = .type ∧ ∀ position : Position,
        Action.attempt position (·.assign name (path ++ [key]) value) state =
          .failed ⟨cause, position⟩ state) := by
  refine ⟨?_, ?_, ?_⟩
  · -- the two kinds of keys that a table refuses
    have hvalid : key.invalidKey? = none ↔
        key ≠ .nil ∧ ¬ ∃ number : Float, key = .float number ∧ number.isNaN = true := by
      cases key with
      | nil => simp [Value.invalidKey?]
      | float number => simp [Value.invalidKey?]
      | _ => simp [Value.invalidKey?]
    rw [State.assign_concat_eq_ok_iff, hvalid]
  · intro later hassign
    obtain ⟨identity, table, hread, hset, rfl⟩ := State.assign_concat_cases hassign
    refine ⟨identity, table, hread, hset, rfl, Heap.table_replace_self,
      fun other => Heap.table_replace_other, ?_⟩
    intro hplain hsteps
    -- the path leads to the table as before, since no step of it asks for the new entry
    have hpath : State.follow (state.heap.replace identity table) name []
        (state.scope.lookup name) path = .ok (.table identity) := by
      refine (State.follow_congr fun before step after other hkeys hbefore => ?_).trans hread
      by_cases hother : other = identity
      · subst hother
        obtain ⟨hdiffer, hzero⟩ := hsteps before step after hkeys hbefore
        rw [Heap.table_replace_self]
        -- a step through this very table, so it has to ask for another key
        refine Table.get_set_other hplain hset hdiffer ?_
        exact (em step.WrittenZero).elim hzero Table.decides_of_not_writtenZero
      · rw [Heap.table_replace_other hother]
    calc State.follow (state.heap.replace identity table) name [] (state.scope.lookup name)
          (path ++ [key])
        = .ok (((state.heap.replace identity table).table identity).get key) :=
          State.follow_concat hpath
      _ = .ok (table.get key) := by rw [Heap.table_replace_self]
      _ = .ok value := by rw [Table.get_set_self hplain hset]
  · intro cause hassign
    refine ⟨State.kind_of_assign_error hassign, fun position => ?_⟩
    simp only [Action.attempt, hassign]

/-- A state with one table, which holds itself under a key. -/
def selfHolding : State :=
  let (identity, heap) := (Heap.start .plain).allocate
    (.ofHistory Host.plain.probe [(.string "self", .table ⟨Host.plain.address 0⟩)])
  { State.start .plain 5 [] (.kept "") with
    scope := (Scope.start 5).store "t" (.table identity)
    heap := heap }

/-- What is stored through a table into itself is read back at the end of the path. -/
theorem assign_read_selfHolding :
    ∃ later, selfHolding.assign "t" [.string "self", .string "x"] (.integer 1) = .ok later ∧
      later.read "t" [.string "self", .string "x"] = .ok (.integer 1) := by
  obtain ⟨hsucceeds, hchanges, -⟩ :=
    assign_read selfHolding "t" [.string "self"] (.string "x") (.integer 1)
  obtain ⟨later, hassign⟩ := hsucceeds.mpr ⟨⟨⟨Host.plain.address 0⟩, rfl⟩, by simp, by simp⟩
  obtain ⟨identity, table, -, -, -, -, -, hback⟩ := hchanges later hassign
  refine ⟨later, hassign, hback (by decide) ?_⟩
  intro before step after hpath _
  obtain rfl : step = .string "self" := by
    cases before with
    | nil => exact (List.cons.inj hpath).1.symm
    | cons first rest => simp at hpath
  exact ⟨rfl, fun hzero => absurd hzero (by decide)⟩

end TableScript
