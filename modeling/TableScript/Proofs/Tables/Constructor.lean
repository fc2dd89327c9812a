import TableScript.Proofs.Run.Fuel
import TableScript.Proofs.Run.HeapGrowth
import TableScript.Proofs.Tables.Paths

/-!
# Table constructors

A table constructor evaluates its fields from left to right, the key before the value, and stores
what each one gives before it goes on to the next.  A field without a key has the number that it has
among such fields.  So the table is that of a history (`outcome_constructor`), and under each key it
holds what the last field with an equal key gave.

To store nil is to take out.  A field whose value is nil adds nothing to the table, but it does away
with what an earlier field put under an equal key.  Where there is no such earlier field, the table
is the one without the fields whose value is nil (`Table.entries_ofHistory_withoutNils`).  Under a
single key the two tables differ exactly if the last field with the key takes out what one before it
put in (`History.lastEqual?_withoutNils_iff`).
-/

namespace TableScript

/-! ## The last of several fields -/

namespace History

/-- The value that was last stored under an equal key, if one was. -/
def lastEqual? (history : List (Value × Value)) (query : Value) : Option Value :=
  (history.reverse.find? fun write => write.1.equals query).map Prod.snd

/-- What was stored, without what took something out. -/
def withoutNils (history : List (Value × Value)) : List (Value × Value) :=
  history.filter fun write => !write.2.isNil

/-- No nil is stored under a key after a value under an equal one. -/
def TakesNothingOut (history : List (Value × Value)) : Prop :=
  history.Pairwise fun earlier later =>
    later.2 = .nil → earlier.1.equals later.1 = true → earlier.2 = .nil

/-- Keys that can be keys and of which none is written as a zero. -/
def PlainKeys (history : List (Value × Value)) : Prop :=
  ∀ write ∈ history, write.1.invalidKey? = none ∧ ¬ write.1.WrittenZero

variable {history : List (Value × Value)} {write : Value × Value} {key query value : Value}

theorem lastEqual?_snoc :
    lastEqual? (history ++ [write]) query =
      if write.1.equals query then some write.2 else lastEqual? history query := by
  unfold lastEqual?
  rw [List.reverse_append, List.reverse_singleton, List.singleton_append, List.find?_cons]
  cases write.1.equals query <;> rfl

/-- Where only nil was stored under equal keys, nothing is there. -/
theorem lastEqual?_getD_of_nils
    (hnils : ∀ write ∈ history, write.1.equals query = true → write.2 = .nil) :
    (lastEqual? history query).getD .nil = .nil := by
  unfold lastEqual?
  cases hfind : history.reverse.find? fun write => write.1.equals query with
  | none => rfl
  | some write =>
      have hmem : write ∈ history := List.mem_reverse.mp (List.mem_of_find?_eq_some hfind)
      have hequal := List.find?_some hfind
      exact hnils write hmem hequal

theorem withoutNils_snoc_nil (hnil : write.2 = .nil) :
    withoutNils (history ++ [write]) = withoutNils history := by
  simp [withoutNils, hnil, Value.isNil]

theorem withoutNils_snoc_value (hvalue : write.2 ≠ .nil) :
    withoutNils (history ++ [write]) = withoutNils history ++ [write] := by
  simp [withoutNils, Value.isNil_eq_false_iff.mpr hvalue]

theorem ne_nil_of_lastEqual?_withoutNils
    (hlast : lastEqual? (withoutNils history) query = some value) : value ≠ .nil := by
  obtain ⟨write, hfound, rfl⟩ := Option.map_eq_some_iff.mp hlast
  have hmem : write ∈ withoutNils history := List.mem_reverse.mp (List.mem_of_find?_eq_some hfound)
  have hkept := (List.mem_filter.mp hmem).2
  rwa [Bool.not_eq_true', Value.isNil_eq_false_iff] at hkept

/-- What was stored last is still so if what took something out is left out, unless it was nil. -/
theorem lastEqual?_withoutNils (hlast : lastEqual? history query ≠ some .nil) :
    lastEqual? (withoutNils history) query = lastEqual? history query := by
  induction history using List.reverseRecOn with
  | nil => rfl
  | append_singleton history write ih =>
      rw [lastEqual?_snoc] at hlast ⊢
      by_cases hequal : write.1.equals query = true
      · rw [if_pos hequal] at hlast ⊢
        have hvalue : write.2 ≠ .nil := fun hnil => hlast (congrArg some hnil)
        rw [withoutNils_snoc_value hvalue, lastEqual?_snoc, if_pos hequal]
      · rw [if_neg hequal] at hlast ⊢
        by_cases hnil : write.2 = .nil
        · rw [withoutNils_snoc_nil hnil, ih hlast]
        · rw [withoutNils_snoc_value hnil, lastEqual?_snoc, if_neg hequal, ih hlast]

/-- To leave out what took something out makes a difference under a key exactly if something is
taken out there in the end. -/
theorem lastEqual?_withoutNils_iff :
    (lastEqual? history query).getD .nil = (lastEqual? (withoutNils history) query).getD .nil ↔
      (lastEqual? history query = some .nil → lastEqual? (withoutNils history) query = none) := by
  by_cases hnil : lastEqual? history query = some .nil
  · rw [hnil, Option.getD_some]
    cases hkept : lastEqual? (withoutNils history) query with
    | none => simp
    | some value => simp [eq_comm, ne_nil_of_lastEqual?_withoutNils hkept]
  · rw [lastEqual?_withoutNils hnil]
    exact iff_of_true rfl fun htaken => absurd htaken hnil

end History

namespace Table

open History

variable {probe : Probe} {history : List (Value × Value)} {key value : Value}

theorem set_eq_store (table : Table) (hkey : key.invalidKey? = none) :
    table.set key value = .ok (table.store (key, value)) := by
  unfold store
  cases hset : table.set key value with
  | ok stored => rfl
  | error problem =>
      rw [set_eq_error_iff, hkey] at hset
      cases hset

/-- A table holds under a key what was last stored under an equal one. -/
theorem get_ofHistory_eq_lastEqual? (hkeys : PlainKeys history) (query : Value) :
    (ofHistory probe history).get query = (lastEqual? history query).getD .nil := by
  have hplain : ∀ write ∈ history, ¬ write.1.WrittenZero :=
    fun write hwrite => (hkeys write hwrite).2
  have hvalid : ∀ write ∈ history.reverse, write.1.invalidKey? = none :=
    fun write hwrite => (hkeys write (List.mem_reverse.mp hwrite)).1
  by_cases hquery : query = .nil
  · subst hquery
    have hnone : history.reverse.find? (fun write => write.1.equals .nil) = none := by
      rw [List.find?_eq_none]
      intro write hwrite
      simp [Value.equals_nil (Value.ne_nil_of_valid (hvalid write hwrite))]
    rw [get_nil, lastEqual?, hnone]
    rfl
  · have hsame : ∀ write ∈ history.reverse, writesUnder query write = write.1.equals query := by
      intro write hwrite
      have hkey := hkeys write (List.mem_reverse.mp hwrite)
      have htext := Value.key_equals_iff_text hkey.1 (fun hzeros => hkey.2 hzeros.1) hquery
      rw [Bool.eq_iff_iff, htext]
      simp [writesUnder, accepted, hkey.1]
    rw [get_ofHistory hplain hquery, lastWritten, lastEqual?, List.find?_congr hsame]

/-- To take out what is not there changes nothing. -/
theorem entries_store_nil {table : Table} (hkey : key.invalidKey? = none)
    (habsent : table.get key = .nil) : (table.store (key, .nil)).entries = table.entries := by
  have hplace : table.place? key = none := by
    cases hplace : table.place? key with
    | none => rfl
    | some place =>
        obtain ⟨entry, hentry, -⟩ := fits_of_place? hplace
        rw [get, hplace, Option.bind_some, hentry] at habsent
        exact absurd habsent (ne_nil_of_mem (List.mem_of_getElem? hentry))
  obtain ⟨-, hstored⟩ | ⟨hvalue, -⟩ := entries_store table .nil hkey
  · rw [hstored, hplace, takeAt]
  · exact absurd rfl hvalue

/-- **Where no nil follows a value under an equal key, nils can be left out.** -/
theorem entries_ofHistory_withoutNils (hkeys : PlainKeys history)
    (hkept : TakesNothingOut history) :
    (ofHistory probe history).entries = (ofHistory probe (withoutNils history)).entries := by
  induction history using List.reverseRecOn with
  | nil => rfl
  | append_singleton history write ih =>
      obtain ⟨hbefore, -, hlast⟩ := List.pairwise_append.mp hkept
      have hearlier : PlainKeys history := fun earlier hmem => hkeys earlier (by simp [hmem])
      rw [ofHistory_snoc]
      -- a nil that takes nothing out is stored where nothing is, and changes no entry
      by_cases hnil : write.2 = .nil
      · have hkey := (hkeys write (by simp)).1
        have habsent : (ofHistory probe history).get write.1 = .nil := by
          rw [get_ofHistory_eq_lastEqual? hearlier]
          exact lastEqual?_getD_of_nils fun earlier hmem hequal =>
            hlast earlier hmem write (by simp) hnil hequal
        have hstore : ((ofHistory probe history).store write).entries =
            (ofHistory probe history).entries := by
          rw [← Prod.mk.eta (p := write), hnil]
          exact entries_store_nil hkey habsent
        rw [hstore, withoutNils_snoc_nil hnil, ih hearlier hbefore]
      · rw [withoutNils_snoc_value hnil, ofHistory_snoc]
        have hdecides : (ofHistory probe (withoutNils history)).Decides write.1 :=
          decides_of_not_writtenZero (hkeys write (by simp)).2
        exact hdecides.entries_store_congr (ih hearlier hbefore)

end Table

/-! ## The fields of a constructor -/

/-- What a field of a table constructor gives: its key, if it has one, and its value. -/
structure GivenField where
  key? : Option Value
  value : Value

/-- Fields are evaluated from left to right, the key before the value, and all of them give
something. -/
inductive FieldsGive : List Field → State → List GivenField → State → Prop
  | nil (state : State) : FieldsGive [] state [] state
  | positional {source : Expression} {rest : List Field} {state middle later : State} {item : Value}
      {given : List GivenField}
      (hvalue : (Task.expression source).outcome state = .done item middle)
      (hrest : FieldsGive rest middle given later) :
      FieldsGive (.positional source :: rest) state (⟨none, item⟩ :: given) later
  | keyed {name source : Expression} {rest : List Field} {state named middle later : State}
      {key item : Value} {given : List GivenField}
      (hkey : (Task.expression name).outcome state = .done key named)
      (hvalue : (Task.expression source).outcome named = .done item middle)
      (hrest : FieldsGive rest middle given later) :
      FieldsGive (.keyed name source :: rest) state (⟨some key, item⟩ :: given) later

/-- What is stored for fields that follow `count` fields without a key: each value under its key or,
if it has none, under its number among such fields. -/
def storedAfter (count : Nat) (given : List GivenField) : List (Value × Value) :=
  given.mapIdx fun index field =>
    let unkeyed := (given.take (index + 1)).countP (·.key?.isNone)
    (field.key?.getD (.integer (.ofNat (count + unkeyed))), field.value)

/-- What a constructor stores, in the order of its fields. -/
def storedBy (given : List GivenField) : List (Value × Value) := storedAfter 0 given

section Constructor

variable {fields : List Field} {given : List GivenField} {state later : State} {key item : Value}

theorem storedAfter_positional (count : Nat) :
    storedAfter count (⟨none, item⟩ :: given) =
      (.integer (.ofNat (count + 1)), item) :: storedAfter (count + 1) given := by
  simp [storedAfter, List.mapIdx_cons, Nat.add_assoc, Nat.add_comm 1]

theorem storedAfter_keyed (count : Nat) :
    storedAfter count (⟨some key, item⟩ :: given) = (key, item) :: storedAfter count given := by
  simp [storedAfter, List.mapIdx_cons]

/-- The loop over the fields stores what they give, one after the other. -/
theorem outcome_tableFields (hgive : FieldsGive fields state given later)
    (hkeys : ∀ field ∈ given, ∀ key ∈ field.key?, key.invalidKey? = none) (count : Nat)
    (table : Table) :
    (Task.tableFields (count + 1) table fields).outcome state =
      .done ((storedAfter count given).foldl Table.store table) later := by
  -- the loop counts from one on, and a field without a key is stored under its count
  induction hgive generalizing count table with
  | nil state =>
      rw [Task.outcome_eq]
      rfl
  | @positional source rest state middle later item given hvalue _ ih =>
      have hstored : Action.check source.position
          ((table.set (.integer (.ofNat (count + 1))) item).mapError .invalidKey) middle =
          .done (table.store (.integer (.ofNat (count + 1)), item)) middle := by
        rw [Table.set_eq_store table rfl]
        rfl
      rw [Task.outcome_eq]
      simp only [Task.plan, Task.ofFields, Plan.carryOut_bind, Plan.carryOut_work,
        Plan.carryOut_act]
      rw [Action.bind_of_done hvalue, Action.bind_of_done hstored, storedAfter_positional,
        List.foldl_cons]
      exact ih (fun field hfield => hkeys field (List.mem_cons_of_mem _ hfield)) (count + 1) _
  | @keyed name source rest state named middle later key item given hkey hvalue _ ih =>
      have hvalid : key.invalidKey? = none := hkeys _ List.mem_cons_self key rfl
      have hstored : Action.check source.position
          ((table.set key item).mapError .invalidKey) middle =
          .done (table.store (key, item)) middle := by
        rw [Table.set_eq_store table hvalid]
        rfl
      rw [Task.outcome_eq]
      simp only [Task.plan, Task.ofFields, Plan.carryOut_bind, Plan.carryOut_work,
        Plan.carryOut_act]
      rw [Action.bind_of_done hkey, Action.bind_of_done hvalue, Action.bind_of_done hstored,
        storedAfter_keyed, List.foldl_cons]
      exact ih (fun field hfield => hkeys field (List.mem_cons_of_mem _ hfield)) count _

/-- A constructor gives a new table, that of what its fields store. -/
theorem outcome_constructor (hgive : FieldsGive fields state given later)
    (hkeys : ∀ field ∈ given, ∀ key ∈ field.key?, key.invalidKey? = none) (position : Position) :
    (Task.expression (.table fields position)).outcome state =
      .done (.table (later.allocate (.ofHistory state.heap.host.probe (storedBy given))).1)
        (later.allocate (.ofHistory state.heap.host.probe (storedBy given))).2 := by
  have hnew : Action.newTable state = .done state.heap.newTable state := rfl
  have hfields := outcome_tableFields hgive hkeys 0 state.heap.newTable
  rw [Task.outcome_eq]
  simp only [Task.plan, Task.ofExpression, Plan.carryOut_bind, Plan.carryOut_work,
    Plan.carryOut_act]
  rw [Action.bind_of_done hnew]
  exact Action.bind_of_done hfields

/-- No integer is written as a zero in floating point. -/
theorem not_writtenZero_integer (number : Int64) : ¬ (Value.integer number).WrittenZero := by
  rintro (hzero | hzero)
  · exact Number.floatText_ne_integerText 0 number.toInt (Number.floatText_zero.trans hzero.symm)
  · exact Number.floatText_ne_integerText (-0) number.toInt
      (Number.floatText_negZero.trans hzero.symm)

theorem plainKeys_storedBy
    (hkeys : ∀ field ∈ given, ∀ key ∈ field.key?, key.invalidKey? = none ∧ ¬ key.WrittenZero) :
    History.PlainKeys (storedBy given) := by
  intro write hwrite
  obtain ⟨index, hindex, rfl⟩ := List.mem_mapIdx.mp hwrite
  cases hkey : given[index].key? with
  | none => exact ⟨rfl, not_writtenZero_integer _⟩
  | some key => exact hkeys _ (List.getElem_mem hindex) key hkey

end Constructor

/-! ## The result -/

open History

/-- **A table constructor gives the table of what its fields store.**  Let all fields evaluate from
left to right, the key before the value, to keys that can be keys and of which none is written as a
zero.  Then the constructor gives a table that was not there before, and does nothing else.  A field
without a key is stored under the number that it has among such fields, those that give nil
included.

Under each key the table holds what the last field with an equal key gave, and nil where there is
none.  That is what the last such field gave whose value is not nil, exactly if no field takes it
out in the end: either the last field with the key gives a value, or none does.  If no field that
gives nil follows one with an equal key that gives a value, the whole table is the one without the
fields that give nil. -/
theorem constructor_holds_last {fields : List Field} {given : List GivenField}
    {state later : State} (hgive : FieldsGive fields state given later)
    (hkeys : ∀ field ∈ given, ∀ key ∈ field.key?, key.invalidKey? = none ∧ ¬ key.WrittenZero)
    (position : Position) :
    let table (history : List (Value × Value)) := Table.ofHistory state.heap.host.probe history
    (∃ identity heap, (Task.expression (.table fields position)).outcome state =
        .done (.table identity) { later with heap := heap } ∧
      ¬ later.heap.Has identity ∧
      heap.table identity = table (storedBy given) ∧
      ∀ other, other ≠ identity → heap.table other = later.heap.table other) ∧
    storedBy given = (given.mapIdx fun index field =>
      (field.key?.getD (.integer (.ofNat ((given.take (index + 1)).countP (·.key?.isNone)))),
        field.value)) ∧
    (∀ query, (table (storedBy given)).get query =
      (lastEqual? (storedBy given) query).getD .nil) ∧
    (∀ query, (table (storedBy given)).get query =
        (lastEqual? (withoutNils (storedBy given)) query).getD .nil ↔
      (lastEqual? (storedBy given) query = some .nil →
        lastEqual? (withoutNils (storedBy given)) query = none)) ∧
    (TakesNothingOut (storedBy given) →
      (table (storedBy given)).entries = (table (withoutNils (storedBy given))).entries) := by
  intro table
  have hvalid : ∀ field ∈ given, ∀ key ∈ field.key?, key.invalidKey? = none :=
    fun field hfield key hkey => (hkeys field hfield key hkey).1
  have hplain : PlainKeys (storedBy given) := plainKeys_storedBy hkeys
  have hget (query : Value) : (table (storedBy given)).get query =
      (lastEqual? (storedBy given) query).getD .nil :=
    Table.get_ofHistory_eq_lastEqual? hplain query
  -- a table is new when it is allocated, after all fields; before that nobody can hold it
  refine ⟨?_, ?_, hget, fun query => ?_, Table.entries_ofHistory_withoutNils hplain⟩
  · refine ⟨_, _, outcome_constructor hgive hvalid position, ?_, ?_, ?_⟩
    · exact Heap.not_has_allocate (table (storedBy given))
    · exact Heap.table_allocate_self
    · exact fun other => Heap.table_allocate_other
  · simp only [storedBy, storedAfter, Nat.zero_add]
  · rw [hget, lastEqual?_withoutNils_iff]

/-- A key that is the text of a number collides with the field of that number, and a field that
gives nil is counted. -/
theorem constructor_holds_last_collidingKeys :
    ∃ identity heap, (Task.expression (.table
        [.positional (.number .integer "10" .start),
          .keyed (.string "1" .start) (.string "a" .start), .positional (.nil .start),
          .positional (.number .integer "30" .start)] .start)).outcome
        (.start .plain 5 [] (.kept "")) =
        .done (.table identity) { State.start .plain 5 [] (.kept "") with heap := heap } ∧
      (heap.table identity).get (.integer 1) = .string "a" ∧
      (heap.table identity).get (.integer 2) = .nil ∧
      (heap.table identity).get (.integer 3) = .integer 30 := by
  have hgive : FieldsGive
      [.positional (.number .integer "10" .start),
        .keyed (.string "1" .start) (.string "a" .start), .positional (.nil .start),
        .positional (.number .integer "30" .start)] (.start .plain 5 [] (.kept ""))
      [⟨none, .integer 10⟩, ⟨some (.string "1"), .string "a"⟩, ⟨none, .nil⟩, ⟨none, .integer 30⟩]
      (.start .plain 5 [] (.kept "")) :=
    .positional (Task.outcome_of_run 3 rfl) <|
      .keyed (Task.outcome_of_run 3 rfl) (Task.outcome_of_run 3 rfl) <|
      .positional (Task.outcome_of_run 3 rfl) <| .positional (Task.outcome_of_run 3 rfl) (.nil _)
  obtain ⟨⟨identity, heap, hends, -, htable, -⟩, -, hget, -, -⟩ :=
    constructor_holds_last hgive (by decide) .start
  refine ⟨identity, heap, hends, ?_, ?_, ?_⟩
  · rw [htable, hget]
    rfl
  · rw [htable, hget]
    rfl
  · rw [htable, hget]
    rfl

/-- A field that gives nil is not always as if it were not there: `x = nil` after `x = 1` takes `x`
out. -/
theorem constructor_takes_out :
    ¬ ∀ (fields : List Field) (given : List GivenField) (state later : State) (position : Position),
      FieldsGive fields state given later →
      (∀ field ∈ given, ∀ key ∈ field.key?, key.invalidKey? = none ∧ ¬ key.WrittenZero) →
      ∃ identity heap, (Task.expression (.table fields position)).outcome state =
          .done (.table identity) { later with heap := heap } ∧
        ∀ query, (heap.table identity).get query =
          (lastEqual? (withoutNils (storedBy given)) query).getD .nil := by
  intro hskipped
  have hgive : FieldsGive
      [.keyed (.string "x" .start) (.number .integer "1" .start),
        .keyed (.string "x" .start) (.nil .start)] (.start .plain 5 [] (.kept ""))
      [⟨some (.string "x"), .integer 1⟩, ⟨some (.string "x"), .nil⟩]
      (.start .plain 5 [] (.kept "")) :=
    .keyed (Task.outcome_of_run 3 rfl) (Task.outcome_of_run 3 rfl) <|
      .keyed (Task.outcome_of_run 3 rfl) (Task.outcome_of_run 3 rfl) (.nil _)
  obtain ⟨identity, heap, hends, hget⟩ := hskipped _ _ _ _ .start hgive (by decide)
  cases hends.symm.trans (outcome_constructor hgive (by decide) .start)
  -- with the nil left out, the last field with the key would be the first one
  have hfound : Value.nil = .integer 1 := hget (.string "x")
  cases hfound

end TableScript
