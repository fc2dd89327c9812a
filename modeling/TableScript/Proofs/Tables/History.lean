import TableScript.Proofs.Tables.Entries

/-!
# Tables as maps in the order of insertion

A table is what has been stored in it, one value after the other.  What it then holds is read off
the history alone: under each text the value that was stored last, and the keys in the order of
their last insertion, where a key that is stored under again while it is there keeps its place.
-/

namespace TableScript

theorem Value.isNil_iff {value : Value} : value.isNil = true ↔ value = .nil := by
  cases value <;> simp [Value.isNil]

theorem Value.isNil_eq_false_iff {value : Value} : value.isNil = false ↔ value ≠ .nil := by
  rw [← Bool.not_eq_true, Ne, Value.isNil_iff]

theorem Value.invalidKey?_eq_some_iff {key : Value} {problem : InvalidKey} :
    key.invalidKey? = some problem ↔ key = .nil ∧ problem = .nil ∨
      ∃ number : Float, key = .float number ∧ number.isNaN = true ∧ problem = .nan := by
  cases key with
  | nil => simp [invalidKey?, eq_comm]
  | float number => cases number.isNaN <;> simp [invalidKey?, eq_comm]
  | _ => simp [invalidKey?]

namespace Table

/-! ## Storing one value after the other -/

/-- The table after a key and a value have been stored; what is refused leaves it as it is. -/
def store (table : Table) (write : Value × Value) : Table :=
  match table.set write.1 write.2 with
  | .ok stored => stored
  | .error _ => table

/-- The table that keys and values have been stored in, in their order. -/
def ofHistory (probe : Probe) (history : List (Value × Value)) : Table :=
  history.foldl store (empty probe)

theorem ofHistory_snoc (probe : Probe) (history : List (Value × Value)) (write : Value × Value) :
    ofHistory probe (history ++ [write]) = (ofHistory probe history).store write := by
  rw [ofHistory, List.foldl_append]
  rfl

section Store

variable {table stored : Table} {key value : Value}

/-- What storing can do. -/
theorem set_cases (table : Table) (key value : Value) :
    (∃ problem, key.invalidKey? = some problem ∧ table.set key value = .error problem) ∨
    (key.invalidKey? = none ∧ value = .nil ∧ table.set key value = .ok (table.remove key)) ∨
    (∃ hkey hvalue, table.set key value = .ok (table.insert key value hkey hvalue)) := by
  unfold set
  split
  · next problem hkey => exact .inl ⟨problem, hkey, rfl⟩
  · next hkey =>
      split
      · next hnil => exact .inr (.inl ⟨hkey, Value.isNil_iff.mp hnil, rfl⟩)
      · next hvalue => exact .inr (.inr ⟨hkey, hvalue, rfl⟩)

theorem set_eq_error_iff {problem : InvalidKey} :
    table.set key value = .error problem ↔ key.invalidKey? = some problem := by
  obtain ⟨other, hkey, hset⟩ | ⟨hkey, -, hset⟩ | ⟨hkey, hvalue, hset⟩ := set_cases table key value
  all_goals simp [hkey, hset]

/-- The entries after something was stored. -/
theorem entries_of_set (hset : table.set key value = .ok stored) :
    key.invalidKey? = none ∧
      (value = .nil ∧ stored.entries = takeAt table.entries (table.place? key) ∨
        value ≠ .nil ∧ stored.entries = putAt table.entries key value (table.place? key)) := by
  obtain ⟨problem, -, hrefused⟩ | ⟨hkey, hnil, hstored⟩ | ⟨hkey, hvalue, hstored⟩ :=
    set_cases table key value
  · rw [hrefused] at hset
    cases hset
  · cases hstored.symm.trans hset
    exact ⟨hkey, .inl ⟨hnil, rfl⟩⟩
  · cases hstored.symm.trans hset
    exact ⟨hkey, .inr ⟨Value.isNil_eq_false_iff.mp hvalue, rfl⟩⟩

theorem store_refused {problem : InvalidKey} (hkey : key.invalidKey? = some problem) :
    table.store (key, value) = table := by
  rw [store, set_eq_error_iff.mpr hkey]

/-- The entries after a key and a value have been stored, if they are not refused. -/
theorem entries_store (table : Table) (value : Value) (hkey : key.invalidKey? = none) :
    value = .nil ∧ (table.store (key, value)).entries = takeAt table.entries (table.place? key) ∨
      value ≠ .nil ∧
        (table.store (key, value)).entries = putAt table.entries key value (table.place? key) := by
  cases hset : table.set key value with
  | error problem =>
      rw [set_eq_error_iff.mp hset] at hkey
      cases hkey
  | ok stored =>
      rw [store, hset]
      exact (entries_of_set hset).2

/-- Storing under a key that one entry answers at most is storing into the entries. -/
theorem Decides.entries_store_congr {other : Table} (hdecides : table.Decides key)
    (hsame : other.entries = table.entries) :
    (other.store (key, value)).entries = (table.store (key, value)).entries := by
  cases hkey : key.invalidKey? with
  | some problem => rw [store_refused hkey, store_refused hkey, hsame]
  | none =>
      have hplace := hdecides.place?_congr hsame
      obtain ⟨hnil, hstored⟩ | ⟨hvalue, hstored⟩ := entries_store table value hkey
      all_goals obtain ⟨hnil', hstored'⟩ | ⟨hvalue', hstored'⟩ :=
        entries_store other value hkey
      · rw [hstored, hstored', hsame, hplace]
      · exact absurd hnil hvalue'
      · exact absurd hnil' hvalue
      · rw [hstored, hstored', hsame, hplace]

theorem Plain.store (hplain : table.Plain) (hkey : ¬ key.WrittenZero) :
    (table.store (key, value)).Plain := by
  cases hvalid : key.invalidKey? with
  | some problem =>
      rw [store_refused hvalid]
      exact hplain
  | none =>
      unfold Plain
      obtain ⟨-, hentries⟩ | ⟨-, hentries⟩ := entries_store _ _ hvalid
      · rw [hentries]
        exact fun entry hentry => hplain entry (takeAt_sublist.subset hentry)
      · rw [hentries]
        exact forall_key_putAt (fun key => ¬ key.WrittenZero) hplain hkey

end Store

theorem plain_ofHistory {probe : Probe} {history : List (Value × Value)}
    (hplain : ∀ write ∈ history, ¬ write.1.WrittenZero) : (ofHistory probe history).Plain := by
  induction history using List.reverseRecOn with
  | nil => simp [Plain, ofHistory, empty]
  | append_singleton history write ih =>
      rw [ofHistory_snoc]
      have hearlier := ih fun earlier hearlier => hplain earlier (by simp [hearlier])
      exact hearlier.store (hplain write (by simp))

end Table

/-! ## What a history says -/

namespace History

/-- Whether something can be stored under the key. -/
def accepted (write : Value × Value) : Bool := write.1.invalidKey?.isNone

/-- Whether something is stored under the text of a key. -/
def writesUnder (query : Value) (write : Value × Value) : Bool :=
  accepted write && write.1.text == query.text

/-- The value that was last stored under the text of a key, and nil where there is none. -/
def lastWritten (history : List (Value × Value)) (query : Value) : Value :=
  ((history.reverse.find? (writesUnder query)).map Prod.snd).getD .nil

/-- Whether a value is put under a text that has none. -/
def inserts (earlier : List (Value × Value)) (write : Value × Value) : Bool :=
  accepted write && !write.2.isNil && (lastWritten earlier write.1).isNil

/-- What is put under a text that has none, in the order of the history. -/
def insertions (earlier : List (Value × Value)) : List (Value × Value) → List (Value × Value)
  | [] => []
  | write :: later =>
    if inserts earlier write then write :: insertions (earlier ++ [write]) later
    else insertions (earlier ++ [write]) later

/-- The last one with each text. -/
def lastOfEach : List (Value × Value) → List (Value × Value)
  | [] => []
  | write :: later =>
    if later.any fun other => other.1.text == write.1.text then lastOfEach later
    else write :: lastOfEach later

/-- The key with what it holds in the end, if it holds something. -/
def heldBy? (history : List (Value × Value)) (key : Value) : Option (Value × Value) :=
  if (lastWritten history key).isNil then none else some (key, lastWritten history key)

/-- The keys that hold something in the end, each with what it holds: in the order in which they
were last put in, and as they were then. -/
def liveEntries (history : List (Value × Value)) : List (Value × Value) :=
  (lastOfEach (insertions [] history)).filterMap fun write => heldBy? history write.1

section LastWritten

variable {history : List (Value × Value)} {key value query : Value}

theorem lastWritten_snoc (write : Value × Value) :
    lastWritten (history ++ [write]) query =
      if writesUnder query write then write.2 else lastWritten history query := by
  unfold lastWritten
  rw [List.reverse_append, List.reverse_singleton, List.singleton_append, List.find?_cons]
  cases writesUnder query write <;> rfl

/-- Only the text of a key matters. -/
theorem lastWritten_congr {query' : Value} (hsame : query.text = query'.text) :
    lastWritten history query = lastWritten history query' := by
  unfold lastWritten writesUnder
  rw [hsame]

theorem lastWritten_refused {problem : InvalidKey} (hkey : key.invalidKey? = some problem) :
    lastWritten (history ++ [(key, value)]) query = lastWritten history query := by
  rw [lastWritten_snoc, if_neg]
  simp [writesUnder, accepted, hkey]

theorem lastWritten_accepted (hkey : key.invalidKey? = none) :
    lastWritten (history ++ [(key, value)]) query =
      if key.text = query.text then value else lastWritten history query := by
  rw [lastWritten_snoc]
  simp [writesUnder, accepted, hkey]

end LastWritten

theorem insertions_snoc (earlier later : List (Value × Value)) (write : Value × Value) :
    insertions earlier (later ++ [write]) =
      insertions earlier later ++ if inserts (earlier ++ later) write then [write] else [] := by
  induction later generalizing earlier with
  | nil => simp [insertions]
  | cons first later ih =>
      have hrest := ih (earlier ++ [first])
      rw [List.append_assoc, List.singleton_append] at hrest
      simp only [List.cons_append, insertions, hrest]
      split <;> rfl

/-- One more with a text is the last one with it. -/
theorem lastOfEach_snoc (writes : List (Value × Value)) (write : Value × Value) :
    lastOfEach (writes ++ [write]) =
      (lastOfEach writes).filter (fun other => other.1.text ≠ write.1.text) ++ [write] := by
  induction writes with
  | nil => simp [lastOfEach]
  | cons first later ih =>
      rw [List.cons_append, lastOfEach, lastOfEach, List.any_append, ih]
      by_cases hlater : (later.any fun other => other.1.text == first.1.text) = true
      · simp [hlater]
      · rw [if_neg hlater]
        by_cases hsame : first.1.text = write.1.text
        · simp [hsame]
        · simp [hlater, hsame, Ne.symm hsame]

theorem exists_lastOfEach {writes : List (Value × Value)} {write : Value × Value}
    (hwrite : write ∈ writes) : ∃ last ∈ lastOfEach writes, last.1.text = write.1.text := by
  induction writes generalizing write with
  | nil => simp at hwrite
  | cons first later ih =>
      rw [lastOfEach]
      split
      · next hlater =>
          rcases List.mem_cons.mp hwrite with rfl | hwrite
          · obtain ⟨other, hother, hsame⟩ := List.any_eq_true.mp hlater
            rw [← eq_of_beq hsame]
            exact ih hother
          · exact ih hwrite
      · rcases List.mem_cons.mp hwrite with rfl | hwrite
        · exact ⟨write, List.mem_cons_self, rfl⟩
        · obtain ⟨last, hlast, hsame⟩ := ih hwrite
          exact ⟨last, List.mem_cons_of_mem _ hlast, hsame⟩

section LiveEntries

variable {history : List (Value × Value)} {key value query : Value} {entry : Value × Value}

theorem heldBy?_of_nil (hnil : lastWritten history key = .nil) : heldBy? history key = none := by
  rw [heldBy?, if_pos (Value.isNil_iff.mpr hnil)]

theorem heldBy?_of_ne_nil (hsome : lastWritten history key ≠ .nil) :
    heldBy? history key = some (key, lastWritten history key) := by
  rw [heldBy?, if_neg fun hnil => hsome (Value.isNil_iff.mp hnil)]

theorem heldBy?_eq_some_iff :
    heldBy? history key = some entry ↔
      lastWritten history key ≠ .nil ∧ (key, lastWritten history key) = entry := by
  by_cases hnil : lastWritten history key = .nil
  · simp [heldBy?_of_nil hnil, hnil]
  · simp [heldBy?_of_ne_nil hnil, hnil]

/-- Storing changes what is held under one text. -/
theorem heldBy?_snoc_of_ne (hkey : key.invalidKey? = none) (hother : query.text ≠ key.text) :
    heldBy? (history ++ [(key, value)]) query = heldBy? history query := by
  rw [heldBy?, lastWritten_accepted hkey, if_neg (Ne.symm hother), ← heldBy?]

theorem heldBy?_snoc_of_eq (hkey : key.invalidKey? = none) (hvalue : value ≠ .nil)
    (hsame : query.text = key.text) :
    heldBy? (history ++ [(key, value)]) query = some (query, value) := by
  have hlast : lastWritten (history ++ [(key, value)]) query = value := by
    rw [lastWritten_accepted hkey, if_pos hsame.symm]
  rw [heldBy?_of_ne_nil (hlast.symm ▸ hvalue), hlast]

theorem mem_liveEntries_iff :
    entry ∈ liveEntries history ↔
      ∃ write ∈ lastOfEach (insertions [] history), lastWritten history write.1 ≠ .nil ∧
        (write.1, lastWritten history write.1) = entry := by
  simp only [liveEntries, List.mem_filterMap, heldBy?_eq_some_iff]

/-- What holds something has been put in. -/
theorem exists_insertion (hlive : lastWritten history query ≠ .nil) :
    ∃ write ∈ insertions [] history, write.1.text = query.text := by
  induction history using List.reverseRecOn with
  | nil => exact absurd rfl hlive
  | append_singleton history write ih =>
      rw [insertions_snoc, List.nil_append]
      have hbefore : lastWritten history query ≠ .nil →
          ∃ other ∈ insertions [] history ++ (if inserts history write then [write] else []),
            other.1.text = query.text := by
        intro hlive
        obtain ⟨other, hother, hsame⟩ := ih hlive
        exact ⟨other, List.mem_append_left _ hother, hsame⟩
      rw [lastWritten_snoc] at hlive
      split at hlive
      · next hunder =>
          obtain ⟨haccepted, hsame⟩ : accepted write = true ∧ write.1.text = query.text := by
            simpa [writesUnder] using hunder
          -- the write is under the key: it puts the key in, unless the key held something before
          by_cases habsent : lastWritten history write.1 = .nil
          · have hinserts : inserts history write = true := by
              simp [inserts, haccepted, habsent, Bool.eq_false_iff, Value.isNil_iff, hlive]
            exact ⟨write, by simp [hinserts], hsame⟩
          · rw [lastWritten_congr hsame] at habsent
            exact hbefore habsent
      · exact hbefore hlive

theorem exists_liveEntry_iff :
    (∃ entry ∈ liveEntries history, entry.1.text = query.text) ↔
      lastWritten history query ≠ .nil := by
  constructor
  · rintro ⟨entry, hentry, hsame⟩
    obtain ⟨write, -, hlive, rfl⟩ := mem_liveEntries_iff.mp hentry
    rwa [← lastWritten_congr hsame]
  · intro hlive
    obtain ⟨inserted, hinserted, htext⟩ := exists_insertion hlive
    obtain ⟨write, hwrite, hlast⟩ := exists_lastOfEach hinserted
    have hsame : write.1.text = query.text := hlast.trans htext
    refine ⟨_, mem_liveEntries_iff.mpr ⟨write, hwrite, ?_, rfl⟩, hsame⟩
    rwa [lastWritten_congr hsame]

theorem insertions_kept {write : Value × Value} (hkept : inserts history write = false) :
    insertions [] (history ++ [write]) = insertions [] history := by
  simp [insertions_snoc, hkept]

theorem liveEntries_refused {problem : InvalidKey} (hkey : key.invalidKey? = some problem) :
    liveEntries (history ++ [(key, value)]) = liveEntries history := by
  have hkept : inserts history (key, value) = false := by simp [inserts, accepted, hkey]
  simp [liveEntries, insertions_kept hkept, heldBy?, lastWritten_refused hkey]

theorem liveEntries_removed (hkey : key.invalidKey? = none) :
    liveEntries (history ++ [(key, .nil)]) =
      (liveEntries history).filter fun entry => entry.1.text ≠ key.text := by
  have hkept : inserts history (key, .nil) = false := by simp [inserts, Value.isNil]
  unfold liveEntries
  rw [insertions_kept hkept, List.filter_filterMap]
  refine List.filterMap_congr fun write _ => ?_
  by_cases hsame : write.1.text = key.text
  · have hgone : lastWritten (history ++ [(key, .nil)]) write.1 = .nil := by
      rw [lastWritten_accepted hkey, if_pos hsame.symm]
    rw [heldBy?_of_nil hgone, heldBy?]
    split <;> simp [hsame, Option.filter_some]
  · rw [heldBy?_snoc_of_ne hkey hsame, heldBy?]
    split <;> simp [hsame, Option.filter_some]

theorem liveEntries_overwritten (hkey : key.invalidKey? = none) (hvalue : value ≠ .nil)
    (hpresent : lastWritten history key ≠ .nil) :
    liveEntries (history ++ [(key, value)]) = (liveEntries history).map fun entry =>
      if entry.1.text = key.text then (entry.1, value) else entry := by
  have hkept : inserts history (key, value) = false := by
    simp [inserts, Value.isNil_eq_false_iff, hpresent]
  unfold liveEntries
  rw [insertions_kept hkept, List.map_filterMap]
  refine List.filterMap_congr fun write _ => ?_
  by_cases hsame : write.1.text = key.text
  · rw [← lastWritten_congr hsame] at hpresent
    rw [heldBy?_snoc_of_eq hkey hvalue hsame, heldBy?_of_ne_nil hpresent]
    simp [hsame]
  · rw [heldBy?_snoc_of_ne hkey hsame, heldBy?]
    split <;> simp [hsame]

theorem liveEntries_inserted (hkey : key.invalidKey? = none) (hvalue : value ≠ .nil)
    (habsent : lastWritten history key = .nil) :
    liveEntries (history ++ [(key, value)]) = liveEntries history ++ [(key, value)] := by
  have hinserts : inserts history (key, value) = true := by
    simp [inserts, accepted, hkey, Value.isNil_iff.mpr habsent, Value.isNil_eq_false_iff.mpr hvalue]
  have hmore : insertions [] (history ++ [(key, value)]) =
      insertions [] history ++ [(key, value)] := by
    simp [insertions_snoc, hinserts]
  unfold liveEntries
  rw [hmore, lastOfEach_snoc, List.filterMap_append, List.filterMap_filter]
  congr 1
  · -- an older insertion of the key was followed by a removal, and is not listed any more
    refine List.filterMap_congr fun write _ => ?_
    by_cases hsame : write.1.text = key.text
    · rw [← lastWritten_congr hsame] at habsent
      simp [hsame, heldBy?_of_nil habsent]
    · simp [hsame, heldBy?_snoc_of_ne hkey hsame]
  · simp [heldBy?_snoc_of_eq hkey hvalue rfl]

end LiveEntries

end History

/-! ## Tables and their histories -/

namespace Table

open History

/-- The entries of a table are what its history says. -/
theorem entries_ofHistory {probe : Probe} {history : List (Value × Value)}
    (hplain : ∀ write ∈ history, ¬ write.1.WrittenZero) :
    (ofHistory probe history).entries = liveEntries history := by
  induction history using List.reverseRecOn with
  | nil => rfl
  | append_singleton history write ih =>
      obtain ⟨key, value⟩ := write
      have hearlier : ∀ write ∈ history, ¬ write.1.WrittenZero :=
        fun earlier hearlier => hplain earlier (by simp [hearlier])
      have htable : (ofHistory probe history).Plain := plain_ofHistory hearlier
      have hentries := ih hearlier
      rw [ofHistory_snoc]
      -- one case for each thing that a write can do: be refused, take out, put in, or overwrite
      cases hkey : key.invalidKey? with
      | some problem => rw [store_refused hkey, hentries, liveEntries_refused hkey]
      | none =>
          have hnil := Value.ne_nil_of_valid hkey
          obtain ⟨rfl, hstored⟩ | ⟨hvalue, hstored⟩ :=
            entries_store (ofHistory probe history) value hkey
          · rw [hstored, htable.takeAt_eq_filter hnil, hentries, liveEntries_removed hkey]
          · rw [hstored]
            by_cases hpresent : lastWritten history key = .nil
            · -- nothing is held under the text of the key, so no entry has it and none is found
              have habsent : ∀ entry ∈ (ofHistory probe history).entries,
                  entry.1.fits key = false := by
                intro entry hentry
                rw [Bool.eq_false_iff]
                intro hfits
                have hsame := (htable.fits_iff hnil entry hentry).mp hfits
                rw [hentries] at hentry
                exact exists_liveEntry_iff.mp ⟨entry, hentry, hsame⟩ hpresent
              rw [putAt_absent habsent, hentries, liveEntries_inserted hkey hvalue hpresent]
            · have hthere : ∃ entry ∈ (ofHistory probe history).entries,
                  entry.1.text = key.text := by
                rw [hentries]
                exact exists_liveEntry_iff.mpr hpresent
              rw [htable.putAt_eq_map hnil hthere, hentries,
                liveEntries_overwritten hkey hvalue hpresent]

/-- What a table holds under a key is what was last stored under the text of the key. -/
theorem get_ofHistory {probe : Probe} {history : List (Value × Value)} {query : Value}
    (hplain : ∀ write ∈ history, ¬ write.1.WrittenZero) (hquery : query ≠ .nil) :
    (ofHistory probe history).get query = lastWritten history query := by
  rw [(plain_ofHistory hplain).get_eq hquery, entries_ofHistory hplain]
  cases hfind : (liveEntries history).find? fun entry => entry.1.text = query.text with
  | none =>
      -- were something held, an entry would have the text of the key
      by_contra hlive
      obtain ⟨entry, hentry, hsame⟩ := exists_liveEntry_iff.mpr (Ne.symm hlive)
      have hnone := List.find?_eq_none.mp hfind entry hentry
      simp [hsame] at hnone
  | some entry =>
      have hsame : entry.1.text = query.text := by simpa using List.find?_some hfind
      obtain ⟨write, -, -, rfl⟩ := mem_liveEntries_iff.mp (List.mem_of_find?_eq_some hfind)
      exact lastWritten_congr hsame

end Table

/-- **A table is a map in the order of insertion.**  Whatever has been stored in it, and however
lookups end where two entries answer a key, no entry holds nil, no key is nil or is not a number, no
two keys are equal, and what is refused changes nothing.  Where no key is written as a zero, it
holds under each key what was last stored under the text of the key, and its entries are the keys
that hold something: in the order in which they were last put in while they held nothing, and as
they were then.  Entries are found by hashing, and this is enough as equal keys hash alike
(`Value.hashForm_eq_of_equals`). -/
theorem ofHistory_refines (probe : Table.Probe) (history : List (Value × Value)) :
    let table := Table.ofHistory probe history
    (∀ entry ∈ table.entries, entry.2 ≠ .nil) ∧
    (∀ entry ∈ table.entries, entry.1 ≠ .nil ∧
      ∀ number, entry.1 = .float number → number.isNaN = false) ∧
    ((table.entries.map Prod.fst).Pairwise fun earlier later =>
      earlier.equals later = false ∧ later.equals earlier = false) ∧
    (∀ key value problem, table.set key value = .error problem ↔
      key = .nil ∧ problem = .nil ∨
        ∃ number : Float, key = .float number ∧ number.isNaN = true ∧ problem = .nan) ∧
    (∀ key value problem, table.set key value = .error problem →
      Table.ofHistory probe (history ++ [(key, value)]) = table) ∧
    table.size = table.entries.length ∧
    table.get .nil = .nil ∧
    ((∀ write ∈ history, ¬ write.1.WrittenZero) →
      (∀ query, query ≠ .nil → table.get query = History.lastWritten history query) ∧
      table.entries = History.liveEntries history) := by
  intro table
  refine ⟨fun _ => Table.ne_nil_of_mem, ?_, table.keys_distinct, ?_, ?_, rfl, Table.get_nil, ?_⟩
  · intro entry hentry
    have hvalid := Table.valid_of_mem hentry
    refine ⟨Value.ne_nil_of_valid hvalid, fun number hnumber => ?_⟩
    exact Value.isNaN_of_valid (hnumber ▸ hvalid)
  · intro key value problem
    rw [Table.set_eq_error_iff, Value.invalidKey?_eq_some_iff]
  · intro key value problem hrefused
    rw [Table.ofHistory_snoc, Table.store_refused (Table.set_eq_error_iff.mp hrefused)]
  · -- without zeros a key is found by its text, and there is only one entry to find
    intro hplain
    exact ⟨fun query hquery => Table.get_ofHistory hplain hquery, Table.entries_ofHistory hplain⟩

/-- An overwritten key, a refused one, one that is taken out and put in again, and one that is found
by something that is not a number. -/
theorem ofHistory_refines_reinsertion :
    let history : List (Value × Value) :=
      [(.string "a", .boolean true), (.integer 1, .string "x"), (.string "1", .string "y"),
        (.nil, .string "z"), (.string "a", .nil), (.string "nan", .integer 2),
        (.string "a", .boolean false)]
    let table := Table.ofHistory Host.plain.probe history
    table.entries =
        [(.integer 1, .string "y"), (.string "nan", .integer 2), (.string "a", .boolean false)] ∧
      table.get (.float .nan) = .integer 2 := by
  intro history table
  have hplain : ∀ write ∈ history, ¬ write.1.WrittenZero := by decide
  obtain ⟨-, -, -, -, -, -, -, hrefines⟩ := ofHistory_refines Host.plain.probe history
  obtain ⟨hget, hentries⟩ := hrefines hplain
  have htext : (Value.float .nan).text = (Value.string "nan").text := by decide +kernel
  have hlast : History.lastWritten history (.string "nan") = .integer 2 := rfl
  refine ⟨hentries, ?_⟩
  rw [hget _ Value.noConfusion, History.lastWritten_congr htext, hlast]

/-- The text of the zero and the negative zero are two keys, and the zero equals both: a lookup with
it ends at the one or at the other. -/
example :
    let history : List (Value × Value) := [(.string "0.0", .integer 1), (.float (-0), .integer 2)]
    ((Table.ofHistory (fun _ _ => 0) history).get (.float 0)).text = "1" ∧
      ((Table.ofHistory (fun _ _ => 1) history).get (.float 0)).text = "2" := by
  decide +kernel

end TableScript
