import TableScript.Heap
import TableScript.Proofs.Values.Equality

/-!
# The entries of a table

What storing a value does to the entries.  A lookup ends at an entry that the key is equal to
(`Value.fits_eq_equals`), and no two keys of a table are equal.  Where at most one entry answers a
key it does not matter how lookups end, and storing changes that entry alone; a key that is not
written as a zero is such a key, and its entry is the one with the same text.
-/

namespace TableScript

/-! ## Lists in which at most one item has a property -/

section Unique

variable {α : Type} {holds : α → Bool} {items : List α} {place : Nat} {item : α}

/-- At most one of the items has a property. -/
def AtMostOne (holds : α → Bool) (items : List α) : Prop :=
  items.Pairwise fun earlier later => holds earlier = true → holds later = false

theorem AtMostOne.rest_eq_false {first : α} {rest : List α}
    (hone : AtMostOne holds (first :: rest)) (hfirst : holds first = true) :
    ∀ later ∈ rest, holds later = false :=
  fun later hlater => (List.pairwise_cons.mp hone).1 later hlater hfirst

/-- The one item with the property is not the first if it stands behind it. -/
theorem AtMostOne.first_eq_false {first : α} {rest : List α}
    (hone : AtMostOne holds (first :: rest)) (hitem : item ∈ rest) (hholds : holds item = true) :
    holds first = false := by
  refine Bool.eq_false_iff.mpr fun hfirst => ?_
  rw [hone.rest_eq_false hfirst item hitem] at hholds
  cases hholds

/-- And it has one place. -/
theorem AtMostOne.place_eq {place' : Nat} {item' : α} (hone : AtMostOne holds items)
    (hitem : items[place]? = some item) (hholds : holds item = true)
    (hitem' : items[place']? = some item') (hholds' : holds item' = true) : place = place' := by
  have hapart {first second : Nat} {earlier later : α} (hearlier : items[first]? = some earlier)
      (hlater : items[second]? = some later) (hfirst : holds earlier = true)
      (hsecond : holds later = true) : ¬ first < second := by
    intro hlt
    obtain ⟨hle, rfl⟩ := List.getElem?_eq_some_iff.mp hearlier
    obtain ⟨hle', rfl⟩ := List.getElem?_eq_some_iff.mp hlater
    rw [List.pairwise_iff_getElem.mp hone first second hle hle' hlt hfirst] at hsecond
    cases hsecond
  have hle := hapart hitem hitem' hholds hholds'
  have hge := hapart hitem' hitem hholds' hholds
  omega

theorem AtMostOne.find?_eq (hone : AtMostOne holds items) (hitem : items[place]? = some item)
    (hholds : holds item = true) : items.find? holds = some item := by
  induction items generalizing place with
  | nil => simp at hitem
  | cons first rest ih =>
      cases place with
      | zero =>
          cases hitem
          exact List.find?_cons_of_pos hholds
      | succ place =>
          have hfirst := hone.first_eq_false (List.mem_of_getElem? hitem) hholds
          rw [List.find?_cons_of_neg (by simp [hfirst])]
          exact ih (List.pairwise_cons.mp hone).2 hitem

theorem AtMostOne.eraseIdx_eq_filter (hone : AtMostOne holds items)
    (hitem : items[place]? = some item) (hholds : holds item = true) :
    items.eraseIdx place = items.filter fun other => !holds other := by
  induction items generalizing place with
  | nil => simp at hitem
  | cons first rest ih =>
      cases place with
      | zero =>
          cases hitem
          have hrest := hone.rest_eq_false hholds
          rw [List.eraseIdx_zero, List.tail_cons, List.filter_cons_of_neg (by simp [hholds])]
          exact (List.filter_eq_self.mpr fun later hlater => by simp [hrest later hlater]).symm
      | succ place =>
          have hfirst := hone.first_eq_false (List.mem_of_getElem? hitem) hholds
          rw [List.eraseIdx_cons_succ, List.filter_cons_of_pos (by simp [hfirst])]
          exact congrArg (first :: ·) (ih (List.pairwise_cons.mp hone).2 hitem)

theorem AtMostOne.modify_eq_map {change : α → α} (hone : AtMostOne holds items)
    (hitem : items[place]? = some item) (hholds : holds item = true) :
    items.modify place change =
      items.map fun other => if holds other then change other else other := by
  induction items generalizing place with
  | nil => simp at hitem
  | cons first rest ih =>
      cases place with
      | zero =>
          cases hitem
          have hkept :
              rest.map (fun other => if holds other then change other else other) = rest := by
            refine (List.map_congr_left fun later hlater => ?_).trans (List.map_id rest)
            rw [hone.rest_eq_false hholds later hlater]
            rfl
          rw [List.modify_zero_cons, List.map_cons, if_pos hholds, hkept]
      | succ place =>
          have hfirst := hone.first_eq_false (List.mem_of_getElem? hitem) hholds
          rw [List.modify_succ_cons, List.map_cons, if_neg (by simp [hfirst])]
          exact congrArg (first :: ·) (ih (List.pairwise_cons.mp hone).2 hitem)

end Unique

namespace Table

variable {table : Table} {key value query : Value}

/-! ## What all tables have in common -/

theorem ne_nil_of_mem {entry : Value × Value} (hentry : entry ∈ table.entries) :
    entry.2 ≠ .nil := by
  intro hnil
  have hvalue := table.wellFormed.values entry hentry
  rw [hnil] at hvalue
  cases hvalue

theorem valid_of_mem {entry : Value × Value} (hentry : entry ∈ table.entries) :
    entry.1.invalidKey? = none :=
  table.wellFormed.keys entry hentry

/-- No two keys of a table are equal. -/
theorem keys_distinct (table : Table) :
    (table.entries.map Prod.fst).Pairwise fun earlier later =>
      earlier.equals later = false ∧ later.equals earlier = false := by
  refine table.wellFormed.distinct.imp fun {earlier later} hdiffer => ?_
  rw [Value.fits_eq_equals] at hdiffer
  exact ⟨hdiffer, Value.equals_symm later earlier ▸ hdiffer⟩

theorem fits_nil {entry : Value × Value} (hentry : entry ∈ table.entries) :
    entry.1.fits .nil = false := by
  rw [Value.fits_eq_equals]
  exact Value.equals_nil (Value.ne_nil_of_valid (valid_of_mem hentry))

theorem get_nil : table.get .nil = .nil := by
  have hnone : table.place? .nil = none := place?_eq_none_iff.mpr fun _ => fits_nil
  rw [get, hnone]
  rfl

/-! ## Keys that at most one entry answers -/

/-- At most one entry answers a key, so that a lookup with it can end in one way only. -/
def Decides (table : Table) (query : Value) : Prop :=
  AtMostOne (fun entry => entry.1.fits query) table.entries

theorem Decides.get_eq (hdecides : table.Decides query) :
    table.get query =
      ((table.entries.find? fun entry => entry.1.fits query).map Prod.snd).getD .nil := by
  cases hplace : table.place? query with
  | none =>
      have hnone : (table.entries.find? fun entry => entry.1.fits query) = none := by
        simpa using place?_eq_none_iff.mp hplace
      rw [get, hplace, hnone]
      rfl
  | some place =>
      obtain ⟨entry, hentry, hfits⟩ := fits_of_place? hplace
      rw [get, hplace, hdecides.find?_eq hentry hfits, Option.bind_some, hentry]
      rfl

/-- The entries alone say where such a lookup ends. -/
theorem Decides.place?_congr {other : Table} (hdecides : table.Decides key)
    (hsame : other.entries = table.entries) : other.place? key = table.place? key := by
  cases hplace : table.place? key with
  | none => rw [place?_eq_none_iff, hsame, ← place?_eq_none_iff, hplace]
  | some place =>
      cases hplace' : other.place? key with
      | none =>
          rw [place?_eq_none_iff, hsame, ← place?_eq_none_iff, hplace] at hplace'
          cases hplace'
      | some place' =>
          obtain ⟨entry, hentry, hfits⟩ := fits_of_place? hplace
          obtain ⟨entry', hentry', hfits'⟩ := fits_of_place? hplace'
          rw [hsame] at hentry'
          exact congrArg some (hdecides.place_eq hentry' hfits' hentry hfits)

/-- Taking out leaves the entries that do not answer the key. -/
theorem Decides.takeAt_eq (hdecides : table.Decides key) :
    takeAt table.entries (table.place? key) =
      table.entries.filter fun entry => !entry.1.fits key := by
  cases hplace : table.place? key with
  | none =>
      have hnone := place?_eq_none_iff.mp hplace
      exact (List.filter_eq_self.mpr fun entry hentry => by simp [hnone entry hentry]).symm
  | some place =>
      obtain ⟨entry, hentry, hfits⟩ := fits_of_place? hplace
      exact hdecides.eraseIdx_eq_filter hentry hfits

/-- Putting in replaces the value of the entry that answers the key. -/
theorem Decides.putAt_eq_map (hdecides : table.Decides key)
    (hpresent : ∃ entry ∈ table.entries, entry.1.fits key = true) :
    putAt table.entries key value (table.place? key) =
      table.entries.map fun entry => if entry.1.fits key then (entry.1, value) else entry := by
  cases hplace : table.place? key with
  | none =>
      obtain ⟨entry, hentry, hfits⟩ := hpresent
      rw [place?_eq_none_iff.mp hplace entry hentry] at hfits
      cases hfits
  | some place =>
      obtain ⟨entry, hentry, hfits⟩ := fits_of_place? hplace
      exact hdecides.modify_eq_map hentry hfits

/-- Where no entry answers the key, the new entry is the last one. -/
theorem putAt_absent (habsent : ∀ entry ∈ table.entries, entry.1.fits key = false) :
    putAt table.entries key value (table.place? key) = table.entries ++ [(key, value)] := by
  rw [place?_eq_none_iff.mpr habsent, putAt]

/-! ## Keys that are told apart by their texts -/

theorem fits_iff_text {entry : Value × Value} (hentry : entry ∈ table.entries)
    (hzeros : ¬ (entry.1.WrittenZero ∧ query.WrittenZero)) (hquery : query ≠ .nil) :
    entry.1.fits query = true ↔ entry.1.text = query.text := by
  rw [Value.fits_eq_equals]
  exact Value.key_equals_iff_text (valid_of_mem hentry) hzeros hquery

/-- No two entries whose keys have one text that is not a zero. -/
theorem texts_differ {earlier later : Value × Value} (hearlier : earlier ∈ table.entries)
    (hlater : later ∈ table.entries) (hdiffer : earlier.1.fits later.1 = false)
    (hzero : ¬ earlier.1.WrittenZero) : earlier.1.text ≠ later.1.text := by
  intro hsame
  have hnil := Value.ne_nil_of_valid (valid_of_mem hlater)
  rw [(fits_iff_text hearlier (fun hzeros => hzero hzeros.1) hnil).mpr hsame] at hdiffer
  cases hdiffer

/-- A key that is not written as a zero is answered by one entry at most. -/
theorem decides_of_not_writtenZero (hkey : ¬ query.WrittenZero) : table.Decides query := by
  refine (List.pairwise_map.mp table.wellFormed.distinct).imp_of_mem ?_
  intro earlier later hearlier hlater hdiffer hfits
  refine Bool.eq_false_iff.mpr fun hlast => ?_
  have hquery : query ≠ .nil := by
    rintro rfl
    exact absurd hfits (by simp [fits_nil hearlier])
  have hfirst := (fits_iff_text hearlier (fun hzeros => hkey hzeros.2) hquery).mp hfits
  have hsecond := (fits_iff_text hlater (fun hzeros => hkey hzeros.2) hquery).mp hlast
  have hzero : ¬ earlier.1.WrittenZero := by
    unfold Value.WrittenZero at hkey ⊢
    rwa [hfirst]
  exact texts_differ hearlier hlater hdiffer hzero (hfirst.trans hsecond.symm)

/-- No key of the table is written as a zero. -/
def Plain (table : Table) : Prop := ∀ entry ∈ table.entries, ¬ entry.1.WrittenZero

namespace Plain

theorem fits_iff (hplain : table.Plain) (hquery : query ≠ .nil) :
    ∀ entry ∈ table.entries, entry.1.fits query = true ↔ entry.1.text = query.text := by
  intro entry hentry
  exact fits_iff_text hentry (fun hzeros => hplain entry hentry hzeros.1) hquery

theorem decides (hplain : table.Plain) (hquery : query ≠ .nil) : table.Decides query := by
  refine (List.pairwise_map.mp table.wellFormed.distinct).imp_of_mem ?_
  intro earlier later hearlier hlater hdiffer hfits
  refine Bool.eq_false_iff.mpr fun hlast => ?_
  refine texts_differ hearlier hlater hdiffer (hplain earlier hearlier) ?_
  exact ((hplain.fits_iff hquery earlier hearlier).mp hfits).trans
    ((hplain.fits_iff hquery later hlater).mp hlast).symm

/-- A key is looked up by its text. -/
theorem get_eq (hplain : table.Plain) (hquery : query ≠ .nil) :
    table.get query =
      ((table.entries.find? fun entry => entry.1.text = query.text).map Prod.snd).getD .nil := by
  have hfind : (table.entries.find? fun entry => entry.1.fits query) =
      table.entries.find? fun entry => entry.1.text = query.text := by
    refine List.find?_congr fun entry hentry => ?_
    rw [Bool.eq_iff_iff, hplain.fits_iff hquery entry hentry, decide_eq_true_eq]
  rw [(hplain.decides hquery).get_eq, hfind]

/-- Taking out leaves the entries with another text. -/
theorem takeAt_eq_filter (hplain : table.Plain) (hkey : key ≠ .nil) :
    takeAt table.entries (table.place? key) =
      table.entries.filter fun entry => entry.1.text ≠ key.text := by
  rw [(hplain.decides hkey).takeAt_eq]
  refine List.filter_congr fun entry hentry => ?_
  rw [Bool.eq_iff_iff, Bool.not_eq_true', ← Bool.not_eq_true, hplain.fits_iff hkey entry hentry,
    decide_eq_true_eq]

/-- Putting in replaces the value where the text is. -/
theorem putAt_eq_map (hplain : table.Plain) (hkey : key ≠ .nil)
    (hpresent : ∃ entry ∈ table.entries, entry.1.text = key.text) :
    putAt table.entries key value (table.place? key) =
      table.entries.map fun entry =>
        if entry.1.text = key.text then (entry.1, value) else entry := by
  have hfound := hplain.fits_iff hkey
  obtain ⟨entry, hentry, hsame⟩ := hpresent
  rw [(hplain.decides hkey).putAt_eq_map ⟨entry, hentry, (hfound entry hentry).mpr hsame⟩]
  refine List.map_congr_left fun other hother => ?_
  simp only [hfound other hother]

end Plain

end Table

end TableScript
