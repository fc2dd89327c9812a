import TableScript.Proofs.Values.Floats

/-!
# What rounds to a number

Every finite number stands for an interval of reals.  The intervals of two numbers have nothing in
common, so a decimal that lies in one of them says which number it is.  The decimal that a number
is written with lies in its interval, whether the search for a short one found it or not.

What lies in the interval of a number is nearer to it than to any other, or as near
(`Interval.Covers.nearest`).
-/

namespace TableScript.Number

/-- The rational number that a decimal stands for. -/
def Decimal.value (decimal : Decimal) : ℚ := decimal.digits * 10 ^ decimal.exponent

namespace Interval

/-- The ends of an interval. -/
def lowValue (range : Interval) : ℚ := range.low * 2 ^ range.exponent

def highValue (range : Interval) : ℚ := range.high * 2 ^ range.exponent

/-- A rational number lies in an interval. -/
structure Covers (range : Interval) (value : ℚ) : Prop where
  least : range.lowValue ≤ value
  most : value ≤ range.highValue
  inside : range.closed = false → range.lowValue < value ∧ value < range.highValue

end Interval

/-! ## The search for a decimal -/

/-- A power with the negative part of its exponent taken away. -/
theorem zpow_mul_pow_toNat {base : ℚ} (hbase : base ≠ 0) (exponent : ℤ) :
    base ^ exponent * base ^ (-exponent).toNat = base ^ exponent.toNat := by
  rw [← zpow_natCast, ← zpow_natCast, ← zpow_add₀ hbase]
  congr 1
  omega

namespace Interval

section Contains

variable {range : Interval} {grid : Int} {point : Nat}

/-- Common units: both sides are multiplied by what their negative exponents take away. -/
theorem value_mul_units (range : Interval) (grid : Int) (point : Nat) :
    (point * 10 ^ grid : ℚ) * (10 ^ (-grid).toNat * 2 ^ (-range.exponent).toNat) =
      (point * range.gridFactor grid : Nat) := by
  have hten := zpow_mul_pow_toNat (show (10 : ℚ) ≠ 0 by norm_num) grid
  simp only [gridFactor, Nat.pow_eq]
  push_cast
  rw [← hten]
  ring

theorem bound_mul_units (range : Interval) (grid : Int) (bound : Nat) :
    (bound * 2 ^ range.exponent : ℚ) * (10 ^ (-grid).toNat * 2 ^ (-range.exponent).toNat) =
      (bound * range.unitFactor grid : Nat) := by
  have htwo := zpow_mul_pow_toNat (show (2 : ℚ) ≠ 0 by norm_num) range.exponent
  simp only [unitFactor, Nat.pow_eq]
  push_cast
  rw [← htwo]
  ring

theorem bound_le_value_iff (bound : Nat) :
    (bound * 2 ^ range.exponent : ℚ) ≤ point * 10 ^ grid ↔
      bound * range.unitFactor grid ≤ point * range.gridFactor grid := by
  have hunits : (0 : ℚ) < 10 ^ (-grid).toNat * 2 ^ (-range.exponent).toNat := by positivity
  rw [← mul_le_mul_iff_of_pos_right hunits, value_mul_units, bound_mul_units, Nat.cast_le]

theorem value_le_bound_iff (bound : Nat) :
    (point * 10 ^ grid : ℚ) ≤ bound * 2 ^ range.exponent ↔
      point * range.gridFactor grid ≤ bound * range.unitFactor grid := by
  have hunits : (0 : ℚ) < 10 ^ (-grid).toNat * 2 ^ (-range.exponent).toNat := by positivity
  rw [← mul_le_mul_iff_of_pos_right hunits, value_mul_units, bound_mul_units, Nat.cast_le]

/-- The comparison in natural numbers is the comparison of what they stand for. -/
theorem covers_of_contains (hcontains : range.contains grid point = true) :
    range.Covers (point * 10 ^ grid) := by
  unfold contains at hcontains
  cases hclosed : range.closed with
  | true =>
      simp only [hclosed, if_true, Bool.and_eq_true, decide_eq_true_eq] at hcontains
      obtain ⟨hlow, hhigh⟩ := hcontains
      refine ⟨(bound_le_value_iff _).mpr hlow, (value_le_bound_iff _).mpr hhigh, ?_⟩
      intro hopen
      rw [hclosed] at hopen
      cases hopen
  | false =>
      simp only [hclosed, Bool.false_eq_true, if_false, Bool.and_eq_true, decide_eq_true_eq]
        at hcontains
      obtain ⟨hlow, hhigh⟩ := hcontains
      have hleast : range.lowValue < point * 10 ^ grid :=
        (lt_iff_lt_of_le_iff_le (value_le_bound_iff _)).mpr hlow
      have hmost : (point * 10 ^ grid : ℚ) < range.highValue :=
        (lt_iff_lt_of_le_iff_le (bound_le_value_iff _)).mpr hhigh
      exact ⟨hleast.le, hmost.le, fun _ => ⟨hleast, hmost⟩⟩

theorem contains_of_nearest? {decimal : Decimal} (hnearest : range.nearest? grid = some decimal) :
    range.contains decimal.exponent decimal.digits = true := by
  unfold nearest? at hnearest
  dsimp only at hnearest
  split at hnearest
  · next hbelow habove =>
      split at hnearest <;> cases hnearest
      · exact hbelow
      · exact habove
  · next hbelow habove =>
      cases hnearest
      exact hbelow
  · next hbelow habove =>
      cases hnearest
      exact habove
  · cases hnearest

theorem contains_of_search {steps : Nat} {decimal : Decimal}
    (hsearch : range.search grid steps = some decimal) :
    range.contains decimal.exponent decimal.digits = true := by
  induction steps generalizing grid with
  | zero => cases hsearch
  | succ steps ih =>
      rw [search, Option.or_eq_some_iff] at hsearch
      rcases hsearch with hnearest | ⟨-, hfiner⟩
      · exact contains_of_nearest? hnearest
      · exact ih hfiner

end Contains

end Interval

/-! ## The decimal of a number -/

section Shortest

variable {significand : Nat} {exponent : Int}

theorem interval_exponent : (interval significand exponent).exponent = exponent - 2 := rfl

theorem interval_high : (interval significand exponent).high = 4 * significand + 2 := rfl

/-- The lower end lies below the number, by one unit at a power of two and by two otherwise. -/
theorem interval_low :
    (interval significand exponent).low = 4 * significand - 1 ∧
        (significand = 2 ^ 52 ∧ leastExponent < exponent) ∨
      (interval significand exponent).low = 4 * significand - 2 ∧
        ¬ (significand = 2 ^ 52 ∧ leastExponent < exponent) := by
  unfold interval
  dsimp only
  split
  · next hpower => exact .inl ⟨rfl, hpower⟩
  · next hpower => exact .inr ⟨rfl, hpower⟩

/-- A number other than zero lies inside its interval. -/
theorem covers_middle (hsome : 0 < significand) :
    (interval significand exponent).Covers (significand * 2 ^ exponent) := by
  have hunit : (0 : ℚ) < 2 ^ (exponent - 2) := by positivity
  have hvalue : (significand * 2 ^ exponent : ℚ) =
      (4 * significand : Nat) * 2 ^ (exponent - 2) := by
    rw [zpow_sub₀ (by norm_num)]
    push_cast
    ring
  have hleast : (interval significand exponent).lowValue < significand * 2 ^ exponent := by
    rw [hvalue, Interval.lowValue, interval_exponent]
    apply mul_lt_mul_of_pos_right _ hunit
    have hlow := @interval_low significand exponent
    exact_mod_cast (show (interval significand exponent).low < 4 * significand by omega)
  have hmost : (significand * 2 ^ exponent : ℚ) < (interval significand exponent).highValue := by
    rw [hvalue, Interval.highValue, interval_exponent, interval_high]
    apply mul_lt_mul_of_pos_right _ hunit
    exact_mod_cast (show 4 * significand < 4 * significand + 2 by omega)
  exact ⟨hleast.le, hmost.le, fun _ => ⟨hleast, hmost⟩⟩

theorem value_exact (significand : Nat) (exponent : Int) :
    (exact significand exponent).value = significand * 2 ^ exponent := by
  unfold exact Decimal.value
  split
  · next hnegative =>
      obtain ⟨places, rfl⟩ : ∃ places : Nat, exponent = -places := ⟨(-exponent).toNat, by omega⟩
      have hten : (10 : ℚ) ^ places = 5 ^ places * 2 ^ places := by
        rw [← mul_pow]
        norm_num
      have hfive : (5 : ℚ) ^ places ≠ 0 := by positivity
      simp only [neg_neg, Int.toNat_natCast, Nat.pow_eq, Nat.cast_mul, Nat.cast_pow,
        Nat.cast_ofNat, zpow_neg, zpow_natCast, hten]
      field_simp
  · next hnatural =>
      obtain ⟨places, rfl⟩ : ∃ places : Nat, exponent = places := ⟨exponent.toNat, by omega⟩
      simp

/-- The decimal that is chosen lies in the interval. -/
theorem covers_shortest (hsome : 0 < significand) :
    (interval significand exponent).Covers (shortest significand exponent).value := by
  unfold shortest
  cases hsearch : (interval significand exponent).search (firstGrid significand exponent) 24 with
  | none =>
      rw [Option.getD_none, value_exact]
      exact covers_middle hsome
  | some decimal => exact Interval.covers_of_contains (Interval.contains_of_search hsearch)

end Shortest

/-! ## Intervals of different numbers -/

section Unique

variable {significand significand' : Nat} {exponent : Int} {value : ℚ}

/-- What lies in two intervals puts the lower end of one below the upper end of the other, both in
units of the first. -/
theorem low_le_high {shift : Nat} (hcovers : (interval significand exponent).Covers value)
    (hcovers' : (interval significand' (exponent + shift)).Covers value) :
    (interval significand' (exponent + shift)).low * 2 ^ shift ≤ 4 * significand + 2 ∧
      (significand % 2 = 1 ∨ significand' % 2 = 1 →
        (interval significand' (exponent + shift)).low * 2 ^ shift < 4 * significand + 2) := by
  have hunit : (0 : ℚ) < 2 ^ (exponent - 2) := by positivity
  -- the interval of the larger exponent, in units of the smaller one
  have hlow : (interval significand' (exponent + shift)).lowValue =
      ((interval significand' (exponent + shift)).low * 2 ^ shift : Nat) * 2 ^ (exponent - 2) := by
    rw [Interval.lowValue, interval_exponent, add_sub_right_comm, zpow_add₀ (by norm_num),
      zpow_natCast]
    push_cast
    ring
  have hhigh : (interval significand exponent).highValue =
      (4 * significand + 2 : Nat) * 2 ^ (exponent - 2) := rfl
  constructor
  · have hle := hcovers'.least.trans hcovers.most
    rw [hlow, hhigh, mul_le_mul_iff_of_pos_right hunit] at hle
    exact_mod_cast hle
  · intro hodd
    have hlt : (interval significand' (exponent + shift)).lowValue <
        (interval significand exponent).highValue := by
      -- an odd significand has an open interval, so the ends do not meet
      rcases hodd with hodd | hodd
      · have hopen : (interval significand exponent).closed = false := by simp [interval, hodd]
        exact hcovers'.least.trans_lt (hcovers.inside hopen).2
      · have hopen : (interval significand' (exponent + shift)).closed = false := by
          simp [interval, hodd]
        exact (hcovers'.inside hopen).1.trans_le hcovers.most
    rw [hlow, hhigh, mul_lt_mul_iff_of_pos_right hunit] at hlt
    exact_mod_cast hlt

/-- With the same exponent, a larger significand has an interval further up. -/
theorem not_covers_of_significand_lt (hless : significand < significand')
    (hcovers : (interval significand exponent).Covers value) :
    ¬ (interval significand' exponent).Covers value := by
  intro hcovers'
  have hshifted : (interval significand' (exponent + (0 : Nat))).Covers value := by
    simpa using hcovers'
  have hmeet := low_le_high hcovers hshifted
  have hlow := @interval_low significand' exponent
  simp only [Nat.cast_zero, add_zero, pow_zero, mul_one] at hmeet
  omega

/-- With a larger exponent, a number has an interval further up. -/
theorem not_covers_of_exponent_lt {shift : Nat} (hshift : 0 < shift)
    (hstored : Stored significand exponent) (hstored' : Stored significand' (exponent + shift))
    (hcovers : (interval significand exponent).Covers value) :
    ¬ (interval significand' (exponent + shift)).Covers value := by
  intro hcovers'
  obtain ⟨hmeet, hstrict⟩ := low_le_high hcovers hcovers'
  have hbounded := hstored.bounded
  have hleast := hstored.least
  have hleading : 2 ^ 52 ≤ significand' := hstored'.leading.resolve_left (by omega)
  have hlow := @interval_low significand' (exponent + shift)
  have hdouble : 2 ≤ 2 ^ shift := Nat.le_self_pow hshift.ne' 2
  have htwice : (interval significand' (exponent + shift)).low * 2 ≤
      (interval significand' (exponent + shift)).low * 2 ^ shift := Nat.mul_le_mul_left _ hdouble
  -- the two ends can only meet above the largest significand, which is odd
  omega

end Unique

/-- **Intervals do not meet.**  A value that lies in the intervals of two numbers says that they are
one. -/
theorem covers_unique {significand significand' : Nat} {exponent exponent' : Int} {value : ℚ}
    (hstored : Stored significand exponent) (hstored' : Stored significand' exponent')
    (hcovers : (interval significand exponent).Covers value)
    (hcovers' : (interval significand' exponent').Covers value) :
    significand = significand' ∧ exponent = exponent' := by
  -- of two different numbers one is further up, and so is its interval
  rcases lt_trichotomy exponent exponent' with hless | rfl | hmore
  · obtain ⟨shift, rfl⟩ : ∃ shift : Nat, exponent' = exponent + shift :=
      ⟨(exponent' - exponent).toNat, by omega⟩
    exact absurd hcovers' (not_covers_of_exponent_lt (by omega) hstored hstored' hcovers)
  · rcases lt_trichotomy significand significand' with hless | rfl | hmore
    · exact absurd hcovers' (not_covers_of_significand_lt hless hcovers)
    · exact ⟨rfl, rfl⟩
    · exact absurd hcovers (not_covers_of_significand_lt hmore hcovers')
  · obtain ⟨shift, rfl⟩ : ∃ shift : Nat, exponent = exponent' + shift :=
      ⟨(exponent - exponent').toNat, by omega⟩
    exact absurd hcovers (not_covers_of_exponent_lt (by omega) hstored' hstored hcovers')

/-! ## The nearest number -/

section Nearest

variable {significand significand' : Nat} {exponent exponent' : Int}

/-- Another number in quarters of the last place of a number: it is a whole number of last places,
or it is at most the greatest number of the binade below. -/
theorem quarters_of_stored (hstored : Stored significand exponent)
    (hstored' : Stored significand' exponent') :
    (∃ places : ℕ, (significand' * 2 ^ exponent' : ℚ) = 4 * places * 2 ^ (exponent - 2)) ∨
      2 ^ 52 ≤ significand ∧ leastExponent < exponent ∧
        (significand' * 2 ^ exponent' : ℚ) ≤ (2 ^ 54 - 2) * 2 ^ (exponent - 2) := by
  have htwo : (2 : ℚ) ≠ 0 := by norm_num
  -- numbers of a larger unit are multiples of this one, those of a smaller one lie below the binade
  rcases le_or_gt exponent exponent' with hcoarse | hfine
  · obtain ⟨shift, rfl⟩ : ∃ shift : ℕ, exponent' = exponent + shift :=
      ⟨(exponent' - exponent).toNat, by omega⟩
    refine .inl ⟨significand' * 2 ^ shift, ?_⟩
    rw [zpow_add₀ htwo, zpow_sub₀ htwo, zpow_natCast]
    push_cast
    ring
  · have hleast : leastExponent < exponent := hstored'.least.trans_lt hfine
    refine .inr ⟨hstored.leading.resolve_left hleast.ne', hleast, ?_⟩
    have hbounded : significand' ≤ 2 ^ 53 - 1 := Nat.le_sub_one_of_lt hstored'.bounded
    calc (significand' * 2 ^ exponent' : ℚ)
        ≤ (2 ^ 53 - 1 : ℕ) * 2 ^ (exponent - 1) := by
          gcongr
          · norm_num
          · omega
      _ = (2 ^ 54 - 2) * 2 ^ (exponent - 2) := by
          rw [zpow_sub₀ htwo, zpow_sub₀ htwo]
          norm_num
          ring

/-- A number in quarters of its last place. -/
theorem value_eq_quarters (significand : Nat) (exponent : Int) :
    (significand * 2 ^ exponent : ℚ) = 4 * significand * 2 ^ (exponent - 2) := by
  rw [zpow_sub₀ (by norm_num)]
  ring

/-- The upper end of an interval lies at most halfway to a number above. -/
theorem high_le_of_lt (hstored : Stored significand exponent)
    (hstored' : Stored significand' exponent')
    (habove : (significand * 2 ^ exponent : ℚ) < significand' * 2 ^ exponent') :
    2 * (interval significand exponent).highValue ≤
      significand * 2 ^ exponent + significand' * 2 ^ exponent' := by
  have hquarter : (0 : ℚ) < 2 ^ (exponent - 2) := by positivity
  rw [Interval.highValue, interval_high, interval_exponent]
  rw [value_eq_quarters significand exponent] at habove ⊢
  rcases quarters_of_stored hstored hstored' with ⟨places, hplaces⟩ | ⟨hleading, -, hmost⟩
  · rw [hplaces] at habove ⊢
    -- whole places that are more are more by one at least, which is four quarters
    have hless : significand < places := by
      have hunits := lt_of_mul_lt_mul_right habove hquarter.le
      exact_mod_cast (by linarith : (significand : ℚ) < places)
    rw [← add_mul, ← mul_assoc]
    gcongr
    exact_mod_cast (by omega : 2 * (4 * significand + 2) ≤ 4 * significand + 4 * places)
  · have hunits := lt_of_mul_lt_mul_right (habove.trans_le hmost) hquarter.le
    have hleading' : (2 ^ 52 : ℚ) ≤ significand := by exact_mod_cast hleading
    linarith

/-- The lower end of an interval lies at most halfway to a number below. -/
theorem le_low_of_lt (hstored : Stored significand exponent)
    (hstored' : Stored significand' exponent')
    (hbelow : (significand' * 2 ^ exponent' : ℚ) < significand * 2 ^ exponent) :
    significand * 2 ^ exponent + significand' * 2 ^ exponent' ≤
      2 * (interval significand exponent).lowValue := by
  have hquarter : (0 : ℚ) < 2 ^ (exponent - 2) := by positivity
  have hends := @interval_low significand exponent
  rw [Interval.lowValue, interval_exponent]
  rw [value_eq_quarters significand exponent] at hbelow ⊢
  rcases quarters_of_stored hstored hstored' with ⟨places, hplaces⟩ | ⟨hleading, hleast, hmost⟩
  · rw [hplaces] at hbelow ⊢
    have hless : places < significand := by
      have hunits := lt_of_mul_lt_mul_right hbelow hquarter.le
      exact_mod_cast (by linarith : (places : ℚ) < significand)
    rw [← add_mul, ← mul_assoc]
    gcongr
    exact_mod_cast (by omega : 4 * significand + 4 * places ≤
      2 * (interval significand exponent).low)
  · -- at a power of two the numbers below are nearer, and so is the end
    have hunits : (4 * significand + (2 ^ 54 - 2) : ℚ) ≤
        2 * (interval significand exponent).low := by
      have hnatural : ((4 * significand + 2 ^ 54 : ℕ) : ℚ) ≤
          (2 * (interval significand exponent).low + 2 : ℕ) := by
        exact_mod_cast (by omega)
      push_cast at hnatural
      linarith
    calc (4 * significand * 2 ^ (exponent - 2) + significand' * 2 ^ exponent' : ℚ)
        ≤ 4 * significand * 2 ^ (exponent - 2) + (2 ^ 54 - 2) * 2 ^ (exponent - 2) := by gcongr
      _ = (4 * significand + (2 ^ 54 - 2)) * 2 ^ (exponent - 2) := by ring
      _ ≤ 2 * (interval significand exponent).low * 2 ^ (exponent - 2) := by gcongr
      _ = 2 * ((interval significand exponent).low * 2 ^ (exponent - 2)) := by ring

/-- **What lies in the interval of a number is nearer to it than to every other number**, or as
near. -/
theorem Interval.Covers.nearest {value : ℚ} (hstored : Stored significand exponent)
    (hstored' : Stored significand' exponent')
    (hcovers : (interval significand exponent).Covers value) :
    |value - significand * 2 ^ exponent| ≤ |value - significand' * 2 ^ exponent'| := by
  have hleast := hcovers.least
  have hmost := hcovers.most
  rcases lt_trichotomy (significand * 2 ^ exponent : ℚ) (significand' * 2 ^ exponent') with
    habove | hsame | hbelow
  · -- the other number is above, so the value lies below the middle between the two
    have hhalf := high_le_of_lt hstored hstored' habove
    calc |value - significand * 2 ^ exponent|
        ≤ -(value - significand' * 2 ^ exponent') := abs_le.mpr ⟨by linarith, by linarith⟩
      _ ≤ |value - significand' * 2 ^ exponent'| := neg_le_abs _
  · rw [hsame]
  · -- and above the middle if the other number is below
    have hhalf := le_low_of_lt hstored hstored' hbelow
    calc |value - significand * 2 ^ exponent|
        ≤ value - significand' * 2 ^ exponent' := abs_le.mpr ⟨by linarith, by linarith⟩
      _ ≤ |value - significand' * 2 ^ exponent'| := le_abs_self _

end Nearest

end TableScript.Number
