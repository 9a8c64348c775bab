import Bytelift.Number.Decimal
import Mathlib.Algebra.Order.Field.Power
import Mathlib.Algebra.Order.Ring.Rat
import Mathlib.Data.Nat.Cast.Order.Field
import Mathlib.Tactic.FieldSimp
import Mathlib.Tactic.Linarith
import Mathlib.Tactic.NormNum
import Mathlib.Tactic.Ring

/-!
# Shortest decimals

The rounding intervals of the doubles lie side by side: the upper end of one is the lower end of the next, and of two
neighbours only one holds the end that they share. So a decimal lies in at most one interval. The search for the
shortest decimal in an interval finds one with at most eighteen digits, since the grid of that many digits is finer than
the interval is wide.

Results:
* `eq_of_contains`: **a rational lies in the interval of one double at most**;
* `shortest_contains`: **the shortest decimal of a double lies in its interval.**
-/

namespace Bytelift.Number

variable {a b m n : Nat} {k e : Int}

/-! ## Comparisons -/

/-- The common denominator of `a * 10 ^ k` and `b * 2 ^ e`. -/
theorem scaled_cast (a b : Nat) (k e : Int) :
    ((a * Nat.pow 10 k.toNat * Nat.pow 2 (-e).toNat : Nat) : ℚ) = a * 10 ^ k * (10 ^ (-k).toNat * 2 ^ (-e).toNat) ∧
      ((b * Nat.pow 2 e.toNat * Nat.pow 10 (-k).toNat : Nat) : ℚ) = b * 2 ^ e * (10 ^ (-k).toNat * 2 ^ (-e).toNat) := by
  have split (x : ℚ) (hx : x ≠ 0) (i : Int) : x ^ i.toNat = x ^ i * x ^ (-i).toNat := by
    rw [← zpow_natCast, ← zpow_natCast, ← zpow_add₀ hx]
    congr 1
    omega
  simp only [Nat.pow_eq]
  push_cast
  rw [split 10 (by norm_num) k, split 2 (by norm_num) e]
  constructor <;> ring

theorem compareScaled_eq : compareScaled a k b e = compare ((a : ℚ) * 10 ^ k) (b * 2 ^ e) := by
  obtain ⟨ha, hb⟩ := scaled_cast a b k e
  rw [compareScaled, ← cmp_eq_compare, ← (Nat.strictMono_cast (α := ℚ)).cmp_map_eq, ha, hb, cmp_mul_pos_right (by positivity),
    cmp_eq_compare]

/-- `floorScaled m e k` is the quotient of `m * 2 ^ e` and `10 ^ k`, rounded down. -/
theorem floorScaled_spec (m : Nat) (e k : Int) :
    (floorScaled m e k : ℚ) * 10 ^ k ≤ m * 2 ^ e ∧ (m : ℚ) * 2 ^ e < (floorScaled m e k + 1) * 10 ^ k := by
  obtain ⟨hd, hn⟩ := scaled_cast 1 m k e
  rw [Nat.one_mul, Nat.mul_comm (Nat.pow 10 _), Nat.cast_one, one_mul] at hd
  generalize hnum : m * Nat.pow 2 e.toNat * Nat.pow 10 (-k).toNat = num at hn
  generalize hden : Nat.pow 2 (-e).toNat * Nat.pow 10 k.toNat = den at hd
  have hfloor : floorScaled m e k = num / den := by rw [floorScaled, hnum, hden]
  have hunit : (0 : ℚ) < 10 ^ (-k).toNat * 2 ^ (-e).toNat := by positivity
  have hpos : 0 < den := by
    rw [← hden]
    exact Nat.mul_pos (Nat.pow_pos (by decide)) (Nat.pow_pos (by decide))
  have hle : ((num / den : Nat) : ℚ) * den ≤ num := by exact_mod_cast Nat.div_mul_le_self num den
  have hlt : (num : ℚ) < ((num / den : Nat) + 1) * den := by
    exact_mod_cast Nat.lt_mul_of_div_lt (Nat.lt_succ_self _) hpos
  rw [hd, hn] at hle hlt
  rw [hfloor]
  constructor
  · refine le_of_mul_le_mul_right ?_ hunit
    linarith
  · refine lt_of_mul_lt_mul_right ?_ hunit.le
    linarith

/-! ## Intervals -/

/-- The number that a decimal writes. -/
def Decimal.value (d : Decimal) : ℚ := d.digits * 10 ^ d.exponent

namespace Interval

variable {i : Interval} {v : ℚ}

def lower (i : Interval) : ℚ := i.low * 2 ^ i.exponent

def upper (i : Interval) : ℚ := i.high * 2 ^ i.exponent

/-- Whether a rational lies in an interval, which has its ends or not. -/
def Contains (i : Interval) (v : ℚ) : Prop :=
  (i.lower < v ∨ i.closed = true ∧ v = i.lower) ∧ (v < i.upper ∨ i.closed = true ∧ v = i.upper)

theorem holds_iff {d : Decimal} : i.holds d = true ↔ i.Contains d.value := by
  simp only [holds, Contains, lower, upper, Decimal.value, Bool.and_eq_true, Bool.or_eq_true, beq_iff_eq,
    compareScaled_eq, compare_lt_iff_lt, compare_gt_iff_gt, compare_eq_iff_eq]

theorem Contains.lower_le (h : i.Contains v) : i.lower ≤ v := h.1.elim le_of_lt fun h => h.2.ge

theorem Contains.le_upper (h : i.Contains v) : v ≤ i.upper := h.2.elim le_of_lt fun h => h.2.le

end Interval

/-! ## The intervals of all doubles -/

/-- The magnitude of a finite number by its bits. -/
def scaledOf (n : Nat) : Nat × Int :=
  if n / 2 ^ 52 = 0 then (n % 2 ^ 52, -1074) else (2 ^ 52 + n % 2 ^ 52, ((n / 2 ^ 52 : Nat) : Int) - 1075)

theorem scaled_eq (x : Double) : x.scaled = scaledOf x.magnitude := rfl

/-- The rounding interval of a number by its bits. -/
def intervalOf (n : Nat) : Interval := Interval.of (scaledOf n).1 (scaledOf n).2

theorem scaledOf_bounds (h : 0 < n) : 0 < (scaledOf n).1 ∧ (scaledOf n).1 < 2 ^ 53 ∧ -1074 ≤ (scaledOf n).2 := by
  unfold scaledOf
  split <;> dsimp only <;> omega

theorem closed_intervalOf (n : Nat) : (intervalOf n).closed = true ↔ n % 2 = 0 := by
  have hparity : (scaledOf n).1 % 2 = n % 2 := by
    unfold scaledOf
    split <;> dsimp only <;> omega
  simp [intervalOf, Interval.of, hparity]

theorem upper_of (m : Nat) (e : Int) : (Interval.of m e).upper = (4 * m + 2) * 2 ^ (e - 2) := by
  simp [Interval.upper, Interval.of]

theorem lower_of (hm : 0 < m) (h : ¬ (m = 2 ^ 52 ∧ e ≠ -1074)) :
    (Interval.of m e).lower = (4 * m - 2) * 2 ^ (e - 2) := by
  have hlow : (Interval.of m e).low = 4 * m - 2 := by simpa [Interval.of] using fun h1 h2 => absurd ⟨h1, h2⟩ h
  rw [Interval.lower, hlow, Nat.cast_sub (by omega)]
  push_cast
  rfl

theorem lower_of_narrow (he : e ≠ -1074) : (Interval.of (2 ^ 52) e).lower = (2 ^ 54 - 1) * 2 ^ (e - 2) := by
  have hlow : (Interval.of (2 ^ 52) e).low = 2 ^ 54 - 1 := by simp [Interval.of, he]
  rw [Interval.lower, hlow]
  norm_num [Interval.of]

/-- **The upper end of an interval is the lower end of the next.** -/
theorem upper_intervalOf (n : Nat) : (intervalOf n).upper = (intervalOf (n + 1)).lower := by
  rw [intervalOf, upper_of, intervalOf]
  by_cases hr : n % 2 ^ 52 + 1 < 2 ^ 52
  · -- the next number has the same exponent
    have hnext : scaledOf (n + 1) = ((scaledOf n).1 + 1, (scaledOf n).2) := by
      have hq : (n + 1) / 2 ^ 52 = n / 2 ^ 52 := by omega
      have hr' : (n + 1) % 2 ^ 52 = n % 2 ^ 52 + 1 := by omega
      unfold scaledOf
      rw [hq, hr']
      split <;> rfl
    have hwide : ¬ ((scaledOf n).1 + 1 = 2 ^ 52 ∧ (scaledOf n).2 ≠ -1074) := by
      unfold scaledOf
      split <;> dsimp only <;> omega
    rw [hnext, lower_of (Nat.succ_pos _) hwide]
    push_cast
    ring
  · have hq : (n + 1) / 2 ^ 52 = n / 2 ^ 52 + 1 := by omega
    have hr' : (n + 1) % 2 ^ 52 = 0 := by omega
    have hnext : scaledOf (n + 1) = (2 ^ 52, ((n / 2 ^ 52 : Nat) : Int) - 1074) := by
      unfold scaledOf
      rw [hq, hr', if_neg (Nat.succ_ne_zero _)]
      simp
      omega
    rw [hnext]
    by_cases hzero : n / 2 ^ 52 = 0
    · have hthis : scaledOf n = (2 ^ 52 - 1, -1074) := by
        unfold scaledOf
        rw [if_pos hzero, show n % 2 ^ 52 = 2 ^ 52 - 1 by omega]
      rw [hthis, hzero, lower_of (by norm_num) (by simp)]
      norm_num
    -- the next number is a power of two
    have hthis : scaledOf n = (2 ^ 53 - 1, ((n / 2 ^ 52 : Nat) : Int) - 1075) := by
      unfold scaledOf
      rw [if_neg hzero, show n % 2 ^ 52 = 2 ^ 52 - 1 by omega]
      norm_num
    rw [hthis, lower_of_narrow (by omega), show ((n / 2 ^ 52 : Nat) : Int) - 1074 - 2 = ((n / 2 ^ 52 : Nat) : Int) - 1075 - 2 + 1 by ring,
      zpow_add_one₀ (by norm_num)]
    norm_num
    ring

theorem lower_lt_upper (h : 0 < n) : (intervalOf n).lower < (intervalOf n).upper := by
  obtain ⟨hm, -, -⟩ := scaledOf_bounds h
  generalize hs : scaledOf n = p at hm
  obtain ⟨m, e⟩ := p
  have hunit : (0 : ℚ) < 2 ^ (e - 2) := by positivity
  rw [intervalOf, hs, upper_of]
  by_cases hnarrow : m = 2 ^ 52 ∧ e ≠ -1074
  · obtain ⟨rfl, he⟩ := hnarrow
    rw [lower_of_narrow he]
    refine mul_lt_mul_of_pos_right ?_ hunit
    norm_num
  · rw [lower_of hm hnarrow]
    refine mul_lt_mul_of_pos_right ?_ hunit
    linarith

theorem upper_le_lower (h : m < n) : (intervalOf m).upper ≤ (intervalOf n).lower := by
  induction n, h using Nat.le_induction with
  | base => exact (upper_intervalOf m).le
  | succ n hn ih => exact ih.trans ((lower_lt_upper (by omega)).le.trans (upper_intervalOf n).le)

/-- **A rational lies in the interval of one double at most.** -/
theorem eq_of_contains {v : ℚ} (hm : (intervalOf m).Contains v) (hn : (intervalOf n).Contains v) : m = n := by
  -- two intervals in order share at most an end, and then they are neighbours
  have order {m n : Nat} (hm : (intervalOf m).Contains v) (hn : (intervalOf n).Contains v) : ¬ m < n := by
    intro hlt
    rcases Nat.lt_or_ge (m + 1) n with hfar | hnear
    · have := upper_le_lower hfar
      have := lower_lt_upper (n := m + 1) (by omega)
      have := upper_intervalOf m
      have := hm.le_upper
      have := hn.lower_le
      linarith
    · obtain rfl : n = m + 1 := by omega
      have hend := upper_intervalOf m
      rcases hm.2 with h | ⟨hcm, h⟩
      · have := hn.lower_le
        linarith
      · rcases hn.1 with h' | ⟨hcn, -⟩
        · linarith
        · rw [closed_intervalOf] at hcm hcn
          omega
  have := order hm hn
  have := order hn hm
  omega

/-! ## The search -/

/-- Each rational that is near enough below a number lies in its interval. -/
theorem contains_of_near {v : ℚ} (hm : 0 < m) (hlt : m < 2 ^ 53) (hv : v ≤ m * 2 ^ e)
    (hnear : (m : ℚ) * 2 ^ e - v < m * 2 ^ e / 2 ^ 54) : (Interval.of m e).Contains v := by
  have hunit : (0 : ℚ) < 2 ^ (e - 2) := by positivity
  have hquarter : (2 : ℚ) ^ e = 4 * 2 ^ (e - 2) := by
    rw [zpow_sub₀ (by norm_num)]
    norm_num
    ring
  have hm' : (m : ℚ) < 2 ^ 53 := by exact_mod_cast hlt
  rw [hquarter] at hv hnear
  refine ⟨.inl ?_, .inl ?_⟩
  · by_cases hnarrow : m = 2 ^ 52 ∧ e ≠ -1074
    · obtain ⟨rfl, he⟩ := hnarrow
      rw [lower_of_narrow he]
      push_cast at hnear
      linarith
    · rw [lower_of hm hnarrow]
      have hgap : (m : ℚ) * (4 * 2 ^ (e - 2)) / 2 ^ 54 < 2 * 2 ^ (e - 2) := by
        rw [div_lt_iff₀ (by norm_num)]
        nlinarith
      linarith
  · rw [upper_of]
    linarith

theorem pow_digitCount_le (h : 0 < n) : 10 ^ (digitCount n - 1) ≤ n := by
  rcases Nat.eq_zero_or_pos (digitCount n - 1) with h0 | h0
  · rw [h0]
    exact h
  · by_contra hlt
    have hle := (Nat.length_toDigits_le_iff (by decide) h0).2 (Nat.not_le.1 hlt)
    unfold digitCount at *
    omega

theorem zpow_digitCount_le (h : 0 < n) : (10 : ℚ) ^ ((digitCount n : Int) - 1) ≤ n := by
  have hpos : 0 < digitCount n := Nat.length_toDigits_pos
  rw [show (digitCount n : Int) - 1 = ((digitCount n - 1 : Nat) : Int) by omega, zpow_natCast]
  exact_mod_cast pow_digitCount_le h

theorem zpow_grid_le : (10 : ℚ) ^ (-340 : Int) ≤ 2 ^ (-1074 : Int) := by
  have hpow : (2 : ℚ) ^ 1074 ≤ 10 ^ 340 := by
    calc (2 : ℚ) ^ 1074 ≤ (2 ^ 13) ^ 83 := by
          rw [← pow_mul]
          exact pow_le_pow_right₀ (by norm_num) (by norm_num)
      _ ≤ (10 ^ 4) ^ 83 := pow_le_pow_left₀ (by norm_num) (by norm_num) _
      _ ≤ 10 ^ 340 := by
        rw [← pow_mul]
        exact pow_le_pow_right₀ (by norm_num) (by norm_num)
  rw [zpow_neg, zpow_neg]
  exact inv_anti₀ (by positivity) (by exact_mod_cast hpow)

/-- The first digit stands for a power of ten that is not above the number. -/
theorem zpow_leadingDigit_le (hm : 0 < m) (he : -1074 ≤ e) : (10 : ℚ) ^ leadingDigit m e ≤ m * 2 ^ e := by
  unfold leadingDigit
  dsimp only
  split
  · rename_i hn
    refine (zpow_digitCount_le (Nat.pos_of_ne_zero hn)).trans ?_
    simpa using (floorScaled_spec m e 0).1
  obtain ⟨hle, hlt⟩ := floorScaled_spec m e (-340)
  -- the smallest double is above the grid
  have hsmall : (10 : ℚ) ^ (-340 : Int) ≤ m * 2 ^ e := by
    have hone : (1 : ℚ) ≤ m := by exact_mod_cast hm
    have hpow : (2 : ℚ) ^ (-1074 : Int) ≤ 2 ^ e := zpow_le_zpow_right₀ (by norm_num) he
    nlinarith [zpow_grid_le]
  have hn : 0 < floorScaled m e (-340) := by
    refine Nat.pos_of_ne_zero fun h0 => ?_
    rw [h0, Nat.cast_zero, zero_add, one_mul] at hlt
    exact absurd hlt hsmall.not_gt
  have hpow := zpow_digitCount_le hn
  rw [show (digitCount (floorScaled m e (-340)) : Int) - 341 = (digitCount (floorScaled m e (-340)) : Int) - 1 + -340 by ring,
    zpow_add₀ (by norm_num)]
  exact (mul_le_mul_of_nonneg_right hpow (by positivity)).trans hle

theorem holds_of_neighbour? {i : Interval} {d : Decimal} (h : neighbour? i k = some d) : i.holds d = true := by
  unfold neighbour? at h
  dsimp only at h
  split at h
  · cases h
    assumption
  · cases h
    assumption
  · cases h
  · split at h
    · cases h
      assumption
    · cases h
      assumption
    · split at h <;> cases h <;> assumption

/-- The grid of eighteen digits is finer than the interval is wide. -/
theorem exists_neighbour? (hm : 0 < m) (hlt : m < 2 ^ 53) (he : -1074 ≤ e) :
    ∃ d, neighbour? (Interval.of m e) (leadingDigit m e - 17) = some d := by
  obtain ⟨hle, hnext⟩ := floorScaled_spec (4 * m) (e - 2) (leadingDigit m e - 17)
  have hmid : ((4 * m : Nat) : ℚ) * 2 ^ (e - 2) = m * 2 ^ e := by
    rw [zpow_sub₀ (by norm_num)]
    push_cast
    ring
  have hgrid : (10 : ℚ) ^ (leadingDigit m e - 17) = 10 ^ leadingDigit m e / 10 ^ 17 := by
    rw [zpow_sub₀ (by norm_num)]
    norm_num
  have hfirst := zpow_leadingDigit_le hm he
  have hpos : (0 : ℚ) < m * 2 ^ e := by positivity
  rw [hmid] at hle hnext
  have hdown : (Interval.of m e).holds ⟨floorScaled (4 * m) (e - 2) (leadingDigit m e - 17), leadingDigit m e - 17⟩ = true := by
    refine Interval.holds_iff.2 (contains_of_near hm hlt hle ?_)
    calc (m : ℚ) * 2 ^ e - floorScaled (4 * m) (e - 2) (leadingDigit m e - 17) * 10 ^ (leadingDigit m e - 17)
        < 10 ^ (leadingDigit m e - 17) := by linarith
      _ ≤ m * 2 ^ e / 10 ^ 17 := by
        rw [hgrid]
        gcongr
      _ < m * 2 ^ e / 2 ^ 54 := by
        gcongr
        norm_num
  unfold neighbour?
  dsimp only
  rw [show (Interval.of m e).mid = 4 * m from rfl, show (Interval.of m e).exponent = e - 2 from rfl, hdown]
  split
  · exact ⟨_, rfl⟩
  · exact ⟨_, rfl⟩
  · rename_i h _
    cases h
  · split <;> exact ⟨_, rfl⟩

/-- **The shortest decimal of a number lies in its interval.** -/
theorem shortest_contains (hm : 0 < m) (hlt : m < 2 ^ 53) (he : -1074 ≤ e) :
    (Interval.of m e).Contains (shortest m e).value := by
  obtain ⟨d, hd⟩ := exists_neighbour? hm hlt he
  have hsome : ((List.range 18).findSome? fun (n : Nat) => neighbour? (Interval.of m e) (leadingDigit m e - n)).isSome = true :=
    List.findSome?_isSome_iff.2 ⟨17, by simp, by simpa using Option.isSome_of_mem hd⟩
  obtain ⟨d', hd'⟩ := Option.isSome_iff_exists.1 hsome
  obtain ⟨n, -, hn⟩ := List.exists_of_findSome?_eq_some hd'
  have hshortest : shortest m e = d' := by rw [shortest, hd', Option.getD_some]
  rw [hshortest, ← Interval.holds_iff]
  exact holds_of_neighbour? hn

theorem digits_shortest_pos (hm : 0 < m) (hlt : m < 2 ^ 53) (he : -1074 ≤ e) : 0 < (shortest m e).digits := by
  have hlower : 0 < (Interval.of m e).lower := by
    have hone : (1 : ℚ) ≤ m := by exact_mod_cast hm
    by_cases hnarrow : m = 2 ^ 52 ∧ e ≠ -1074
    · obtain ⟨rfl, he'⟩ := hnarrow
      rw [lower_of_narrow he']
      exact mul_pos (by norm_num) (by positivity)
    · rw [lower_of hm hnarrow]
      exact mul_pos (by linarith) (by positivity)
  have hvalue := hlower.trans_le (shortest_contains hm hlt he).lower_le
  refine Nat.pos_of_ne_zero fun h0 => hvalue.ne' ?_
  rw [Decimal.value, h0, Nat.cast_zero, zero_mul]

end Bytelift.Number
