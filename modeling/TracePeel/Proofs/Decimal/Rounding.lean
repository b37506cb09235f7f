import Mathlib.Algebra.Order.Field.Power
import Mathlib.Algebra.Order.Floor.Semifield
import Mathlib.Data.Int.Log
import Mathlib.Data.Rat.Floor
import Mathlib.Tactic.FieldSimp
import Mathlib.Tactic.Linarith
import Mathlib.Tactic.Positivity
import TracePeel.Decimal.Shortest

/-! What a decimal is rounded to depends on its value alone.

`nearest` says of a rational number which magnitude is nearest to it. Reading a
decimal comes to that, whatever its digits and its power of ten (`magnitudeOf_eq`), a
magnitude is nearest to the number it denotes (`nearest_split`), and so the shortest
decimal of a magnitude reads back as it (`magnitudeOf_shortest`). -/
namespace TracePeel.Decimal

open Binary64 (hiddenBit infinity split)

/-! ### Quotients -/

theorem scaled_pos {base num den : Nat} {e : Int} (hbase : 0 < base) (hden : 0 < den) :
    0 < (scaled base num den e).2 := by
  unfold scaled
  split
  · exact Nat.mul_pos hden (Nat.pow_pos hbase)
  · exact hden

/-- Scaling divides the quotient by the power. -/
theorem scaled_ratio {base num den : Nat} {e : Int} (hbase : 0 < base) :
    ((scaled base num den e).1 : ℚ) / (scaled base num den e).2 = num / den / (base : ℚ) ^ e := by
  have hne : (base : ℚ) ≠ 0 := by positivity
  unfold scaled
  split
  case isTrue h =>
    obtain ⟨n, rfl⟩ := Int.eq_ofNat_of_zero_le h
    simp [div_div]
  case isFalse h =>
    obtain ⟨n, hn⟩ := Int.eq_ofNat_of_zero_le (show 0 ≤ -e by omega)
    obtain rfl : e = -(n : Int) := by omega
    simp [div_eq_mul_inv]
    ring

/-- The binary logarithm of a quotient, rounded down, is the number it is between. -/
theorem log_eq_iff {q : ℚ} (hq : 0 < q) {k : Int} :
    Int.log 2 q = k ↔ (2 : ℚ) ^ k ≤ q ∧ q < (2 : ℚ) ^ (k + 1) := by
  have hle := Int.zpow_le_iff_le_log (b := 2) (by decide) (x := k) hq
  have hlt := Int.lt_zpow_iff_log_lt (b := 2) (by decide) (x := k + 1) hq
  push_cast at hle hlt
  rw [hle, hlt]
  omega

theorem floorLog2_eq {num den : Nat} (hnum : 0 < num) (hden : 0 < den) :
    floorLog2 num den = Int.log 2 ((num : ℚ) / den) := by
  have hq : (0 : ℚ) < (num : ℚ) / den := by positivity
  have two : (2 : ℚ) ≠ 0 := by norm_num
  have hn₁ : (2 : ℚ) ^ num.log2 ≤ num := by exact_mod_cast Nat.log2_self_le hnum.ne'
  have hn₂ : (num : ℚ) < 2 ^ (num.log2 + 1) := by exact_mod_cast Nat.lt_log2_self
  have hd₁ : (2 : ℚ) ^ den.log2 ≤ den := by exact_mod_cast Nat.log2_self_le hden.ne'
  have hd₂ : (den : ℚ) < 2 ^ (den.log2 + 1) := by exact_mod_cast Nat.lt_log2_self
  have hden' : (0 : ℚ) < den := by exact_mod_cast hden
  -- The guess is right or one too large, so the quotient is below the next power.
  have hbelow : (num : ℚ) / den < 2 ^ ((num.log2 : Int) - den.log2 + 1) := by
    rw [div_lt_iff₀ hden']
    calc (num : ℚ) < 2 ^ (num.log2 + 1) := hn₂
      _ = 2 ^ ((num.log2 : Int) - den.log2 + 1) * 2 ^ den.log2 := by
        rw [← zpow_natCast, ← zpow_natCast, ← zpow_add₀ two]
        congr 1
        push_cast
        ring
      _ ≤ _ := by gcongr
  have habove : 2 ^ ((num.log2 : Int) - den.log2 - 1) ≤ (num : ℚ) / den := by
    rw [le_div_iff₀ hden']
    calc (2 : ℚ) ^ ((num.log2 : Int) - den.log2 - 1) * den
        ≤ 2 ^ ((num.log2 : Int) - den.log2 - 1) * 2 ^ (den.log2 + 1) := by gcongr
      _ = 2 ^ num.log2 := by
        rw [← zpow_natCast, ← zpow_natCast, ← zpow_add₀ two]
        congr 1
        push_cast
        ring
      _ ≤ _ := hn₁
  have hscaled := @scaled_ratio 2 num den ((num.log2 : Int) - den.log2) (by decide)
  have hpos := @scaled_pos 2 num den ((num.log2 : Int) - den.log2) (by decide) hden
  have hpos' : (0 : ℚ) < (scaled 2 num den ((num.log2 : Int) - den.log2)).2 := by
    exact_mod_cast hpos
  have hguess : (scaled 2 num den ((num.log2 : Int) - den.log2)).2
      ≤ (scaled 2 num den ((num.log2 : Int) - den.log2)).1 ↔
      (2 : ℚ) ^ ((num.log2 : Int) - den.log2) ≤ (num : ℚ) / den := by
    rw [← Nat.cast_le (α := ℚ), ← one_le_div hpos', hscaled]
    push_cast
    rw [one_le_div (by positivity)]
  simp only [floorLog2]
  split
  case isTrue h => exact ((log_eq_iff hq).2 ⟨hguess.1 h, hbelow⟩).symm
  case isFalse h =>
    refine ((log_eq_iff hq).2 ⟨habove, ?_⟩).symm
    rw [sub_add_cancel]
    exact lt_of_not_ge fun h' => h (hguess.2 h')

/-- The whole number nearest to a rational one; a half goes to the even one. -/
def halfEven (q : ℚ) : Nat :=
  let down := ⌊q⌋₊
  if 2 * (q - down) < 1 then down
  else if 1 < 2 * (q - down) then down + 1
  else down + down % 2

theorem halfEven_natCast (n : Nat) : halfEven n = n := by
  simp [halfEven]

theorem roundHalfEven_eq {num den : Nat} (hden : 0 < den) :
    roundHalfEven num den = halfEven ((num : ℚ) / den) := by
  have hden' : (0 : ℚ) < den := by exact_mod_cast hden
  have hrest : (num : ℚ) / den - (num / den : Nat) = (num % den : Nat) / den := by
    have h : ((den * (num / den) + num % den : Nat) : ℚ) = num := by rw [Nat.div_add_mod]
    push_cast at h
    field_simp
    linarith
  have hless : 2 * ((num : ℚ) / den - (num / den : Nat)) < 1 ↔ 2 * (num % den) < den := by
    rw [hrest, ← mul_div_assoc, div_lt_one hden']
    exact_mod_cast Iff.rfl
  have hmore : 1 < 2 * ((num : ℚ) / den - (num / den : Nat)) ↔ den < 2 * (num % den) := by
    rw [hrest, ← mul_div_assoc, one_lt_div hden']
    exact_mod_cast Iff.rfl
  simp only [roundHalfEven, halfEven, Nat.floor_div_natCast, Nat.floor_natCast, hless, hmore]

/-- The magnitude nearest to a rational number that is not negative. -/
def nearest (q : ℚ) : Nat :=
  if q = 0 then 0
  else
    let grid := max (Int.log 2 q - 52) (-1074)
    min ((grid + 1074).toNat * hiddenBit + halfEven (q / 2 ^ grid)) infinity

theorem nearestMagnitude_eq {num den : Nat} (hden : 0 < den) :
    nearestMagnitude num den = nearest ((num : ℚ) / den) := by
  rcases Nat.eq_zero_or_pos num with rfl | hnum
  · simp [nearestMagnitude, nearest]
  have hq : (num : ℚ) / den ≠ 0 := by positivity
  have hround (grid : Int) : roundHalfEven (scaled 2 num den grid).1 (scaled 2 num den grid).2 =
      halfEven ((num : ℚ) / den / 2 ^ grid) := by
    rw [roundHalfEven_eq (scaled_pos (by decide) hden), scaled_ratio (by decide), Nat.cast_ofNat]
  simp only [nearestMagnitude, nearest, hnum.ne', hq, if_false, hround, floorLog2_eq hnum hden]

/-! ### Powers of ten -/

/-- What is far below the least magnitude is zero. -/
theorem nearest_tiny {q : ℚ} (hq : 0 < q) (h : q < 2 ^ (-1075 : Int)) : nearest q = 0 := by
  have hlog : Int.log 2 q < -1075 := by
    rw [← Int.lt_zpow_iff_log_lt (by decide) hq]
    exact_mod_cast h
  have hgrid : max (Int.log 2 q - 52) (-1074) = -1074 := by omega
  have hhalf : q / 2 ^ (-1074 : Int) < 1 / 2 := by
    rw [div_lt_iff₀ (by positivity)]
    calc q < 2 ^ (-1075 : Int) := h
      _ = 1 / 2 * 2 ^ (-1074 : Int) := by
        rw [show (-1075 : Int) = -1 + -1074 by rfl, zpow_add₀ (by norm_num)]
        norm_num
  have hfloor : ⌊q / 2 ^ (-1074 : Int)⌋₊ = 0 := Nat.floor_eq_zero.2 (by linarith)
  have hround : halfEven (q / 2 ^ (-1074 : Int)) = 0 := by
    simp only [halfEven, hfloor, Nat.cast_zero, sub_zero]
    rw [if_pos (by linarith)]
  simp only [nearest, hq.ne', if_false, hgrid, hround]
  decide

theorem floor_le_halfEven (q : ℚ) : ⌊q⌋₊ ≤ halfEven q := by
  simp only [halfEven]
  split_ifs <;> omega

/-- What is far above the largest finite magnitude is infinite. -/
theorem nearest_huge {q : ℚ} (h : 2 ^ (1024 : Int) ≤ q) : nearest q = infinity := by
  have hq : 0 < q := lt_of_lt_of_le (by positivity) h
  have hlog : 1024 ≤ Int.log 2 q := by
    rw [← Int.zpow_le_iff_le_log (by decide) hq]
    exact_mod_cast h
  have hgrid : max (Int.log 2 q - 52) (-1074) = Int.log 2 q - 52 := by omega
  have hfield : 2046 ≤ (Int.log 2 q - 52 + 1074).toNat := by omega
  have hdigits : hiddenBit ≤ halfEven (q / 2 ^ (Int.log 2 q - 52)) := by
    refine le_trans (Nat.le_floor ?_) (floor_le_halfEven _)
    rw [le_div_iff₀ (by positivity)]
    calc (hiddenBit : ℚ) * 2 ^ (Int.log 2 q - 52) = 2 ^ (52 : Int) * 2 ^ (Int.log 2 q - 52) := by
          norm_num [hiddenBit]
      _ = 2 ^ Int.log 2 q := by rw [← zpow_add₀ (by norm_num), add_sub_cancel]
      _ ≤ q := by exact_mod_cast Int.zpow_log_le_self (b := 2) (by decide) hq
  simp only [nearest, hq.ne', if_false, hgrid]
  refine Nat.min_eq_right ?_
  calc infinity = 2046 * hiddenBit + hiddenBit := by decide
    _ ≤ _ := Nat.add_le_add (Nat.mul_le_mul_right _ hfield) hdigits

/-- Three binary digits are less than a decimal one. -/
theorem two_pow_le_ten_pow {a b : Nat} (h : a ≤ 3 * b) : (2 : ℚ) ^ a ≤ 10 ^ b :=
  calc (2 : ℚ) ^ a ≤ 2 ^ (3 * b) := pow_le_pow_right₀ (by norm_num) h
    _ = 8 ^ b := by rw [pow_mul]; norm_num
    _ ≤ 10 ^ b := by gcongr; norm_num

/-- Reading a decimal finds the magnitude nearest to its value; what the reading does
not carry out is far from every finite magnitude. -/
theorem magnitudeOf_eq (digits : Nat) (exponent : Int) :
    magnitudeOf digits exponent = nearest (digits * (10 : ℚ) ^ exponent) := by
  rcases Nat.eq_zero_or_pos digits with rfl | hdigits
  · simp [magnitudeOf, nearest]
  have hvalue : 0 < (digits : ℚ) * 10 ^ exponent := by positivity
  unfold magnitudeOf
  split_ifs with hsmall hlarge
  · have hexp : exponent ≤ -((digits.log2 : Int) + 402) := by omega
    have hlog : (digits : ℚ) < 2 ^ (digits.log2 + 1) := by exact_mod_cast Nat.lt_log2_self
    refine (nearest_tiny hvalue ?_).symm
    calc (digits : ℚ) * 10 ^ exponent < 2 ^ (digits.log2 + 1) * 10 ^ exponent := by gcongr
      _ ≤ 2 ^ (digits.log2 + 1) * 10 ^ (-((digits.log2 : Int) + 402)) := by
        gcongr
        norm_num
      _ = 2 ^ (digits.log2 + 1) / 10 ^ (digits.log2 + 402) := by
        rw [zpow_neg, ← div_eq_mul_inv]
        norm_cast
      _ ≤ 2 ^ (-1075 : Int) := by
        rw [div_le_iff₀ (by positivity)]
        calc (2 : ℚ) ^ (digits.log2 + 1) = 2 ^ (-1075 : Int) * 2 ^ (digits.log2 + 1076) := by
              have h : ((digits.log2 + 1 : Nat) : Int) = -1075 + (digits.log2 + 1076 : Nat) := by
                omega
              rw [← zpow_natCast, h, zpow_add₀ (by norm_num), zpow_natCast]
          _ ≤ _ := by
            gcongr
            exact two_pow_le_ten_pow (by omega)
  · refine (nearest_huge ?_).symm
    calc (2 : ℚ) ^ (1024 : Int) ≤ 1 * 10 ^ (401 : Int) := by
          rw [one_mul]
          exact two_pow_le_ten_pow (a := 1024) (b := 401) (by decide)
      _ ≤ digits * 10 ^ exponent := by
        gcongr
        · exact_mod_cast hdigits
        · norm_num
        · omega
  · show nearestMagnitude (scaled 10 digits 1 (-exponent)).1 (scaled 10 digits 1 (-exponent)).2 = _
    rw [nearestMagnitude_eq (scaled_pos (by decide) Nat.one_pos), scaled_ratio (by decide)]
    simp

/-! ### Magnitudes -/

/-- A whole number of steps of the grid that is taken for it is rounded to itself. -/
theorem nearest_grid {n : Nat} {grid : Int} (hn : 0 < n) (hlt : n < 2 * hiddenBit)
    (hgrid : -1074 ≤ grid) (hnormal : grid = -1074 ∨ hiddenBit ≤ n) :
    nearest (n * (2 : ℚ) ^ grid) = min ((grid + 1074).toNat * hiddenBit + n) infinity := by
  have hq : (n : ℚ) * 2 ^ grid ≠ 0 := by positivity
  have hbelow : Int.log 2 ((n : ℚ) * 2 ^ grid) < 53 + grid := by
    rw [← Int.lt_zpow_iff_log_lt (by decide) (by positivity)]
    push_cast
    rw [zpow_add₀ (by norm_num)]
    gcongr
    exact_mod_cast hlt
  have habove (h : hiddenBit ≤ n) : 52 + grid ≤ Int.log 2 ((n : ℚ) * 2 ^ grid) := by
    rw [← Int.zpow_le_iff_le_log (by decide) (by positivity)]
    push_cast
    rw [zpow_add₀ (by norm_num)]
    gcongr
    exact_mod_cast h
  have htaken : max (Int.log 2 ((n : ℚ) * 2 ^ grid) - 52) (-1074) = grid := by
    rcases hnormal with rfl | h
    · omega
    · have := habove h
      omega
  have hsteps : (n : ℚ) * 2 ^ grid / 2 ^ grid = n := mul_div_cancel_right₀ _ (by positivity)
  simp only [nearest, hq, if_false, htaken, hsteps, halfEven_natCast]

/-- A finite magnitude is nearest to what it denotes. -/
theorem nearest_split {m : Nat} (hm : m < infinity) :
    nearest ((split m).1 * (2 : ℚ) ^ (split m).2) = m := by
  have hdiv := Nat.div_add_mod m hiddenBit
  have hmod : m % hiddenBit < hiddenBit := Nat.mod_lt _ (by decide)
  simp only [split]
  split
  case isTrue hfield =>
    rw [hfield, Nat.mul_zero, Nat.zero_add] at hdiv
    rcases Nat.eq_zero_or_pos m with rfl | hpos
    · simp [nearest]
    · have hlt : m < hiddenBit := hdiv ▸ hmod
      simp only [hdiv]
      rw [nearest_grid hpos (by omega) le_rfl (.inl rfl)]
      exact (Nat.min_eq_left (by simpa using hm.le)).trans (by simp)
  case isFalse hfield =>
    obtain ⟨f, hf⟩ := Nat.exists_eq_succ_of_ne_zero hfield
    rw [hf] at hdiv ⊢
    have hgrid : ((f.succ : Nat) - 1075 + 1074 : Int).toNat = f := by omega
    have hsum : f * hiddenBit + (hiddenBit + m % hiddenBit) = m := by
      rw [Nat.mul_succ, Nat.mul_comm] at hdiv
      omega
    have hpos : 0 < hiddenBit := by decide
    rw [nearest_grid (by omega) (by omega) (by omega) (.inr (by omega)), hgrid, hsum,
      Nat.min_eq_left hm.le]

theorem split_pos {m : Nat} (hm : m ≠ 0) : 0 < (split m).1 := by
  have hdiv := Nat.div_add_mod m hiddenBit
  simp only [split]
  split
  case isTrue hfield =>
    rw [hfield, Nat.mul_zero, Nat.zero_add] at hdiv
    exact Nat.pos_of_ne_zero fun h => hm (hdiv.symm.trans h)
  case isFalse => exact Nat.add_pos_left (by decide) _

/-! ### The shortest decimal -/

theorem magnitudeOf_candidate {m num den digits : Nat} {exponent : Int}
    (h : candidate? m num den exponent = some digits) : magnitudeOf digits exponent = m := by
  have either (a b : Nat) (h : (if magnitudeOf a exponent == m then some a
      else if magnitudeOf b exponent == m then some b else none) = some digits) :
      magnitudeOf digits exponent = m := by grind
  exact either _ _ h

/-- The search ends with a decimal that reads back if the point of the finest grid
does. -/
theorem magnitudeOf_searchGrids {m num den : Nat} {steps : Nat} {exponent : Int}
    (hfinest : magnitudeOf ((scaled 10 num den (exponent - steps)).1
      / (scaled 10 num den (exponent - steps)).2) (exponent - steps) = m) :
    magnitudeOf (searchGrids m num den steps exponent).digits
      (searchGrids m num den steps exponent).exponent = m := by
  induction steps generalizing exponent with
  | zero => simpa only [searchGrids, Int.natCast_zero, sub_zero] using hfinest
  | succ steps ih =>
    simp only [searchGrids]
    split
    case h_1 digits h => exact magnitudeOf_candidate h
    case h_2 =>
      have hgrid : exponent - (steps + 1 : Nat) = exponent - 1 - steps := by omega
      rw [hgrid] at hfinest
      exact ih hfinest

/-- On the grid of `10 ^ power`, or of the units where the power is positive, a number
`n * 2 ^ power` is a point. -/
theorem exists_point (n : Nat) (power : Int) :
    ∃ k : Nat, (n : ℚ) * 2 ^ power = k * 10 ^ min power 0 := by
  rcases le_total power 0 with h | h
  · obtain ⟨j, hj⟩ := Int.eq_ofNat_of_zero_le (show 0 ≤ -power by omega)
    obtain rfl : power = -(j : Int) := by omega
    refine ⟨n * 5 ^ j, ?_⟩
    have hten : (10 : ℚ) ^ j = 5 ^ j * 2 ^ j := by rw [← mul_pow]; norm_num
    rw [min_eq_left h]
    push_cast
    rw [zpow_neg, zpow_neg, zpow_natCast, zpow_natCast, hten]
    field_simp
  · obtain ⟨j, rfl⟩ := Int.eq_ofNat_of_zero_le h
    exact ⟨n * 2 ^ j, by simp⟩

/-- The point of the finest grid reads back. -/
theorem magnitudeOf_finest {m num den : Nat} (hm : m < infinity)
    (hratio : (num : ℚ) / den = (split m).1 * 2 ^ (split m).2) :
    magnitudeOf ((scaled 10 num den (min (split m).2 0)).1
      / (scaled 10 num den (min (split m).2 0)).2) (min (split m).2 0) = m := by
  obtain ⟨k, hk⟩ := exists_point (split m).1 (split m).2
  have hpoint : (scaled 10 num den (min (split m).2 0)).1
      / (scaled 10 num den (min (split m).2 0)).2 = k := by
    rw [← Nat.floor_div_eq_div (K := ℚ), scaled_ratio (by decide), hratio, hk, Nat.cast_ofNat,
      mul_div_cancel_right₀ _ (by positivity), Nat.floor_natCast]
  rw [hpoint, magnitudeOf_eq, ← hk, nearest_split hm]

/-- The shortest decimal of a finite magnitude reads back as it. -/
theorem magnitudeOf_shortest {m : Nat} (hm : m < infinity) :
    magnitudeOf (shortest m).digits (shortest m).exponent = m := by
  by_cases hzero : m = 0
  · simp [shortest, hzero, magnitudeOf]
  have hn := split_pos hzero
  simp only [shortest, hzero, if_false]
  have hden := @scaled_pos 2 (split m).1 1 (-(split m).2) (by decide) Nat.one_pos
  have hratio := @scaled_ratio 2 (split m).1 1 (-(split m).2) (by decide)
  generalize scaled 2 (split m).1 1 (-(split m).2) = pair at hden hratio
  obtain ⟨num, den⟩ := pair
  have hvalue : (num : ℚ) / den = (split m).1 * 2 ^ (split m).2 := by simpa using hratio
  have hnum : 0 < num := by
    refine Nat.pos_of_ne_zero fun h => ?_
    rw [h, Nat.cast_zero, zero_div] at hvalue
    exact absurd hvalue.symm (by positivity)
  -- The coarsest grid is above the finest one, since the number reaches its power of two.
  have hlog : (split m).2 ≤ floorLog2 num den := by
    rw [floorLog2_eq hnum hden, hvalue, ← Int.zpow_le_iff_le_log (by decide) (by positivity)]
    push_cast
    exact le_mul_of_one_le_left (by positivity) (by exact_mod_cast hn)
  dsimp only
  refine magnitudeOf_searchGrids ?_
  rw [Int.toNat_of_nonneg (by omega), sub_sub_cancel]
  exact magnitudeOf_finest hm hvalue

end TracePeel.Decimal
