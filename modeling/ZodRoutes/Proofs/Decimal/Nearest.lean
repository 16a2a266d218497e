/-
Rounding to the nearest binary64 number.

A quotient rounds to a number exactly where the interval around the number says so: every quotient in it
is rounded to that number.  The rank of the result is put together from a number of doublings and a
rounded quotient, so both have to be found.  Inside the interval the doublings are those of the number
itself, except just below a power of two, where the quotient still stands on the finer grid; there it
rounds up to the end of that grid, and the carry makes up for the missing doubling.

Rounding keeps the sign of an integer, and a positive integer does not round to zero.
-/
import Mathlib.Tactic.Linarith
import Mathlib.Tactic.Ring
import ZodRoutes.Decimal.Shortest

namespace ZodRoutes.Decimal.Double

/-! ### Rank, doublings and mantissa -/

theorem rank_eq (x : Double) : x.rank = x.shift * 2 ^ 52 + x.mantissa := by
  unfold mantissa shift
  simp only [Nat.shiftLeft_eq]
  omega

theorem mantissa_lt (x : Double) : x.mantissa < 2 ^ 53 := by
  unfold mantissa shift
  simp only [Nat.shiftLeft_eq]
  omega

/-- A mantissa is full where the spacing has doubled. -/
theorem le_mantissa {x : Double} (h : 0 < x.shift) : 2 ^ 52 ≤ x.mantissa := by
  unfold mantissa shift at *
  simp only [Nat.shiftLeft_eq] at *
  omega

theorem shift_le (x : Double) : x.shift ≤ 2045 := by
  have := x.rank_lt
  unfold shift
  simp only [Nat.shiftLeft_eq] at *
  omega

theorem units_eq (x : Double) : x.units = x.mantissa * 2 ^ x.shift := by
  unfold units
  rw [Nat.shiftLeft_eq]

theorem unitsPerOne_pos : 0 < unitsPerOne := by
  decide

/-! ### Rounding a quotient -/

/-- The nearest whole number is one within a half, an even one at the distance of a half. -/
theorem roundHalfEven_eq {num den n : Nat} (hden : 0 < den) (hlow : 2 * (n * den) ≤ 2 * num + den)
    (hhigh : 2 * num ≤ 2 * (n * den) + den)
    (htie : 2 * (n * den) = 2 * num + den ∨ 2 * num = 2 * (n * den) + den → n % 2 = 0) :
    roundHalfEven num den = n := by
  have hdiv := Nat.div_add_mod num den
  have hmod := Nat.mod_lt num hden
  unfold roundHalfEven
  dsimp only
  generalize num / den = q at *
  generalize num % den = r at *
  subst hdiv
  rw [Nat.mul_comm den q] at *
  have hn : n = q ∨ n = q + 1 := by
    have h1 : n < q + 2 := by
      by_contra hge
      have := Nat.mul_le_mul_right den (Nat.le_of_not_lt hge)
      rw [Nat.add_mul] at this
      omega
    have h2 : q ≤ n := by
      by_contra hlt
      have := Nat.mul_le_mul_right den (Nat.succ_le_of_lt (Nat.lt_of_not_le hlt))
      rw [Nat.succ_mul] at this
      omega
    omega
  rcases hn with rfl | rfl
  · -- The quotient lies above, by less than a half unless the quotient is even.
    by_cases hless : 2 * r < den
    · rw [if_pos hless]
    · have heven := htie (.inr (by omega))
      rw [if_neg hless, if_neg (by omega), if_pos heven]
  · rw [Nat.add_mul, Nat.one_mul] at *
    have hnot : ¬ 2 * r < den := by omega
    rw [if_neg hnot]
    by_cases hmore : den < 2 * r
    · rw [if_pos hmore]
    · have heven := htie (.inl (by omega))
      rw [if_neg hmore, if_neg (by omega)]

/-! ### Intervals -/

/-- The quotient lies in the interval. -/
structure Interval.Holds (i : Interval) (num den : Nat) : Prop where
  lower : i.lower * den ≤ num * scale
  upper : num * scale ≤ i.upper * den
  inner : i.closed = false → i.lower * den ≠ num * scale ∧ num * scale ≠ i.upper * den

/-- How far a quotient in the interval lies from the number: at most half a spacing, the half itself only
beside an even mantissa; and below, at most a quarter where the spacing has just doubled. -/
structure Near (x : Double) (num den : Nat) : Prop where
  below : 2 * (x.mantissa * (den * 2 ^ x.shift)) ≤ 2 * (num * unitsPerOne) + den * 2 ^ x.shift
  above : 2 * (num * unitsPerOne) ≤ 2 * (x.mantissa * (den * 2 ^ x.shift)) + den * 2 ^ x.shift
  even : 2 * (x.mantissa * (den * 2 ^ x.shift)) = 2 * (num * unitsPerOne) + den * 2 ^ x.shift ∨
    2 * (num * unitsPerOne) = 2 * (x.mantissa * (den * 2 ^ x.shift)) + den * 2 ^ x.shift →
      x.mantissa % 2 = 0
  quarter : x.mantissa = 2 ^ 52 → 0 < x.shift →
    4 * (x.mantissa * (den * 2 ^ x.shift)) ≤ 4 * (num * unitsPerOne) + den * 2 ^ x.shift

theorem near_of_holds {x : Double} {num den : Nat} (h : x.interval.Holds num den) : x.Near num den := by
  obtain ⟨hlower, hupper, hinner⟩ := h
  have hcentre : 4 * x.units * den = 4 * (x.mantissa * (den * 2 ^ x.shift)) := by
    rw [units_eq]
    ring
  have hspacing : 2 ^ x.shift * den = den * 2 ^ x.shift := Nat.mul_comm _ _
  have hscale : num * Interval.scale = 4 * (num * unitsPerOne) := by
    unfold Interval.scale
    ring
  have heven : x.mantissa % 2 = 0 ∨ x.interval.closed = false := by
    by_cases h : x.mantissa % 2 = 0
    · exact .inl h
    · exact .inr (by simpa [interval] using h)
  unfold interval at hlower hupper hinner
  simp only [Nat.shiftLeft_eq, Nat.one_mul, hscale, Nat.sub_mul, Nat.add_mul, hcentre,
    Nat.mul_assoc 2 (2 ^ x.shift), hspacing] at hlower hupper hinner
  by_cases hside : x.mantissa = 2 ^ 52 ∧ 0 < x.shift
  · rw [if_pos hside, hspacing] at hlower
    exact ⟨by omega, by omega, fun _ => by omega, fun _ _ => by omega⟩
  · rw [if_neg hside, Nat.mul_assoc, hspacing] at hlower hinner
    refine ⟨by omega, by omega, fun htie => ?_, fun hm hs => absurd ⟨hm, hs⟩ hside⟩
    rcases heven with heven | hopen
    · exact heven
    · have := hinner hopen
      omega

/-! ### The interval rounds to its number -/

/-- The doublings of a quotient are told by the powers of two around it. -/
theorem doublings_eq {quotient shift : Nat} (hlow : 0 < shift → 2 ^ (52 + shift) ≤ quotient)
    (hhigh : quotient < 2 ^ (53 + shift)) : quotient.log2 - 52 = shift := by
  by_cases hzero : quotient = 0
  · subst hzero
    have hshift : ¬ 0 < shift := fun h => absurd (hlow h) (by simp)
    rw [Nat.log2_zero]
    omega
  · have hless := (Nat.log2_lt hzero).mpr hhigh
    by_cases hshift : 0 < shift
    · have hmore := (Nat.le_log2 hzero).mpr (hlow hshift)
      omega
    · omega

theorem nearest_eq_some {x : Double} {num den : Nat} (negative : Bool) (shift : Nat)
    (hshift : (num * unitsPerOne / den).log2 - 52 = shift)
    (hrank : shift * 2 ^ 52 + roundHalfEven (num * unitsPerOne) (den * 2 ^ shift) = x.rank) :
    nearest negative num den = some { x with negative } := by
  unfold nearest
  simp only [hshift, Nat.shiftLeft_eq _ shift]
  have hrank' : shift <<< 52 + roundHalfEven (num * unitsPerOne) (den * 2 ^ shift) = x.rank := by
    rw [Nat.shiftLeft_eq, hrank]
  simp only [hrank']
  exact dif_pos x.rank_lt

/-- On the grid of the number itself the mantissa is the rounded quotient. -/
theorem nearest_of_near_above {x : Double} {num den : Nat} (hden : 0 < den) (h : x.Near num den)
    (negative : Bool)
    (habove : 0 < x.shift → 2 ^ 52 * (den * 2 ^ x.shift) ≤ num * unitsPerOne) :
    nearest negative num den = some { x with negative } := by
  have hspacing : 0 < den * 2 ^ x.shift := Nat.mul_pos hden (Nat.two_pow_pos _)
  have hbelow : num * unitsPerOne < 2 ^ 53 * (den * 2 ^ x.shift) := by
    have hmantissa := Nat.mul_le_mul_right (den * 2 ^ x.shift) (Nat.succ_le_of_lt x.mantissa_lt)
    rw [Nat.succ_mul] at hmantissa
    have := h.above
    omega
  refine nearest_eq_some negative x.shift (doublings_eq ?_ ?_) ?_
  · intro hshift
    rw [Nat.le_div_iff_mul_le hden]
    calc 2 ^ (52 + x.shift) * den = 2 ^ 52 * (den * 2 ^ x.shift) := by ring
      _ ≤ num * unitsPerOne := habove hshift
  · rw [Nat.div_lt_iff_lt_mul hden]
    calc num * unitsPerOne < 2 ^ 53 * (den * 2 ^ x.shift) := hbelow
      _ = 2 ^ (53 + x.shift) * den := by ring
  · rw [roundHalfEven_eq hspacing h.below h.above h.even, rank_eq]

/-- Just below a power of two the quotient stands on the finer grid and rounds up to its end. -/
theorem nearest_of_near_below {x : Double} {num den : Nat} (hden : 0 < den) (h : x.Near num den)
    (negative : Bool) (hshift : 0 < x.shift)
    (hless : num * unitsPerOne < 2 ^ 52 * (den * 2 ^ x.shift)) :
    nearest negative num den = some { x with negative } := by
  have hmantissa : x.mantissa = 2 ^ 52 := by
    by_contra hne
    have hfull := le_mantissa hshift
    have hmore : 2 ^ 52 + 1 ≤ x.mantissa := by omega
    have hscaled := Nat.mul_le_mul_right (den * 2 ^ x.shift) hmore
    have := h.below
    omega
  have hquarter := h.quarter hmantissa hshift
  obtain ⟨finer, hfiner⟩ : ∃ finer, x.shift = finer + 1 := ⟨x.shift - 1, by omega⟩
  have hdouble : den * 2 ^ x.shift = 2 * (den * 2 ^ finer) := by
    rw [hfiner]
    ring
  rw [hmantissa, hdouble] at hquarter
  rw [hdouble] at hless
  have hspacing : 0 < den * 2 ^ finer := Nat.mul_pos hden (Nat.two_pow_pos _)
  refine nearest_eq_some negative finer (doublings_eq ?_ ?_) ?_
  · intro _
    rw [Nat.le_div_iff_mul_le hden]
    calc 2 ^ (52 + finer) * den = 2 ^ 52 * (den * 2 ^ finer) := by ring
      _ ≤ num * unitsPerOne := by omega
  · rw [Nat.div_lt_iff_lt_mul hden]
    calc num * unitsPerOne < 2 ^ 53 * (den * 2 ^ finer) := by omega
      _ = 2 ^ (53 + finer) * den := by ring
  · have hround : roundHalfEven (num * unitsPerOne) (den * 2 ^ finer) = 2 ^ 53 :=
      roundHalfEven_eq hspacing (by omega) (by omega) (fun _ => by decide)
    rw [hround, rank_eq, hmantissa, hfiner]
    omega

/-- **Every quotient in the interval of a number is rounded to it.** -/
theorem nearest_of_holds {x : Double} {num den : Nat} (hden : 0 < den)
    (h : x.interval.Holds num den) (negative : Bool) :
    nearest negative num den = some { x with negative } := by
  have hnear := near_of_holds h
  by_cases hbelow : 0 < x.shift ∧ num * unitsPerOne < 2 ^ 52 * (den * 2 ^ x.shift)
  · exact nearest_of_near_below hden hnear negative hbelow.1 hbelow.2
  · exact nearest_of_near_above hden hnear negative fun hshift => by omega

/-- A number is rounded to itself. -/
theorem nearest_of_eq {x : Double} {num den : Nat} (hden : 0 < den) (h : num * unitsPerOne = x.units * den)
    (negative : Bool) : nearest negative num den = some { x with negative } := by
  have hspacing : 0 < den * 2 ^ x.shift := Nat.mul_pos hden (Nat.two_pow_pos _)
  have heq : num * unitsPerOne = x.mantissa * (den * 2 ^ x.shift) := by
    rw [h, units_eq]
    ring
  have hnear : x.Near num den :=
    ⟨by omega, by omega, fun htie => by omega, fun _ _ => by omega⟩
  refine nearest_of_near_above hden hnear negative fun hshift => ?_
  rw [heq]
  exact Nat.mul_le_mul_right _ (le_mantissa hshift)

/-! ### Signs -/

theorem rank_eq_zero {x : Double} : x.rank = 0 ↔ x.units = 0 := by
  rw [units_eq, Nat.mul_eq_zero, rank_eq]
  have hpower : 2 ^ x.shift ≠ 0 := Nat.pos_iff_ne_zero.mp (Nat.two_pow_pos _)
  by_cases hshift : 0 < x.shift
  · have hmantissa := le_mantissa hshift
    simp only [hpower, or_false]
    omega
  · have hzero : x.shift = 0 := by omega
    simp [hzero]

theorem ofInt_negative (n : Int) : (ofInt n).negative = decide (n < 0) := by
  unfold ofInt nearest
  dsimp only
  split <;> rfl

/-- The number nearest to a positive integer is not zero. -/
theorem rank_ofInt_ne_zero {n : Int} (h : 0 < n) : (ofInt n).rank ≠ 0 := by
  have hscaled : n.natAbs * unitsPerOne ≠ 0 := by
    have hn : n.natAbs ≠ 0 := by omega
    exact Nat.mul_ne_zero hn (Nat.pos_iff_ne_zero.mp unitsPerOne_pos)
  unfold ofInt nearest
  dsimp only
  rw [Nat.div_one]
  generalize n.natAbs * unitsPerOne = scaled at hscaled
  split
  · -- The quotient keeps its leading digit, so rounding it gives at least one.
    have hshift : 1 <<< (scaled.log2 - 52) ≤ scaled := by
      rw [Nat.one_shiftLeft]
      exact Nat.le_trans (Nat.pow_le_pow_right (by decide) (Nat.sub_le ..)) (Nat.log2_self_le hscaled)
    have hpositive : 0 < 1 <<< (scaled.log2 - 52) := by
      rw [Nat.one_shiftLeft]
      exact Nat.two_pow_pos _
    have hbelow : 0 < scaled / (1 <<< (scaled.log2 - 52)) := Nat.div_pos hshift hpositive
    have hrounded : 0 < roundHalfEven scaled (1 <<< (scaled.log2 - 52)) := by
      unfold roundHalfEven
      dsimp only
      split_ifs <;> omega
    rw [Option.getD_some]
    dsimp only
    omega
  · show 2047 * (1 <<< 52) - 1 ≠ 0
    decide

end ZodRoutes.Decimal.Double
