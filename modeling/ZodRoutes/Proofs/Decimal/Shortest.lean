/-
The shortest decimal reads back.

A decimal is written with its power of ten apart, so that it is a quotient of whole numbers in one way for
each exponent.  Whatever grid the search stops at, the point it takes lies in the interval.  It does stop:
with seventeen digits the grid is finer than the interval is wide, and of the two neighbours of the number
one lies inside.
-/
import ZodRoutes.Proofs.Decimal.Nearest

namespace ZodRoutes.Decimal.Double

variable {i : Interval} {x : Double}

/-! ### Decimals in an interval -/

theorem powerOfTen_pos (n : Nat) : 0 < powerOfTen n :=
  Nat.pow_pos (by decide)

theorem powerOfTen_add (m n : Nat) : powerOfTen (m + n) = powerOfTen m * powerOfTen n :=
  Nat.pow_add 10 m n

/-- A decimal lies in the interval. -/
def Interval.HoldsAt (i : Interval) (digits : Nat) (exponent : Int) : Prop :=
  i.Holds (digits * powerOfTen exponent.toNat) (powerOfTen (-exponent).toNat)

/-- A quotient may be expanded. -/
theorem Interval.holds_mul {num den factor : Nat} (h : 0 < factor) :
    i.Holds (num * factor) (den * factor) ↔ i.Holds num den := by
  have hlower : i.lower * (den * factor) = i.lower * den * factor := (Nat.mul_assoc ..).symm
  have hupper : i.upper * (den * factor) = i.upper * den * factor := (Nat.mul_assoc ..).symm
  have hnum : num * factor * scale = num * scale * factor := Nat.mul_right_comm ..
  have hcancel : ∀ {a b : Nat}, a * factor ≤ b * factor ↔ a ≤ b := Nat.mul_le_mul_right_iff h
  have hcancel' : ∀ {a b : Nat}, a * factor = b * factor ↔ a = b := Nat.mul_left_inj (by omega)
  constructor
  · rintro ⟨lower, upper, inner⟩
    rw [hlower, hnum] at lower inner
    rw [hnum, hupper] at upper
    rw [hupper] at inner
    refine ⟨hcancel.mp lower, hcancel.mp upper, fun hopen => ?_⟩
    simpa only [ne_eq, hcancel'] using inner hopen
  · rintro ⟨lower, upper, inner⟩
    refine ⟨?_, ?_, fun hopen => ?_⟩
    · rw [hlower, hnum]
      exact hcancel.mpr lower
    · rw [hnum, hupper]
      exact hcancel.mpr upper
    · rw [hlower, hnum, hupper]
      simpa only [ne_eq, hcancel'] using inner hopen

/-- A zero at the end of the digits is a power of ten. -/
theorem Interval.holdsAt_mul_ten {digits : Nat} {exponent : Int} :
    i.HoldsAt (digits * 10) exponent ↔ i.HoldsAt digits (exponent + 1) := by
  unfold HoldsAt
  by_cases hexponent : 0 ≤ exponent
  · have hnum : (exponent + 1).toNat = exponent.toNat + 1 := by omega
    have hden : (-(exponent + 1)).toNat = (-exponent).toNat := by omega
    rw [hnum, hden, Nat.add_comm exponent.toNat, powerOfTen_add, ← Nat.mul_assoc]
    rfl
  · have hnum : (exponent + 1).toNat = exponent.toNat := by omega
    have hden : (-exponent).toNat = (-(exponent + 1)).toNat + 1 := by omega
    rw [hnum, hden, powerOfTen_add, Nat.mul_right_comm]
    exact holds_mul (by decide)

theorem Interval.holdsAt_mul_powerOfTen {digits zeros : Nat} {exponent : Int} :
    i.HoldsAt (digits * powerOfTen zeros) exponent ↔ i.HoldsAt digits (exponent + zeros) := by
  induction zeros generalizing exponent with
  | zero => simp [powerOfTen]
  | succ zeros ih =>
      have hnext : exponent + (zeros + 1 : Nat) = exponent + 1 + zeros := by omega
      rw [powerOfTen_add, ← Nat.mul_assoc, hnext, ← ih]
      exact holdsAt_mul_ten

theorem holdsAt_stripZeros {d : Digits} (fuel : Nat) (h : i.HoldsAt d.digits d.exponent) :
    i.HoldsAt (Digits.stripZeros fuel d).digits (Digits.stripZeros fuel d).exponent := by
  induction fuel generalizing d with
  | zero => exact h
  | succ fuel ih =>
      unfold Digits.stripZeros
      split
      · next hzero =>
          refine ih ?_
          rw [← Interval.holdsAt_mul_ten]
          have hdigits : d.digits / 10 * 10 = d.digits := by omega
          rwa [hdigits]
      · exact h

/-! ### Grid points -/

namespace Interval

/-- The grid point below the centre. -/
def below (i : Interval) (exponent : Int) : Nat :=
  i.centre * powerOfTen (-exponent).toNat / (scale * powerOfTen exponent.toNat)

/-- The test that decides whether a grid point is taken. -/
def inside (i : Interval) (exponent : Int) (n : Nat) : Bool :=
  let unit := scale * powerOfTen exponent.toNat
  let factor := powerOfTen (-exponent).toNat
  if i.closed then decide (i.lower * factor ≤ n * unit ∧ n * unit ≤ i.upper * factor)
  else decide (i.lower * factor < n * unit ∧ n * unit < i.upper * factor)

theorem inside_iff {exponent : Int} {n : Nat} : i.inside exponent n ↔ i.HoldsAt n exponent := by
  have hpoint : n * (scale * powerOfTen exponent.toNat) = n * powerOfTen exponent.toNat * scale := by
    ring
  unfold inside
  dsimp only
  rw [hpoint]
  by_cases hclosed : i.closed
  · rw [if_pos hclosed, decide_eq_true_iff]
    constructor
    · rintro ⟨lower, upper⟩
      exact ⟨lower, upper, fun hopen => absurd hopen (by simp [hclosed])⟩
    · exact fun h => ⟨h.lower, h.upper⟩
  · rw [if_neg hclosed, decide_eq_true_iff]
    constructor
    · rintro ⟨lower, upper⟩
      exact ⟨lower.le, upper.le, fun _ => ⟨lower.ne, upper.ne⟩⟩
    · intro h
      have hne := h.inner (by simpa using hclosed)
      exact ⟨lt_of_le_of_ne h.lower hne.1, lt_of_le_of_ne h.upper hne.2⟩

/-- One of the two neighbours of the centre is taken, and it lies in the interval. -/
theorem holdsAt_of_onGrid? {tie : Tie} {exponent : Int} {n : Nat}
    (h : i.onGrid? tie exponent = some n) : i.HoldsAt n exponent := by
  have hbelow : i.inside exponent (i.below exponent) → n = i.below exponent → i.HoldsAt n exponent := by
    rintro hinside rfl
    exact inside_iff.mp hinside
  have habove : i.inside exponent (i.below exponent + 1) → n = i.below exponent + 1 →
      i.HoldsAt n exponent := by
    rintro hinside rfl
    exact inside_iff.mp hinside
  unfold onGrid? at h
  dsimp only at h
  split at h
  · next hlow hhigh =>
      split at h
      · exact hbelow hlow (Option.some.inj h).symm
      · split at h
        · exact habove hhigh (Option.some.inj h).symm
        · split at h
          · rw [Option.some.injEq] at h
            split at h
            · exact hbelow hlow h.symm
            · exact habove hhigh h.symm
          · exact habove hhigh (Option.some.inj h).symm
  · next hlow _ => exact hbelow hlow (Option.some.inj h).symm
  · next _ hhigh => exact habove hhigh (Option.some.inj h).symm
  · cases h

/-- No point of a grid is taken only when both neighbours of the centre lie outside. -/
theorem not_holdsAt_of_onGrid? {tie : Tie} {exponent : Int} (h : i.onGrid? tie exponent = none) :
    ¬ i.HoldsAt (i.below exponent) exponent ∧ ¬ i.HoldsAt (i.below exponent + 1) exponent := by
  rw [← inside_iff, ← inside_iff]
  unfold onGrid? at h
  dsimp only at h
  split at h
  · split at h
    · cases h
    · split at h
      · cases h
      · split at h <;> cases h
  · cases h
  · cases h
  · next hlow hhigh =>
      refine ⟨?_, ?_⟩
      · exact fun hinside => absurd (hinside.symm.trans hlow) (by decide)
      · exact fun hinside => absurd (hinside.symm.trans hhigh) (by decide)

/-- A grid that is finer than the interval is wide has a point in it, next to the centre. -/
theorem onGrid?_ne_none {tie : Tie} {exponent : Int} (hlower : i.lower < i.centre)
    (hupper : i.centre < i.upper)
    (hfine : scale * powerOfTen exponent.toNat < (i.upper - i.lower) * powerOfTen (-exponent).toNat) :
    i.onGrid? tie exponent ≠ none := by
  intro hnone
  obtain ⟨hlow, hhigh⟩ := not_holdsAt_of_onGrid? hnone
  have hunit : 0 < scale * powerOfTen exponent.toNat :=
    Nat.mul_pos (Nat.mul_pos (by decide) unitsPerOne_pos) (powerOfTen_pos _)
  have hfactor := powerOfTen_pos (-exponent).toNat
  have hdiv := Nat.div_add_mod (i.centre * powerOfTen (-exponent).toNat)
    (scale * powerOfTen exponent.toNat)
  have hmod := Nat.mod_lt (i.centre * powerOfTen (-exponent).toNat) hunit
  have hcentre : i.lower * powerOfTen (-exponent).toNat < i.centre * powerOfTen (-exponent).toNat :=
    Nat.mul_lt_mul_of_pos_right hlower hfactor
  have hcentre' : i.centre * powerOfTen (-exponent).toNat < i.upper * powerOfTen (-exponent).toNat :=
    Nat.mul_lt_mul_of_pos_right hupper hfactor
  have hpoint : ∀ n, n * powerOfTen exponent.toNat * scale = scale * powerOfTen exponent.toNat * n := by
    intro n
    ring
  rw [Nat.sub_mul] at hfine
  have hleft : scale * powerOfTen exponent.toNat * i.below exponent ≤
      i.lower * powerOfTen (-exponent).toNat := by
    by_contra hmore
    refine hlow ⟨?_, ?_, fun _ => ⟨?_, ?_⟩⟩ <;> rw [hpoint] <;> unfold below at * <;> omega
  have hright : i.upper * powerOfTen (-exponent).toNat ≤
      scale * powerOfTen exponent.toNat * (i.below exponent + 1) := by
    by_contra hless
    rw [Nat.mul_add, Nat.mul_one] at hless
    refine hhigh ⟨?_, ?_, fun _ => ⟨?_, ?_⟩⟩ <;> rw [hpoint, Nat.mul_add, Nat.mul_one] <;>
      unfold below at * <;> omega
  rw [Nat.mul_add, Nat.mul_one] at hright
  unfold below at *
  omega

end Interval

/-! ### Seventeen digits are enough -/

theorem mantissa_pos (h : x.rank ≠ 0) : 0 < x.mantissa := by
  by_cases hshift : 0 < x.shift
  · have := le_mantissa hshift
    omega
  · have := x.rank_eq
    omega

theorem Digits.powerOfTen_count_le {n : Nat} (h : 0 < n) : powerOfTen (Digits.count n - 1) ≤ n := by
  unfold Digits.count Digits.text
  have hlength : 0 < (Nat.toDigits 10 n).length := Nat.length_toDigits_pos
  by_cases hone : (Nat.toDigits 10 n).length = 1
  · rw [hone]
    exact h
  · have hmore : ¬ (Nat.toDigits 10 n).length ≤ (Nat.toDigits 10 n).length - 1 := by omega
    rw [Nat.length_toDigits_le_iff (by decide) (by omega), Nat.not_lt] at hmore
    exact hmore

theorem Digits.lt_powerOfTen_count (n : Nat) : n < powerOfTen (Digits.count n) := by
  have hlength : 0 < (Nat.toDigits 10 n).length := Nat.length_toDigits_pos
  exact (Nat.length_toDigits_le_iff (by decide) hlength).mp (Nat.le_refl _)

/-- The power of ten of the first digit is no larger than the number. -/
theorem magnitude_le (h : 0 < i.centre) :
    Interval.scale * powerOfTen i.magnitude.toNat ≤ i.centre * powerOfTen (-i.magnitude).toNat := by
  have hscale : 0 < Interval.scale := Nat.mul_pos (by decide) unitsPerOne_pos
  unfold Interval.magnitude
  split
  · next hlarge =>
      have hwhole : 0 < i.centre / Interval.scale := Nat.div_pos hlarge hscale
      have hcount : 0 < Digits.count (i.centre / Interval.scale) := Nat.length_toDigits_pos
      have htop : ((Digits.count (i.centre / Interval.scale) : Int) - 1).toNat =
          Digits.count (i.centre / Interval.scale) - 1 := by omega
      have hbottom : (-((Digits.count (i.centre / Interval.scale) : Int) - 1)).toNat = 0 := by omega
      rw [htop, hbottom]
      calc Interval.scale * powerOfTen (Digits.count (i.centre / Interval.scale) - 1)
          ≤ Interval.scale * (i.centre / Interval.scale) :=
            Nat.mul_le_mul_left _ (Digits.powerOfTen_count_le hwhole)
        _ ≤ i.centre := Nat.mul_div_le _ _
        _ = i.centre * powerOfTen 0 := (Nat.mul_one _).symm
  · next hsmall =>
      -- One over the number, rounded up, has no more digits than the number has zeros before it.
      generalize hceil : (Interval.scale + i.centre - 1) / i.centre = ceil
      have hbelow : Interval.scale ≤ i.centre * ceil := by
        have hdiv := Nat.div_add_mod (Interval.scale + i.centre - 1) i.centre
        have hmod := Nat.mod_lt (Interval.scale + i.centre - 1) h
        rw [hceil] at hdiv
        omega
      have hceil' : ceil ≤ powerOfTen (Digits.count (ceil - 1)) := by
        have := Digits.lt_powerOfTen_count (ceil - 1)
        omega
      have htop : (-(Digits.count (ceil - 1) : Int)).toNat = 0 := by omega
      have hbottom : (- -(Digits.count (ceil - 1) : Int)).toNat = Digits.count (ceil - 1) := by omega
      rw [htop, hbottom]
      calc Interval.scale * powerOfTen 0 = Interval.scale := Nat.mul_one _
        _ ≤ i.centre * ceil := hbelow
        _ ≤ i.centre * powerOfTen (Digits.count (ceil - 1)) := Nat.mul_le_mul_left _ hceil'

/-- Sixteen places behind the first digit the grid is at least so much finer than the number. -/
theorem unit_le (h : 0 < i.centre) (exponent : Int) (he : exponent = i.magnitude - 16) :
    Interval.scale * powerOfTen exponent.toNat * powerOfTen 16 ≤
      i.centre * powerOfTen (-exponent).toNat := by
  have hexponents : exponent.toNat + 16 + (-i.magnitude).toNat =
      i.magnitude.toNat + (-exponent).toNat := by omega
  have hpowers : powerOfTen exponent.toNat * powerOfTen 16 * powerOfTen (-i.magnitude).toNat =
      powerOfTen i.magnitude.toNat * powerOfTen (-exponent).toNat := by
    rw [← powerOfTen_add, ← powerOfTen_add, ← powerOfTen_add, hexponents]
  refine Nat.le_of_mul_le_mul_right ?_ (powerOfTen_pos (-i.magnitude).toNat)
  calc Interval.scale * powerOfTen exponent.toNat * powerOfTen 16 * powerOfTen (-i.magnitude).toNat
      = Interval.scale * (powerOfTen exponent.toNat * powerOfTen 16 *
          powerOfTen (-i.magnitude).toNat) := by ring
    _ = Interval.scale * powerOfTen i.magnitude.toNat * powerOfTen (-exponent).toNat := by
        rw [hpowers]
        ring
    _ ≤ i.centre * powerOfTen (-i.magnitude).toNat * powerOfTen (-exponent).toNat :=
        Nat.mul_le_mul_right _ (magnitude_le h)
    _ = i.centre * powerOfTen (-exponent).toNat * powerOfTen (-i.magnitude).toNat := by ring

/-- The interval of a number above zero is wide, compared with the number. -/
theorem interval_wide (h : x.rank ≠ 0) :
    x.interval.lower < x.interval.centre ∧ x.interval.centre < x.interval.upper ∧
      x.interval.centre < powerOfTen 16 * (x.interval.upper - x.interval.lower) := by
  have hmantissa := mantissa_pos h
  have hless := x.mantissa_lt
  have hspacing : 0 < 2 ^ x.shift := Nat.two_pow_pos _
  have hpower : powerOfTen 16 = 10 ^ 16 := rfl
  have hcentre : 2 ^ x.shift ≤ x.mantissa * 2 ^ x.shift := Nat.le_mul_of_pos_left _ hmantissa
  have hbound : x.mantissa * 2 ^ x.shift < 2 ^ 53 * 2 ^ x.shift :=
    Nat.mul_lt_mul_of_pos_right hless hspacing
  unfold interval
  simp only [units_eq, Nat.shiftLeft_eq, Nat.one_mul, hpower]
  split
  · next hside =>
      rw [hside.1] at *
      refine ⟨by omega, by omega, by omega⟩
  · refine ⟨by omega, by omega, by omega⟩

theorem powerOfTen_le {m n : Nat} (h : m ≤ n) : powerOfTen m ≤ powerOfTen n :=
  Nat.pow_le_pow_right (by decide) h

theorem scale_lt : Interval.scale < powerOfTen 400 := by
  decide +kernel

/-- The interval of a number above zero reaches neither zero nor far beyond the range. -/
theorem interval_within (h : x.rank ≠ 0) :
    0 < x.interval.lower ∧ x.interval.upper < Interval.scale * powerOfTen 400 := by
  have hmantissa := mantissa_pos h
  have hless := x.mantissa_lt
  have hspacing : 0 < 2 ^ x.shift := Nat.two_pow_pos _
  have hcentre : 2 ^ x.shift ≤ x.mantissa * 2 ^ x.shift := Nat.le_mul_of_pos_left _ hmantissa
  have hupper : x.interval.upper ≤ 4 * ((x.mantissa + 1) * 2 ^ x.shift) := by
    unfold interval
    simp only [units_eq, Nat.shiftLeft_eq, Nat.one_mul, Nat.add_mul]
    omega
  have hlower : 0 < x.interval.lower := by
    unfold interval
    simp only [units_eq, Nat.shiftLeft_eq, Nat.one_mul]
    split <;> omega
  refine ⟨hlower, ?_⟩
  calc x.interval.upper ≤ 4 * ((x.mantissa + 1) * 2 ^ x.shift) := hupper
    _ ≤ 4 * (2 ^ 53 * 2 ^ 2045) := Nat.mul_le_mul_left 4
        (Nat.mul_le_mul hless (Nat.pow_le_pow_right (by decide) x.shift_le))
    _ < Interval.scale * powerOfTen 400 := by decide +kernel

/-- **The shortest decimal of a number above zero lies in its interval.** -/
theorem shortest_holdsAt (h : x.rank ≠ 0) (tie : Tie) :
    x.interval.HoldsAt (x.shortest tie).digits (x.shortest tie).exponent := by
  obtain ⟨hlower, hupper, hwide⟩ := interval_wide h
  have hcentre : 0 < x.interval.centre := by omega
  unfold shortest
  rw [if_neg h]
  dsimp only
  cases hfound : (List.range 17).findSome? fun (more : Nat) =>
      (x.interval.onGrid? tie (x.interval.magnitude - more)).map fun n =>
        Digits.stripZeros 20 ⟨n, x.interval.magnitude - more⟩ with
  | none =>
      exfalso
      have hlast := List.findSome?_eq_none_iff.mp hfound 16 (by decide)
      rw [Option.map_eq_none_iff] at hlast
      refine Interval.onGrid?_ne_none hlower hupper ?_ hlast
      have hunit := unit_le hcentre (x.interval.magnitude - (16 : Nat)) rfl
      generalize x.interval.magnitude - ((16 : Nat) : Int) = exponent at *
      refine Nat.lt_of_mul_lt_mul_right (a := powerOfTen 16) ?_
      calc Interval.scale * powerOfTen exponent.toNat * powerOfTen 16
          ≤ x.interval.centre * powerOfTen (-exponent).toNat := hunit
        _ < powerOfTen 16 * (x.interval.upper - x.interval.lower) * powerOfTen (-exponent).toNat :=
            Nat.mul_lt_mul_of_pos_right hwide (powerOfTen_pos _)
        _ = (x.interval.upper - x.interval.lower) * powerOfTen (-exponent).toNat * powerOfTen 16 := by
            ring
  | some d =>
      obtain ⟨more, -, hmore⟩ := List.exists_of_findSome?_eq_some hfound
      obtain ⟨n, hn, rfl⟩ := Option.map_eq_some_iff.mp hmore
      exact holdsAt_stripZeros 20 (Interval.holdsAt_of_onGrid? hn)

end ZodRoutes.Decimal.Double
