/-
The text of a number reads back.

A layout moves the point, fills up with zeros or writes the power of ten apart.  All of this changes how a
decimal is written and nothing about its value, so the numeral that stands in the text lies in the interval
of the number, as its shortest decimal does, and is read as the number again.
-/
import ZodRoutes.Decimal.Layout
import ZodRoutes.Proofs.Decimal.Numeral

namespace ZodRoutes.Decimal

/-- The numeral has these digits, the first of them at that power of ten. -/
structure Numeral.Says (n : Numeral) (sign : Option Char) (digits : List Char) (first : Int) : Prop where
  written : n.Written
  sign_eq : n.sign = sign
  scaled : ∃ zeros : Nat, n.value = digitsValue 0 digits * powerOfTen zeros ∧
    n.place + zeros = first + 1 - digits.length

variable {digits : List Char} {sign : Option Char}

theorem IsRow.append {front back : List Char} (hfront : IsRow front) (hback : ∀ c ∈ back, c.isDigit) :
    IsRow (front ++ back) := by
  refine ⟨by simp [hfront.1], fun c hc => ?_⟩
  rcases List.mem_append.mp hc with hc | hc
  · exact hfront.2 c hc
  · exact hback c hc

theorem IsRow.length_pos (h : IsRow digits) : 0 < digits.length :=
  List.length_pos_iff.mpr h.1

theorem isDigit_of_mem_zeros {zeros : Nat} {c : Char} (h : c ∈ List.replicate zeros '0') : c.isDigit := by
  rw [List.eq_of_mem_replicate h]
  decide

theorem isRow_zero : IsRow ['0'] := by
  refine ⟨by simp, fun c hc => ?_⟩
  rw [List.mem_singleton.mp hc]
  decide

/-! ### Positional text -/

/-- Below one, zeros stand between the point and the digits. -/
theorem exists_below_one (hdigits : IsRow digits) (hsign : sign = none ∨ sign = some '-') {first : Int}
    (hfirst : first < 0) :
    ∃ n : Numeral, n.Says sign digits first ∧ n.fraction.isSome ∧
      n.chars = sign.toList ++ '0' :: '.' :: List.replicate (-first - 1).toNat '0' ++ digits := by
  have hrow : IsRow (List.replicate (-first - 1).toNat '0' ++ digits) := by
    refine ⟨by simp [hdigits.1], fun c hc => ?_⟩
    rcases List.mem_append.mp hc with hc | hc
    · exact isDigit_of_mem_zeros hc
    · exact hdigits.2 c hc
  refine ⟨⟨sign, ['0'], some (List.replicate (-first - 1).toNat '0' ++ digits), none⟩,
    ⟨⟨hsign, isRow_zero, ?_, by simp⟩, rfl, 0, ?_, ?_⟩, rfl, ?_⟩
  · intro places hplaces
    rw [← Option.some.inj hplaces]
    exact hrow
  · show digitsValue 0 (['0'] ++ (List.replicate (-first - 1).toNat '0' ++ digits)) = _
    have hzero : digitsValue 0 ['0'] = 0 := rfl
    rw [digitsValue_append, digitsValue_append, hzero, digitsValue_zeros, Nat.zero_mul]
    exact (Nat.mul_one _).symm
  · unfold Numeral.place Numeral.exponent
    simp only [Option.getD_some, List.length_append, List.length_replicate]
    omega
  · simp [Numeral.chars, Numeral.fractionChars, Numeral.powerChars]

/-- A whole number is filled up with zeros, with another zero after a point where one is kept. -/
theorem exists_whole (hdigits : IsRow digits) (hsign : sign = none ∨ sign = some '-') {first : Int}
    (hfirst : 0 ≤ first) (hwhole : digits.length ≤ first.toNat + 1) (point : Bool) :
    ∃ n : Numeral, n.Says sign digits first ∧ n.fraction.isSome = point ∧
      n.chars = sign.toList ++ (digits ++ List.replicate (first.toNat + 1 - digits.length) '0' ++
        (if point then ['.', '0'] else [])) := by
  have hrow : IsRow (digits ++ List.replicate (first.toNat + 1 - digits.length) '0') :=
    hdigits.append fun c hc => isDigit_of_mem_zeros hc
  cases point with
  | true =>
      refine ⟨⟨sign, digits ++ List.replicate (first.toNat + 1 - digits.length) '0', some ['0'], none⟩,
        ⟨⟨hsign, hrow, ?_, by simp⟩, rfl, first.toNat + 1 - digits.length + 1, ?_, ?_⟩, rfl, ?_⟩
      · intro places hplaces
        rw [← Option.some.inj hplaces]
        exact isRow_zero
      · show digitsValue 0 (digits ++ List.replicate _ '0' ++ ['0']) = _
        rw [digitsValue_append, digitsValue_append, digitsValue_zeros, Double.powerOfTen_add,
          ← Nat.mul_assoc]
        rfl
      · unfold Numeral.place Numeral.exponent
        simp only [Option.getD_some, List.length_singleton]
        omega
      · simp [Numeral.chars, Numeral.fractionChars, Numeral.powerChars]
  | false =>
      refine ⟨⟨sign, digits ++ List.replicate (first.toNat + 1 - digits.length) '0', none, none⟩,
        ⟨⟨hsign, hrow, by simp, by simp⟩, rfl, first.toNat + 1 - digits.length, ?_, ?_⟩, rfl, ?_⟩
      · show digitsValue 0 (digits ++ List.replicate _ '0' ++ []) = _
        rw [List.append_nil, digitsValue_append, digitsValue_zeros]
      · unfold Numeral.place Numeral.exponent
        simp only [Option.getD_none, List.length_nil]
        omega
      · simp [Numeral.chars, Numeral.fractionChars, Numeral.powerChars]

/-- Between its digits a number has a point. -/
theorem exists_pointed (hdigits : IsRow digits) (hsign : sign = none ∨ sign = some '-') {first : Int}
    (hfirst : 0 ≤ first) (hmore : first.toNat + 1 < digits.length) :
    ∃ n : Numeral, n.Says sign digits first ∧ n.fraction.isSome ∧
      n.chars = sign.toList ++ (digits.take (first.toNat + 1) ++ '.' :: digits.drop (first.toNat + 1)) := by
  have hfront : IsRow (digits.take (first.toNat + 1)) := by
    refine ⟨?_, fun c hc => hdigits.2 c (List.mem_of_mem_take hc)⟩
    rw [ne_eq, List.take_eq_nil_iff]
    simp [hdigits.1]
  have hback : IsRow (digits.drop (first.toNat + 1)) := by
    refine ⟨?_, fun c hc => hdigits.2 c (List.mem_of_mem_drop hc)⟩
    rw [ne_eq, List.drop_eq_nil_iff]
    omega
  refine ⟨⟨sign, digits.take (first.toNat + 1), some (digits.drop (first.toNat + 1)), none⟩,
    ⟨⟨hsign, hfront, ?_, by simp⟩, rfl, 0, ?_, ?_⟩, rfl, ?_⟩
  · intro places hplaces
    rw [← Option.some.inj hplaces]
    exact hback
  · show digitsValue 0 (digits.take _ ++ digits.drop _) = _
    rw [List.take_append_drop]
    exact (Nat.mul_one _).symm
  · unfold Numeral.place Numeral.exponent
    simp only [Option.getD_some, List.length_drop]
    omega
  · simp [Numeral.chars, Numeral.fractionChars, Numeral.powerChars]

theorem exists_positional (layout : Layout) (hdigits : IsRow digits)
    (hsign : sign = none ∨ sign = some '-') (first : Int) :
    ∃ n : Numeral, n.Says sign digits first ∧
      n.chars = sign.toList ++ layout.positionalText digits first ∧
      (layout.pointZero → n.fraction.isSome) := by
  unfold Layout.positionalText
  by_cases hfirst : first < 0
  · obtain ⟨n, hsays, hpoint, hchars⟩ := exists_below_one hdigits hsign hfirst
    rw [if_pos hfirst]
    exact ⟨n, hsays, by simpa using hchars, fun _ => hpoint⟩
  · rw [if_neg hfirst]
    rw [Int.not_lt] at hfirst
    dsimp only
    by_cases hwhole : digits.length ≤ first.toNat + 1
    · obtain ⟨n, hsays, hpoint, hchars⟩ := exists_whole hdigits hsign hfirst hwhole layout.pointZero
      rw [if_pos hwhole]
      exact ⟨n, hsays, hchars, fun h => hpoint.trans h⟩
    · obtain ⟨n, hsays, hpoint, hchars⟩ := exists_pointed hdigits hsign hfirst (Nat.not_le.mp hwhole)
      rw [if_neg hwhole]
      exact ⟨n, hsays, hchars, fun _ => hpoint⟩

/-! ### Scientific text -/

/-- What follows the first digit, if anything does, stands after a point. -/
theorem exists_fraction (others : List Char) :
    ∃ fraction : Option (List Char), fraction.getD [] = others ∧
      (∀ places, fraction = some places → places = others ∧ others ≠ []) ∧
      Numeral.fractionChars fraction = if others.isEmpty then [] else '.' :: others := by
  cases others with
  | nil => exact ⟨none, rfl, by simp, rfl⟩
  | cons c rest => exact ⟨some (c :: rest), rfl, by rintro _ ⟨⟩; exact ⟨rfl, by simp⟩, rfl⟩

theorem exists_scientific (hdigits : IsRow digits) (hsign : sign = none ∨ sign = some '-')
    (first : Int) :
    ∃ n : Numeral, n.Says sign digits first ∧ n.chars = sign.toList ++ scientificText digits first ∧
      n.power.isSome := by
  have hlength := hdigits.length_pos
  have hexponent : ∀ n : Numeral,
      n.power = some (some (if first < 0 then '-' else '+'), Digits.text first.natAbs) →
        n.exponent = first := by
    intro n hn
    unfold Numeral.exponent
    rw [hn]
    by_cases hfirst : first < 0
    · rw [if_pos hfirst]
      show -((digitsValue 0 (Digits.text first.natAbs) : Nat) : Int) = first
      rw [digitsValue_text]
      omega
    · rw [if_neg hfirst]
      show ((digitsValue 0 (Digits.text first.natAbs) : Nat) : Int) = first
      rw [digitsValue_text]
      omega
  obtain ⟨fraction, hfraction, hplaces, hchars⟩ := exists_fraction (digits.drop 1)
  refine ⟨⟨sign, digits.take 1, fraction,
    some (some (if first < 0 then '-' else '+'), Digits.text first.natAbs)⟩,
    ⟨⟨hsign, ⟨?_, fun c hc => hdigits.2 c (List.mem_of_mem_take hc)⟩, ?_, ?_⟩, rfl, 0, ?_, ?_⟩, ?_, rfl⟩
  · rw [ne_eq, List.take_eq_nil_iff]
    simp [hdigits.1]
  · intro places heq
    obtain ⟨rfl, hfilled⟩ := hplaces places heq
    exact ⟨hfilled, fun c hc => hdigits.2 c (List.mem_of_mem_drop hc)⟩
  · rintro mark places ⟨⟩
    refine ⟨?_, isRow_text _⟩
    split <;> simp
  · show digitsValue 0 (digits.take 1 ++ fraction.getD []) = _
    rw [hfraction, List.take_append_drop]
    exact (Nat.mul_one _).symm
  · unfold Numeral.place
    rw [hexponent _ rfl]
    simp only [hfraction, List.length_drop]
    omega
  · unfold scientificText Numeral.chars Numeral.powerChars
    simp [hchars]

/-! ### Reading back -/

/-- A numeral with the sign and the shortest decimal of a number is read as the number. -/
theorem Numeral.Says.reads_back {x : Double} {tie : Tie} {first : Int} {n : Numeral}
    (h : n.Says (if x.negative then some '-' else none) (Digits.text (x.shortest tie).digits) first)
    (hfirst : first = (x.shortest tie).exponent +
      ((Digits.text (x.shortest tie).digits).length : Int) - 1) :
    n.toDouble? = some x := by
  obtain ⟨hwritten, hmark, zeros, hvalue, hplace⟩ := h
  have hnegative : n.negative = x.negative := by
    unfold Numeral.negative
    rw [hmark]
    cases x.negative <;> rfl
  rw [digitsValue_text] at hvalue
  by_cases hrank : x.rank = 0
  · have hzero : (x.shortest tie).digits = 0 := by
      unfold Double.shortest
      rw [if_pos hrank]
    rw [hzero, Nat.zero_mul] at hvalue
    rw [Numeral.toDouble?_of_value_eq_zero hvalue, hnegative]
    obtain ⟨negative, rank, hlt⟩ := x
    dsimp only at hrank
    subst hrank
    rfl
  · have hexponent : n.place + zeros = (x.shortest tie).exponent := by
      rw [hplace, hfirst]
      omega
    rw [Numeral.toDouble?_of_holdsAt hrank hwritten, hnegative]
    rw [hvalue, Double.Interval.holdsAt_mul_powerOfTen, hexponent]
    exact Double.shortest_holdsAt hrank tie

/-- **The text of a number is a numeral that is read as the number.** -/
theorem Layout.reads_back (layout : Layout) (x : Double) :
    ∃ n : Numeral, n.Written ∧ (layout.text x).toList = n.chars ∧ n.toDouble? = some x ∧
      (layout.pointZero → n.fraction.isSome ∨ n.power.isSome) := by
  have hdigits := isRow_text (x.shortest layout.tie).digits
  have hsign : (if x.negative then some '-' else none) = none ∨
      (if x.negative then some '-' else none) = some '-' := by
    split <;> simp
  have htext : ∀ magnitude : List Char, (if x.negative then '-' :: magnitude else magnitude) =
      (if x.negative then some '-' else none).toList ++ magnitude := by
    intro magnitude
    split <;> rfl
  unfold Layout.text
  dsimp only
  rw [htext, String.toList_ofList]
  generalize hfirst : (x.shortest layout.tie).exponent +
    ((Digits.text (x.shortest layout.tie).digits).length : Int) - 1 = first
  by_cases hpositional : (decide (x.rank = 0) || layout.positional first) = true
  · rw [if_pos hpositional]
    obtain ⟨n, hsays, hchars, hpoint⟩ := exists_positional layout hdigits hsign first
    exact ⟨n, hsays.written, hchars.symm, hsays.reads_back hfirst.symm, fun h => .inl (hpoint h)⟩
  · rw [if_neg hpositional]
    obtain ⟨n, hsays, hchars, hpower⟩ := exists_scientific hdigits hsign first
    exact ⟨n, hsays.written, hchars.symm, hsays.reads_back hfirst.symm, fun _ => .inr hpower⟩

end ZodRoutes.Decimal
