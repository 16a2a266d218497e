/-
Numerals as they are written.

A numeral in written form has its parts filled with digits, a minus sign or none in front, and a sign of
either sort before the digits of its power.  Cutting the text of such a numeral gives the numeral back, and
its value is the number whose interval it lies in.
-/
import ZodRoutes.Decimal.Numeral
import ZodRoutes.Proofs.Decimal.Shortest

namespace ZodRoutes.Decimal

/-! ### Rows of digits -/

/-- A row of at least one digit. -/
def IsRow (digits : List Char) : Prop :=
  digits ≠ [] ∧ ∀ c ∈ digits, c.isDigit

theorem digitsValue_append (start : Nat) (front back : List Char) :
    digitsValue start (front ++ back) = digitsValue (digitsValue start front) back :=
  List.foldl_append

theorem digitsValue_eq_ofDigitChars (start : Nat) (digits : List Char) :
    digitsValue start digits = Nat.ofDigitChars 10 digits start := by
  rw [Nat.ofDigitChars_eq_foldl]
  unfold digitsValue digitValue
  congr 1
  funext n c
  rw [Nat.mul_comm]

theorem digitsValue_zeros (start zeros : Nat) :
    digitsValue start (List.replicate zeros '0') = start * powerOfTen zeros := by
  rw [digitsValue_eq_ofDigitChars, Nat.ofDigitChars_replicate_zero, Nat.mul_comm]
  rfl

@[simp] theorem digitsValue_text (n : Nat) : digitsValue 0 (Digits.text n) = n := by
  rw [digitsValue_eq_ofDigitChars]
  exact Nat.ofDigitChars_ten_toDigits

theorem isRow_text (n : Nat) : IsRow (Digits.text n) :=
  ⟨Nat.toDigits_ne_nil, fun _ h => Nat.isDigit_of_mem_toDigits (by decide) (by decide) h⟩

theorem digitValue_lt {c : Char} (h : c.isDigit) : digitValue c < 10 := by
  simp only [Char.isDigit, Bool.and_eq_true, decide_eq_true_eq, ge_iff_le, UInt32.le_iff_toNat_le] at h
  have hlast : '9'.val.toNat = 57 := rfl
  show c.val.toNat - 48 < 10
  omega

/-- So many digits stay below that power of ten. -/
theorem digitsValue_lt {digits : List Char} (start : Nat) (h : ∀ c ∈ digits, c.isDigit) :
    digitsValue start digits < (start + 1) * powerOfTen digits.length := by
  induction digits generalizing start with
  | nil =>
      show start < (start + 1) * 1
      omega
  | cons c rest ih =>
      have hrest := ih (start * 10 + digitValue c) fun d hd => h d (List.mem_cons_of_mem _ hd)
      have hdigit := digitValue_lt (h c (by simp))
      have hpower : powerOfTen (c :: rest).length = 10 * powerOfTen rest.length := by
        rw [List.length_cons, Nat.add_comm, Double.powerOfTen_add]
        rfl
      calc digitsValue start (c :: rest) = digitsValue (start * 10 + digitValue c) rest := rfl
        _ < (start * 10 + digitValue c + 1) * powerOfTen rest.length := hrest
        _ ≤ ((start + 1) * 10) * powerOfTen rest.length := Nat.mul_le_mul_right _ (by omega)
        _ = (start + 1) * powerOfTen (c :: rest).length := by rw [hpower, Nat.mul_assoc]

namespace Numeral

/-! ### Text -/

/-- The digits after the point, with the point. -/
def fractionChars : Option (List Char) → List Char
  | none => []
  | some digits => '.' :: digits

/-- The sign and the digits of the power of ten, with the exponent mark. -/
def powerChars : Option (Option Char × List Char) → List Char
  | none => []
  | some (sign, digits) => 'e' :: (sign.toList ++ digits)

/-- The text of a numeral. -/
def chars (n : Numeral) : List Char :=
  n.sign.toList ++ (n.whole ++ (fractionChars n.fraction ++ powerChars n.power))

/-- A numeral in written form. -/
structure Written (n : Numeral) : Prop where
  sign : n.sign = none ∨ n.sign = some '-'
  whole : IsRow n.whole
  fraction : ∀ digits, n.fraction = some digits → IsRow digits
  power : ∀ sign digits, n.power = some (sign, digits) →
    (sign = none ∨ sign = some '-' ∨ sign = some '+') ∧ IsRow digits

theorem cutSign_append {sign : Option Char} {digits : List Char}
    (hsign : sign = none ∨ sign = some '-' ∨ sign = some '+') (hdigits : IsRow digits)
    (rest : List Char) :
    cutSign (sign.toList ++ (digits ++ rest)) = (sign, digits ++ rest) := by
  obtain ⟨hfilled, hall⟩ := hdigits
  obtain ⟨first, others, rfl⟩ := List.exists_cons_of_ne_nil hfilled
  have hfirst := hall first (by simp)
  rcases hsign with rfl | rfl | rfl
  · unfold cutSign
    simp only [Option.toList_none, List.nil_append, List.cons_append]
    split
    · next heq =>
        cases heq
        exact absurd hfirst (by decide)
    · next heq =>
        cases heq
        exact absurd hfirst (by decide)
    · rfl
  · rfl
  · rfl

/-- A row ends where something else than a digit follows. -/
theorem cutRow_append {digits rest : List Char} (hdigits : IsRow digits)
    (hrest : ∀ c ∈ rest.head?, ¬ c.isDigit) : cutRow (digits ++ rest) = (digits, rest) := by
  unfold cutRow
  rw [List.takeWhile_append_of_pos hdigits.2, List.dropWhile_append_of_pos hdigits.2]
  cases rest with
  | nil => simp
  | cons c rest =>
      have hc := hrest c rfl
      rw [List.takeWhile_cons_of_neg hc, List.dropWhile_cons_of_neg hc, List.append_nil]

theorem head_powerChars (power : Option (Option Char × List Char)) :
    ∀ c ∈ (powerChars power).head?, c = 'e' := by
  cases power with
  | none => simp [powerChars]
  | some pair => simp [powerChars]

theorem cutFraction_append {fraction : Option (List Char)} (power : Option (Option Char × List Char))
    (h : ∀ digits, fraction = some digits → IsRow digits) :
    cutFraction (fractionChars fraction ++ powerChars power) = (fraction, powerChars power) := by
  have hhead := head_powerChars power
  cases fraction with
  | none =>
      unfold cutFraction fractionChars
      rw [List.nil_append]
      split
      · next rest heq =>
          rw [heq] at hhead
          exact absurd (hhead '.' rfl) (by decide)
      · rfl
  | some digits =>
      have hrow := cutRow_append (h digits rfl) fun c hc => by
        rw [hhead c hc]
        decide
      show (some (cutRow (digits ++ powerChars power)).1, (cutRow (digits ++ powerChars power)).2) = _
      rw [hrow]

theorem cutPower_chars {power : Option (Option Char × List Char)}
    (h : ∀ sign digits, power = some (sign, digits) →
      (sign = none ∨ sign = some '-' ∨ sign = some '+') ∧ IsRow digits) :
    cutPower (powerChars power) = (power, []) := by
  cases power with
  | none => rfl
  | some pair =>
      obtain ⟨sign, digits⟩ := pair
      obtain ⟨hsign, hdigits⟩ := h sign digits rfl
      have hcut := cutSign_append hsign hdigits []
      have hrow : cutRow (digits ++ []) = (digits, []) := cutRow_append hdigits (by simp)
      rw [List.append_nil] at hcut hrow
      show (some ((cutSign (sign.toList ++ digits)).1, (cutRow (cutSign (sign.toList ++ digits)).2).1),
        (cutRow (cutSign (sign.toList ++ digits)).2).2) = _
      rw [hcut, hrow]

/-- **Cutting the text of a numeral gives the numeral back.** -/
theorem cut?_chars {n : Numeral} (h : n.Written) : cut? n.chars = some n := by
  have hhead : ∀ c ∈ (fractionChars n.fraction ++ powerChars n.power).head?, ¬ c.isDigit := by
    intro c hc
    cases hfraction : n.fraction with
    | none =>
        rw [hfraction, fractionChars, List.nil_append] at hc
        rw [head_powerChars n.power c hc]
        decide
    | some digits =>
        rw [hfraction] at hc
        cases hc
        decide
  unfold cut? chars
  rw [cutSign_append (h.sign.imp_right .inl) h.whole]
  dsimp only
  rw [cutRow_append h.whole hhead]
  dsimp only
  rw [cutFraction_append n.power h.fraction]
  dsimp only
  rw [cutPower_chars h.power]
  rfl

/-! ### Value -/

/-- All digits as one whole number. -/
def value (n : Numeral) : Nat :=
  digitsValue 0 (n.whole ++ n.fraction.getD [])

/-- The power of ten that the last digit stands for. -/
def place (n : Numeral) : Int :=
  n.exponent - ((n.fraction.getD []).length : Int)

theorem toDouble?_of_value_eq_zero {n : Numeral} (h : n.value = 0) :
    n.toDouble? = some { Double.zero with negative := n.negative } := by
  unfold value at h
  unfold toDouble?
  simp only [h, if_true]

theorem value_lt {n : Numeral} (h : n.Written) :
    n.value < powerOfTen (n.whole ++ n.fraction.getD []).length := by
  have hall : ∀ c ∈ n.whole ++ n.fraction.getD [], c.isDigit := by
    intro c hc
    rcases List.mem_append.mp hc with hc | hc
    · exact h.whole.2 c hc
    · cases hfraction : n.fraction with
      | none => simp [hfraction] at hc
      | some digits =>
          rw [hfraction] at hc
          exact (h.fraction digits hfraction).2 c hc
  have hlt := digitsValue_lt 0 hall
  rwa [Nat.zero_add, Nat.one_mul] at hlt

/-- A numeral whose first digit stands far below one is less than every magnitude above zero. -/
theorem not_small_of_holds {x : Double} (hx : x.rank ≠ 0) {n : Numeral} (h : n.Written)
    (hlower : x.interval.lower * powerOfTen (-n.place).toNat ≤
      n.value * powerOfTen n.place.toNat * Double.Interval.scale) :
    ¬ n.place + ((n.whole ++ n.fraction.getD []).length : Int) < -400 := by
  intro htop
  have hpositive := (Double.interval_within hx).1
  have hscale : 0 < Double.Interval.scale := by
    have := Double.unitsPerOne_pos
    unfold Double.Interval.scale
    omega
  have hnum : n.place.toNat = 0 := by omega
  have hle : powerOfTen (400 + (n.whole ++ n.fraction.getD []).length) ≤ powerOfTen (-n.place).toNat :=
    Double.powerOfTen_le (by omega)
  rw [Double.powerOfTen_add] at hle
  rw [hnum] at hlower
  have hchain : powerOfTen 400 * powerOfTen (n.whole ++ n.fraction.getD []).length <
      Double.Interval.scale * powerOfTen (n.whole ++ n.fraction.getD []).length :=
    calc powerOfTen 400 * powerOfTen (n.whole ++ n.fraction.getD []).length
        ≤ 1 * powerOfTen (-n.place).toNat := by rwa [Nat.one_mul]
      _ ≤ x.interval.lower * powerOfTen (-n.place).toNat := Nat.mul_le_mul_right _ hpositive
      _ ≤ n.value * 1 * Double.Interval.scale := hlower
      _ = Double.Interval.scale * n.value := by rw [Nat.mul_one, Nat.mul_comm]
      _ < Double.Interval.scale * powerOfTen (n.whole ++ n.fraction.getD []).length :=
          Nat.mul_lt_mul_of_pos_left (value_lt h) hscale
  have hlimit := Double.scale_lt
  exact absurd (Nat.lt_of_mul_lt_mul_right hchain) (by omega)

/-- A numeral whose last digit stands far above one is more than every finite magnitude. -/
theorem not_large_of_holds {x : Double} (hx : x.rank ≠ 0) {n : Numeral} (hvalue : n.value ≠ 0)
    (hupper : n.value * powerOfTen n.place.toNat * Double.Interval.scale ≤
      x.interval.upper * powerOfTen (-n.place).toNat) :
    ¬ 400 + ((n.whole ++ n.fraction.getD []).length : Int) <
      n.place + ((n.whole ++ n.fraction.getD []).length : Int) := by
  intro htop
  have hrange := (Double.interval_within hx).2
  have hone : (-n.place).toNat = 0 := by omega
  have hle : powerOfTen 400 ≤ powerOfTen n.place.toNat := Double.powerOfTen_le (by omega)
  rw [hone] at hupper
  have hchain : Double.Interval.scale * powerOfTen 400 ≤ x.interval.upper :=
    calc Double.Interval.scale * powerOfTen 400
        ≤ Double.Interval.scale * powerOfTen n.place.toNat := Nat.mul_le_mul_left _ hle
      _ = 1 * powerOfTen n.place.toNat * Double.Interval.scale := by rw [Nat.one_mul, Nat.mul_comm]
      _ ≤ n.value * powerOfTen n.place.toNat * Double.Interval.scale :=
          Nat.mul_le_mul_right _ (Nat.mul_le_mul_right _ (by omega))
      _ ≤ x.interval.upper * 1 := hupper
      _ = x.interval.upper := Nat.mul_one _
  omega

/-- A numeral in the interval of a number has that value, and its exponent is within the limits. -/
theorem toDouble?_of_holdsAt {x : Double} (hx : x.rank ≠ 0) {n : Numeral} (h : n.Written)
    (hholds : x.interval.HoldsAt n.value n.place) :
    n.toDouble? = some { x with negative := n.negative } := by
  obtain ⟨hlower, hupper, hinner⟩ := hholds
  have hden := Double.powerOfTen_pos (-n.place).toNat
  have hvalue : n.value ≠ 0 := by
    intro hzero
    rw [hzero, Nat.zero_mul, Nat.zero_mul] at hlower
    have hpositive := Nat.mul_pos (Double.interval_within hx).1 hden
    omega
  have hsmall := not_small_of_holds hx h hlower
  have hlarge := not_large_of_holds hx hvalue hupper
  unfold value at hvalue
  unfold place at hsmall hlarge
  unfold toDouble?
  dsimp only
  rw [if_neg hvalue, if_neg hsmall, if_neg hlarge]
  exact Double.nearest_of_holds hden ⟨hlower, hupper, hinner⟩ n.negative

/-- **A whole numeral that is a binary64 number is read as that number.** -/
theorem toDouble?_of_units {x : Double} {n : Numeral} (hfraction : n.fraction = none) (hpower : n.power = none)
    (h : n.value * Double.unitsPerOne = x.units) :
    ∃ y : Double, n.toDouble? = some y ∧ y.negative = n.negative ∧ y.units = x.units := by
  by_cases hvalue : n.value = 0
  · rw [hvalue, Nat.zero_mul] at h
    have hzero : Double.zero.units = 0 := by decide
    exact ⟨_, toDouble?_of_value_eq_zero hvalue, rfl, hzero.trans h⟩
  · refine ⟨{ x with negative := n.negative }, ?_, rfl, rfl⟩
    have hplace : n.exponent - ((n.fraction.getD []).length : Int) = 0 := by
      simp [exponent, hfraction, hpower]
    unfold value at hvalue h
    unfold toDouble?
    simp only [hplace]
    rw [if_neg hvalue, if_neg (by omega), if_neg (by omega)]
    refine Double.nearest_of_eq (Double.powerOfTen_pos _) ?_ _
    simpa [powerOfTen] using h

end Numeral

end ZodRoutes.Decimal
