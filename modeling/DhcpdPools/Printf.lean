import Mathlib

/-!
Numbers in texts. The conversion `%g` rounds a number to six significant digits and
writes them in the shorter of two notations; what is written reads back as the rounded
number (`readDecimal_formatG`), which is the number itself exactly when it has no more
digits (`rounded_eq_iff`).
-/
namespace DhcpdPools.Printf

/-! ## Rounding -/

/-- The nearest integer, of two the even one. -/
def roundEven (q : ℚ) : ℤ :=
  if q - ⌊q⌋ < 1 / 2 then ⌊q⌋
  else if 1 / 2 < q - ⌊q⌋ then ⌊q⌋ + 1
  else if ⌊q⌋ % 2 = 0 then ⌊q⌋ else ⌊q⌋ + 1

/-- The six significant digits of a positive number, and the power of ten of the first one. -/
def significand (q : ℚ) : ℕ × ℤ :=
  let e := Int.log 10 q
  let d := (roundEven (q / 10 ^ (e - 5))).toNat
  if d = 10 ^ 6 then (10 ^ 5, e + 1) else (d, e)

/-- The number that six digits stand for. -/
def scaled (s : ℕ × ℤ) : ℚ := s.1 * 10 ^ (s.2 - 5)

/-- A number rounded to six significant digits. -/
def rounded (q : ℚ) : ℚ :=
  if q = 0 then 0 else if q < 0 then -scaled (significand (-q)) else scaled (significand q)

/-- A number with at most six significant digits. -/
def FewDigits (q : ℚ) : Prop := ∃ m j : ℤ, |m| < 10 ^ 6 ∧ q = m * 10 ^ j

theorem roundEven_intCast (n : ℤ) : roundEven n = n := by
  rw [roundEven, Int.floor_intCast, sub_self, if_pos (by norm_num)]

theorem roundEven_floor (q : ℚ) : ⌊q⌋ ≤ roundEven q ∧ roundEven q ≤ ⌊q⌋ + 1 := by
  unfold roundEven
  split_ifs <;> constructor <;> omega

/-- Scaled to six digits in front of the point, a positive number is between 10^5 and 10^6. -/
theorem mantissa_bounds {q : ℚ} (positive : 0 < q) :
    (10 : ℚ) ^ 5 ≤ q / 10 ^ (Int.log 10 q - 5) ∧ q / 10 ^ (Int.log 10 q - 5) < 10 ^ 6 := by
  have low : (10 : ℚ) ^ Int.log 10 q ≤ q := by exact_mod_cast Int.zpow_log_le_self (by decide) positive
  have high : q < (10 : ℚ) ^ (Int.log 10 q + 1) := by exact_mod_cast Int.lt_zpow_succ_log_self (by decide) q
  have scale : (0 : ℚ) < 10 ^ (Int.log 10 q - 5) := by positivity
  constructor
  · rw [le_div_iff₀ scale, ← zpow_natCast, ← zpow_add₀ (by norm_num)]
    have sum : ((5 : ℕ) : ℤ) + (Int.log 10 q - 5) = Int.log 10 q := by push_cast; omega
    rw [sum]
    exact low
  · rw [div_lt_iff₀ scale, ← zpow_natCast, ← zpow_add₀ (by norm_num)]
    have sum : ((6 : ℕ) : ℤ) + (Int.log 10 q - 5) = Int.log 10 q + 1 := by push_cast; omega
    rw [sum]
    exact high

theorem significand_bounds {q : ℚ} (positive : 0 < q) :
    10 ^ 5 ≤ (significand q).1 ∧ (significand q).1 < 10 ^ 6 := by
  obtain ⟨low, high⟩ := mantissa_bounds positive
  obtain ⟨below, above⟩ := roundEven_floor (q / 10 ^ (Int.log 10 q - 5))
  have floorLow : (10 ^ 5 : ℤ) ≤ ⌊q / 10 ^ (Int.log 10 q - 5)⌋ := Int.le_floor.mpr (by exact_mod_cast low)
  have floorHigh : ⌊q / 10 ^ (Int.log 10 q - 5)⌋ < (10 ^ 6 : ℤ) := Int.floor_lt.mpr (by exact_mod_cast high)
  unfold significand
  dsimp only
  split_ifs with carry
  · norm_num
  · dsimp only
    omega

/-- A positive number with few digits is not changed by rounding. -/
theorem scaled_significand {q : ℚ} (positive : 0 < q) (few : FewDigits q) : scaled (significand q) = q := by
  obtain ⟨m, j, short, rfl⟩ := few
  have power : (0 : ℚ) < 10 ^ j := by positivity
  have front : 0 < m := by
    by_contra negative
    have bound : (m : ℚ) ≤ 0 := by exact_mod_cast Int.not_lt.mp negative
    exact absurd positive (not_lt.mpr (mul_nonpos_of_nonpos_of_nonneg bound power.le))
  rw [abs_of_pos front] at short
  -- The last digit is not below the sixth one.
  have exponent : Int.log 10 ((m : ℚ) * 10 ^ j) ≤ 5 + j := by
    have bound : (m : ℚ) * 10 ^ j < ((10 : ℕ) : ℚ) ^ (6 + j) := by
      push_cast
      rw [zpow_add₀ (by norm_num)]
      refine mul_lt_mul_of_pos_right ?_ power
      exact_mod_cast short
    have less := (Int.lt_zpow_iff_log_lt (by decide) positive).mp bound
    omega
  obtain ⟨k, distance⟩ := Int.eq_ofNat_of_zero_le (show 0 ≤ j - (Int.log 10 ((m : ℚ) * 10 ^ j) - 5) by omega)
  have whole : (m : ℚ) * 10 ^ j / 10 ^ (Int.log 10 ((m : ℚ) * 10 ^ j) - 5) = ((m * 10 ^ k : ℤ) : ℚ) := by
    rw [mul_div_assoc, ← zpow_sub₀ (by norm_num), distance]
    push_cast
    rw [zpow_natCast]
  obtain ⟨low, high⟩ := mantissa_bounds positive
  rw [whole] at low high
  have most : m * 10 ^ k < 10 ^ 6 := by exact_mod_cast high
  have least : 0 ≤ m * 10 ^ k := by positivity
  have noCarry : (m * 10 ^ k).toNat ≠ 10 ^ 6 := by omega
  unfold significand scaled
  dsimp only
  rw [whole, roundEven_intCast, if_neg noCarry]
  dsimp only
  have natural : (((m * 10 ^ k).toNat : ℕ) : ℚ) = ((m * 10 ^ k : ℤ) : ℚ) := by
    exact_mod_cast congrArg (fun z : ℤ => (z : ℚ)) (Int.toNat_of_nonneg least)
  rw [natural, ← whole, div_mul_cancel₀ _ (by positivity)]

theorem fewDigits_neg {q : ℚ} : FewDigits (-q) ↔ FewDigits q := by
  have one : ∀ {q : ℚ}, FewDigits q → FewDigits (-q) := by
    rintro q ⟨m, j, short, rfl⟩
    exact ⟨-m, j, by rwa [abs_neg], by push_cast; ring⟩
  exact ⟨fun few => neg_neg q ▸ one few, one⟩

theorem fewDigits_scaled {q : ℚ} (positive : 0 < q) : FewDigits (scaled (significand q)) := by
  refine ⟨(significand q).1, (significand q).2 - 5, ?_, by rw [scaled, Int.cast_natCast]⟩
  have high := (significand_bounds positive).2
  rw [abs_of_nonneg (by positivity)]
  exact_mod_cast high

/-- Rounding leaves a number alone exactly when it has at most six significant digits. -/
theorem rounded_eq_iff (q : ℚ) : rounded q = q ↔ FewDigits q := by
  unfold rounded
  split_ifs with zero negative
  · rw [zero, iff_true_left rfl]
    exact ⟨0, 0, by norm_num, by norm_num⟩
  · have positive : 0 < -q := neg_pos.mpr negative
    constructor
    · intro same
      rw [← same, fewDigits_neg]
      exact fewDigits_scaled positive
    · intro few
      rw [scaled_significand positive (fewDigits_neg.mpr few), neg_neg]
  · have positive : 0 < q := lt_of_le_of_ne (not_lt.mp negative) (Ne.symm zero)
    constructor
    · intro same
      rw [← same]
      exact fewDigits_scaled positive
    · exact scaled_significand positive

/-! ## The notation -/

/-- Digits without the zeros at their end. -/
def strip (digits : List Char) : List Char := digits.rdropWhile (fun c => c = '0')

/-- The digits behind the point, with the point if there are any. -/
def pointed (digits : List Char) : List Char := if digits = [] then [] else '.' :: digits

/-- An exponent of at least two digits, with its sign. -/
def exponentText (e : ℤ) : List Char :=
  'e' :: (if e < 0 then '-' else '+') ::
    (if e.natAbs < 10 then '0' :: Nat.toDigits 10 e.natAbs else Nat.toDigits 10 e.natAbs)

/-- `%g` of a positive number. -/
def formatPositive (q : ℚ) : List Char :=
  let s := significand q
  let digits := Nat.toDigits 10 s.1
  if 0 ≤ s.2 ∧ s.2 < 6 then digits.take (s.2.toNat + 1) ++ pointed (strip (digits.drop (s.2.toNat + 1)))
  else if -4 ≤ s.2 ∧ s.2 < 0 then '0' :: pointed (strip (List.replicate (s.2.natAbs - 1) '0' ++ digits))
  else digits.take 1 ++ pointed (strip (digits.drop 1)) ++ exponentText s.2

/-- `%g`. -/
def formatG (q : ℚ) : List Char :=
  if q = 0 then ['0'] else if q < 0 then '-' :: formatPositive (-q) else formatPositive q

/-! ## Reading a decimal number -/

/-- The number at the end of an exponent. -/
def readExponent : List Char → Option ℤ
  | [] => some 0
  | 'e' :: '+' :: digits => if digits ≠ [] ∧ digits.all Char.isDigit then some (Nat.ofDigitChars 10 digits 0 : ℕ) else none
  | 'e' :: '-' :: digits => if digits ≠ [] ∧ digits.all Char.isDigit then some (-(Nat.ofDigitChars 10 digits 0 : ℕ)) else none
  | _ => none

/-- The digits behind a point, and what is behind them. -/
def readFraction : List Char → List Char × List Char
  | '.' :: rest => (rest.takeWhile Char.isDigit, rest.dropWhile Char.isDigit)
  | rest => ([], rest)

/-- The number that digits in front of the point, digits behind it and an exponent are. -/
def place (whole fraction : List Char) (e : ℤ) : ℚ :=
  (Nat.ofDigitChars 10 (whole ++ fraction) 0 : ℚ) * 10 ^ (e - fraction.length)

/-- A decimal number without a sign. -/
def readUnsigned (s : List Char) : Option ℚ :=
  let whole := s.takeWhile Char.isDigit
  let fraction := readFraction (s.dropWhile Char.isDigit)
  if whole = [] then none else (readExponent fraction.2).map (place whole fraction.1)

/-- A decimal number. -/
def readDecimal : List Char → Option ℚ
  | '-' :: s => (readUnsigned s).map fun q => -q
  | s => readUnsigned s

/-- Nothing but digits. -/
def Digits (s : List Char) : Prop := ∀ c ∈ s, c.isDigit = true

theorem digits_toDigits (n : ℕ) : Digits (Nat.toDigits 10 n) := fun _ member =>
  Nat.isDigit_of_mem_toDigits (by decide) (by decide) member

/-- Behind digits comes the end, or something that is no digit. -/
def Ends (rest : List Char) : Prop := ∀ c ∈ rest.head?, c.isDigit = false

theorem takeWhile_digits {s rest : List Char} (digits : Digits s) (ends : Ends rest) :
    (s ++ rest).takeWhile Char.isDigit = s ∧ (s ++ rest).dropWhile Char.isDigit = rest := by
  have taken : rest.takeWhile Char.isDigit = [] ∧ rest.dropWhile Char.isDigit = rest := by
    cases rest with
    | nil => exact ⟨rfl, rfl⟩
    | cons c rest => simp [ends c rfl]
  constructor
  · rw [List.takeWhile_append_of_pos digits, taken.1, List.append_nil]
  · rw [List.dropWhile_append_of_pos digits, taken.2]

theorem strip_spec (digits : List Char) : ∃ n, digits = strip digits ++ List.replicate n '0' := by
  induction digits using List.reverseRecOn with
  | nil => exact ⟨0, rfl⟩
  | append_singleton digits c ih =>
    by_cases zero : c = '0'
    · obtain ⟨n, split⟩ := ih
      refine ⟨n + 1, ?_⟩
      rw [strip, List.rdropWhile_concat_pos _ _ _ (by simpa using zero), List.replicate_succ', ← List.append_assoc,
        zero]
      exact congrArg (· ++ ['0']) split
    · refine ⟨0, ?_⟩
      rw [strip, List.rdropWhile_concat_neg _ _ _ (by simpa using zero), List.replicate_zero, List.append_nil]

theorem digits_strip {s : List Char} (digits : Digits s) : Digits (strip s) := fun c member =>
  digits c ((List.rdropWhile_prefix _ _).subset member)

/-- Zeros at the end of a fraction do not count. -/
theorem place_strip (whole fraction : List Char) (e : ℤ) : place whole (strip fraction) e = place whole fraction e := by
  obtain ⟨n, split⟩ := strip_spec fraction
  have length := congrArg List.length split
  rw [List.length_append, List.length_replicate] at length
  have digits : Nat.ofDigitChars 10 (whole ++ fraction) 0 = 10 ^ n * Nat.ofDigitChars 10 (whole ++ strip fraction) 0 := by
    conv_lhs => rw [split, ← List.append_assoc, Nat.ofDigitChars_append, Nat.ofDigitChars_replicate_zero]
  have shift : (e - fraction.length : ℤ) = (e - (strip fraction).length) - n := by omega
  have power : (10 : ℚ) ^ (e - (strip fraction).length - n : ℤ) = 10 ^ (e - (strip fraction).length : ℤ) / 10 ^ n := by
    rw [zpow_sub₀ (by norm_num), zpow_natCast]
  rw [place, place, digits, shift, power]
  push_cast
  field_simp

/-- A number in either notation is read. -/
theorem readUnsigned_eq {whole fraction tail : List Char} {e : ℤ} (digits : Digits whole) (some_ : whole ≠ [])
    (behind : Digits fraction) (ends : Ends tail) (point : tail.head? ≠ some '.') (exponent : readExponent tail = some e) :
    readUnsigned (whole ++ pointed fraction ++ tail) = some (place whole fraction e) := by
  have stops : Ends (pointed fraction ++ tail) := by
    unfold pointed
    split_ifs
    · exact ends
    · intro c first
      obtain rfl := Option.some.inj first
      decide
  have split : readFraction (pointed fraction ++ tail) = (fraction, tail) := by
    unfold pointed
    split_ifs with none
    · subst none
      cases tail with
      | nil => rfl
      | cons c tail =>
        unfold readFraction
        split
        · rename_i same
          obtain ⟨rfl, -⟩ := List.cons.inj same
          exact absurd rfl point
        · rfl
    · exact Prod.ext (takeWhile_digits behind ends).1 (takeWhile_digits behind ends).2
  obtain ⟨taken, left⟩ := takeWhile_digits digits stops
  unfold readUnsigned
  rw [List.append_assoc, taken, left, split]
  dsimp only
  rw [if_neg some_, exponent]
  rfl

theorem readExponent_exponentText (e : ℤ) : readExponent (exponentText e) = some e := by
  obtain ⟨digits, text, some_, all, value⟩ : ∃ digits,
      (if e.natAbs < 10 then '0' :: Nat.toDigits 10 e.natAbs else Nat.toDigits 10 e.natAbs) = digits ∧ digits ≠ [] ∧
        digits.all Char.isDigit = true ∧ Nat.ofDigitChars 10 digits 0 = e.natAbs := by
    refine ⟨_, rfl, ?_⟩
    have all := List.all_eq_true.mpr (digits_toDigits e.natAbs)
    split_ifs
    · exact ⟨List.cons_ne_nil _ _, by rw [List.all_cons, all]; rfl, Nat.ofDigitChars_ten_toDigits⟩
    · exact ⟨Nat.toDigits_ne_nil, all, Nat.ofDigitChars_ten_toDigits⟩
  rw [exponentText, text]
  split_ifs with negative
  · rw [readExponent, if_pos ⟨some_, all⟩, value]
    exact congrArg some (by omega)
  · rw [readExponent, if_pos ⟨some_, all⟩, value]
    exact congrArg some (by omega)

theorem ends_exponentText (e : ℤ) : Ends (exponentText e) ∧ (exponentText e).head? ≠ some '.' := by
  refine ⟨fun c first => ?_, fun same => ?_⟩
  · obtain rfl := Option.some.inj first
    decide
  · exact absurd (Option.some.inj same) (by decide)

theorem toDigits_length {d : ℕ} (low : 10 ^ 5 ≤ d) (high : d < 10 ^ 6) : (Nat.toDigits 10 d).length = 6 := by
  have most := (Nat.length_toDigits_le_iff (b := 10) (k := 6) (by decide) (by decide)).mpr high
  have least : ¬(Nat.toDigits 10 d).length ≤ 5 := fun short =>
    absurd ((Nat.length_toDigits_le_iff (b := 10) (by decide) (by decide)).mp short) (by omega)
  omega

/-- What `%g` writes for a positive number reads back as the rounded number. -/
theorem readUnsigned_formatPositive {q : ℚ} (positive : 0 < q) :
    readUnsigned (formatPositive q) = some (scaled (significand q)) := by
  obtain ⟨low, high⟩ := significand_bounds positive
  unfold formatPositive scaled
  dsimp only
  generalize (significand q).1 = d at low high
  generalize (significand q).2 = e
  have length := toDigits_length low high
  have digits := digits_toDigits d
  have value : Nat.ofDigitChars 10 (Nat.toDigits 10 d) 0 = d := Nat.ofDigitChars_ten_toDigits
  generalize Nat.toDigits 10 d = s at length digits value
  have front : ∀ n, Digits (s.take n) := fun n c member => digits c (List.mem_of_mem_take member)
  have back : ∀ n, Digits (s.drop n) := fun n c member => digits c (List.mem_of_mem_drop member)
  have some_ : ∀ n, s.take (n + 1) ≠ [] := fun n empty => by
    have short := congrArg List.length empty
    rw [List.length_take, List.length_nil] at short
    omega
  have none : Ends [] ∧ ([] : List Char).head? ≠ some '.' := ⟨(fun _ first => by cases first), (fun same => by cases same)⟩
  split_ifs with large small
  · rw [← List.append_nil (_ ++ pointed _),
      readUnsigned_eq (front _) (some_ _) (digits_strip (back _)) none.1 none.2 (e := 0) rfl, place_strip, place,
      List.take_append_drop, value, List.length_drop, length]
    have shift : (0 - ((6 - (e.toNat + 1) : ℕ) : ℤ)) = e - 5 := by omega
    rw [shift]
  · have zeros : Digits (List.replicate (e.natAbs - 1) '0' ++ s) := by
      intro c member
      rcases List.mem_append.mp member with zero | digit
      · rw [List.eq_of_mem_replicate zero]
        rfl
      · exact digits c digit
    have one : Digits ['0'] := by simp [Digits]
    have read := @readUnsigned_eq ['0'] _ [] 0 one (List.cons_ne_nil _ _) (digits_strip zeros) none.1 none.2 rfl
    rw [List.append_nil] at read
    refine read.trans ?_
    have leading : ∀ n, Nat.ofDigitChars 10 (['0'] ++ (List.replicate n '0' ++ s)) 0 = d := by
      intro n
      rw [← List.append_assoc, ← List.replicate_one, ← List.replicate_add, Nat.ofDigitChars_append,
        Nat.ofDigitChars_replicate_zero, Nat.mul_zero, value]
    rw [place_strip, place, leading, List.length_append, List.length_replicate, length]
    have shift : (0 - ((e.natAbs - 1 + 6 : ℕ) : ℤ)) = e - 5 := by omega
    rw [shift]
  · rw [readUnsigned_eq (front _) (some_ _) (digits_strip (back _)) (ends_exponentText e).1 (ends_exponentText e).2
      (readExponent_exponentText e), place_strip, place, List.take_append_drop, value, List.length_drop, length]
    rfl

/-- What `%g` writes is read back as the number rounded to six significant digits. -/
theorem readDecimal_formatG (q : ℚ) : readDecimal (formatG q) = some (rounded q) := by
  unfold formatG rounded
  split_ifs with zero negative
  · simp [readDecimal, readUnsigned, readFraction, readExponent, place, show Nat.ofDigitChars 10 ['0'] 0 = 0 from rfl]
  · rw [readDecimal, readUnsigned_formatPositive (neg_pos.mpr negative)]
    rfl
  · have positive : 0 < q := lt_of_le_of_ne (not_lt.mp negative) (Ne.symm zero)
    have read := readUnsigned_formatPositive positive
    rw [← read]
    unfold readDecimal
    split
    · -- A number that starts with a sign is not read without one.
      rename_i same
      rw [same] at read
      cases read
    · rfl

/-! ## The form of a number -/

/-- A number in decimal notation: no more zeros in front than one, and digits behind a point and in an exponent. -/
structure Decimal (s : List Char) : Prop where
  form : ∃ minus whole fraction exponent, s = minus ++ whole ++ pointed fraction ++ exponent ∧
    (minus = [] ∨ minus = ['-']) ∧ (Digits whole ∧ whole ≠ [] ∧ (whole = ['0'] ∨ whole.head? ≠ some '0')) ∧
    Digits fraction ∧ (exponent = [] ∨ ∃ sign digits, exponent = 'e' :: sign :: digits ∧ (sign = '+' ∨ sign = '-') ∧
      digits ≠ [] ∧ Digits digits)

theorem exponentText_form (e : ℤ) : ∃ sign digits, exponentText e = 'e' :: sign :: digits ∧ (sign = '+' ∨ sign = '-') ∧
    digits ≠ [] ∧ Digits digits := by
  refine ⟨_, _, rfl, ?_, ?_⟩
  · split_ifs <;> simp
  · split_ifs
    · refine ⟨List.cons_ne_nil _ _, fun c member => ?_⟩
      rcases List.mem_cons.mp member with rfl | digit
      · rfl
      · exact digits_toDigits _ c digit
    · exact ⟨Nat.toDigits_ne_nil, digits_toDigits _⟩

theorem ofDigitChars_lt {s : List Char} (digits : Digits s) (init : ℕ) :
    Nat.ofDigitChars 10 s init < 10 ^ s.length * (init + 1) := by
  induction s generalizing init with
  | nil => simp
  | cons c s ih =>
    have digit := digits c List.mem_cons_self
    rw [Nat.ofDigitChars_cons, List.length_cons]
    have value : c.toNat - '0'.toNat ≤ 9 := by
      have bounds : 48 ≤ c.toNat ∧ c.toNat ≤ 57 := by simpa [Char.isDigit, UInt32.le_iff_toNat_le] using digit
      have zero : '0'.toNat = 48 := rfl
      omega
    refine lt_of_lt_of_le (ih (fun d member => digits d (List.mem_cons_of_mem _ member)) _) ?_
    rw [Nat.pow_succ, Nat.mul_assoc]
    exact Nat.mul_le_mul_left _ (by omega)

/-- Six digits of a significand do not start with a zero. -/
theorem toDigits_head {d : ℕ} (low : 10 ^ 5 ≤ d) (high : d < 10 ^ 6) : (Nat.toDigits 10 d).head? ≠ some '0' := by
  intro zero
  have length := toDigits_length low high
  have digits := digits_toDigits d
  have value : Nat.ofDigitChars 10 (Nat.toDigits 10 d) 0 = d := Nat.ofDigitChars_ten_toDigits
  cases text : Nat.toDigits 10 d with
  | nil => exact Nat.toDigits_ne_nil text
  | cons c rest =>
    rw [text] at zero length digits value
    obtain rfl : c = '0' := Option.some.inj zero
    have small := ofDigitChars_lt (fun c member => digits c (List.mem_cons_of_mem _ member)) 0 (s := rest)
    have shift : Nat.ofDigitChars 10 ('0' :: rest) 0 = Nat.ofDigitChars 10 rest 0 := by
      rw [Nat.ofDigitChars_cons]
      rfl
    rw [List.length_cons] at length
    have five : rest.length = 5 := by omega
    rw [five] at small
    omega

theorem decimal_formatPositive {q : ℚ} (positive : 0 < q) {minus : List Char} (sign : minus = [] ∨ minus = ['-']) :
    Decimal (minus ++ formatPositive q) := by
  obtain ⟨low, high⟩ := significand_bounds positive
  have digits := digits_toDigits (significand q).1
  have length := toDigits_length low high
  have head := toDigits_head low high
  have back : ∀ n, Digits (strip ((Nat.toDigits 10 (significand q).1).drop n)) := fun n =>
    digits_strip fun c member => digits c (List.mem_of_mem_drop member)
  have front : ∀ n, Digits ((Nat.toDigits 10 (significand q).1).take (n + 1)) ∧
      (Nat.toDigits 10 (significand q).1).take (n + 1) ≠ [] ∧
      ((Nat.toDigits 10 (significand q).1).take (n + 1) = ['0'] ∨
        ((Nat.toDigits 10 (significand q).1).take (n + 1)).head? ≠ some '0') := by
    intro n
    refine ⟨fun c member => digits c (List.mem_of_mem_take member), fun empty => ?_, Or.inr ?_⟩
    · have short := congrArg List.length empty
      rw [List.length_take, List.length_nil] at short
      omega
    · rw [List.head?_take, if_neg (Nat.succ_ne_zero n)]
      exact head
  unfold formatPositive
  dsimp only
  split_ifs
  · exact ⟨minus, _, _, [], by rw [List.append_nil, List.append_assoc], sign, front _, back _, Or.inl rfl⟩
  · refine ⟨minus, ['0'], _, [], by rw [List.append_nil, List.append_assoc]; rfl, sign, ?_, digits_strip ?_, Or.inl rfl⟩
    · exact ⟨by simp [Digits], List.cons_ne_nil _ _, Or.inl rfl⟩
    · intro c member
      rcases List.mem_append.mp member with zero | digit
      · rw [List.eq_of_mem_replicate zero]
        rfl
      · exact digits c digit
  · exact ⟨minus, _, _, exponentText (significand q).2, by simp only [List.append_assoc, Nat.zero_add], sign, front 0, back 1,
      Or.inr (exponentText_form _)⟩

/-- `%g` writes decimal numbers. -/
theorem decimal_formatG (q : ℚ) : Decimal (formatG q) := by
  unfold formatG
  split_ifs with zero negative
  · exact ⟨[], ['0'], [], [], rfl, Or.inl rfl, ⟨by simp [Digits], List.cons_ne_nil _ _, Or.inl rfl⟩, by simp [Digits],
      Or.inl rfl⟩
  · exact @decimal_formatPositive (-q) (neg_pos.mpr negative) ['-'] (Or.inr rfl)
  · exact @decimal_formatPositive q (lt_of_le_of_ne (not_lt.mp negative) (Ne.symm zero)) [] (Or.inl rfl)

/-- The characters of a number. -/
def numeric (c : Char) : Bool := c.isDigit || c = '.' || c = 'e' || c = '+' || c = '-'

theorem numeric_of_decimal {s : List Char} (decimal : Decimal s) : ∀ c ∈ s, numeric c = true := by
  obtain ⟨minus, whole, fraction, exponent, rfl, sign, ⟨digits, -, -⟩, behind, tail⟩ := decimal.form
  have digit : ∀ {s : List Char}, Digits s → ∀ c ∈ s, numeric c = true := fun all c member => by
    simp [numeric, all c member]
  have point : ∀ c ∈ pointed fraction, numeric c = true := by
    unfold pointed
    split_ifs
    · exact fun _ member => by cases member
    · intro c member
      rcases List.mem_cons.mp member with rfl | later
      · rfl
      · exact digit behind c later
  simp only [List.mem_append]
  rintro c (((first | second) | third) | fourth)
  · rcases sign with rfl | rfl
    · cases first
    · rw [List.mem_singleton.mp first]
      rfl
  · exact digit digits c second
  · exact point c third
  · rcases tail with rfl | ⟨sign, ds, rfl, plus, -, all⟩
    · cases fourth
    · rcases List.mem_cons.mp fourth with rfl | later
      · rfl
      · rcases List.mem_cons.mp later with rfl | last
        · rcases plus with rfl | rfl <;> rfl
        · exact digit all c last

/-! ## Three places -/

/-- `%.3f` of a number that is exact: a tie rounds to the even digit, where C rounds the
    nearest double (0.0125 is printed as 0.013). -/
def formatF3 (q : ℚ) : List Char :=
  let n := (roundEven (|q| * 1000)).natAbs
  (if q < 0 then ['-'] else []) ++ Nat.toDigits 10 (n / 1000) ++ '.' :: (Nat.toDigits 10 (n % 1000)).leftpad 3 '0'

end DhcpdPools.Printf
