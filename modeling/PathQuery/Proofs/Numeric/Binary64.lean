import Mathlib.Order.Compare
import Mathlib.Order.WithBot
import Mathlib.Algebra.Order.Field.Basic
import Mathlib.Algebra.Order.Ring.Cast
import Mathlib.Algebra.Order.Ring.Rat
import Mathlib.Tactic.Ring
import PathQuery.Numeric.Binary64

/-!
# The numbers behind the bits

Every finite number is a whole multiple of the smallest positive one, `2 ^ -1074`, so numbers can be
told apart and rounded in integers.

* `Binary64.units`: the number in multiples of the smallest positive one;
* `Binary64.exact`: the number itself, rational or infinite;
* `compare_eq_cmp_exact`: bits are compared as the numbers that they stand for;
* `Binary64.RoundsTo`, `roundsTo_ofInt`: an integer becomes the nearest number, and of two that are
  as near the one with an even fraction;
* `RoundsTo.units_le`: so the order of integers is kept, though not strictly;
* `units_ofInt`: up to `2 ^ 53` every integer is a number.
-/

namespace PathQuery
namespace Binary64

/-! ## Magnitudes -/

/-- How many times the smallest positive number: below the first exponent the fraction itself, above
with a leading one and doubled for each further exponent. -/
def scaled (m : Nat) : Nat :=
  if m < exponentUnit then m
  else (exponentUnit + m % exponentUnit) * 2 ^ (m / exponentUnit - 1)

theorem exponentUnit_pos : 0 < exponentUnit := by
  decide

theorem exponentUnit_eq : exponentUnit = 2 ^ 52 := by
  decide

/-- A fraction that fills up carries into the exponent. -/
theorem scaled_add (exponent : Nat) {fraction : Nat} (h : fraction ≤ exponentUnit) :
    scaled ((exponent + 1) * exponentUnit + fraction) =
      (exponentUnit + fraction) * 2 ^ exponent := by
  have hpos := exponentUnit_pos
  have hge : ¬ (exponent + 1) * exponentUnit + fraction < exponentUnit := by
    rw [Nat.add_mul]
    omega
  rw [scaled, if_neg hge]
  rcases Nat.lt_or_eq_of_le h with hlt | rfl
  · rw [Nat.mul_add_mod', Nat.mod_eq_of_lt hlt, Nat.mul_comm _ exponentUnit,
      Nat.mul_add_div hpos, Nat.div_eq_of_lt hlt]
    rfl
  · rw [← Nat.succ_mul, Nat.mul_mod_left, Nat.mul_div_left _ hpos, Nat.succ_sub_one, Nat.pow_succ]
    ring

theorem exists_exponent {m : Nat} (h : exponentUnit ≤ m) :
    ∃ exponent fraction, fraction < exponentUnit ∧
      m = (exponent + 1) * exponentUnit + fraction := by
  have hpos := exponentUnit_pos
  have hexponent : 0 < m / exponentUnit := Nat.div_pos h hpos
  refine ⟨m / exponentUnit - 1, m % exponentUnit, Nat.mod_lt _ hpos, ?_⟩
  rw [Nat.sub_add_cancel hexponent, Nat.div_add_mod']

theorem scaled_strictMono : StrictMono scaled := by
  refine strictMono_nat_of_lt_succ fun m => ?_
  rcases Nat.lt_or_ge m exponentUnit with hlt | hge
  · rw [scaled, if_pos hlt]
    rcases Nat.lt_or_eq_of_le (Nat.succ_le_of_lt hlt) with hlt' | heq
    · rw [scaled, if_pos hlt']
      exact Nat.lt_succ_self m
    · have hone : scaled exponentUnit = exponentUnit := by decide
      rw [← Nat.succ_eq_add_one, heq, hone]
      exact hlt
  · obtain ⟨exponent, fraction, hfraction, rfl⟩ := exists_exponent hge
    rw [Nat.add_assoc, scaled_add exponent hfraction.le, scaled_add exponent hfraction]
    exact Nat.mul_lt_mul_of_pos_right (by omega) (Nat.two_pow_pos _)

/-- From an exponent on all numbers are multiples of its place value. -/
theorem dvd_scaled {exponent m : Nat} (h : (exponent + 1) * exponentUnit ≤ m) :
    2 ^ exponent ∣ scaled m := by
  have hle : exponentUnit ≤ m := (Nat.le_mul_of_pos_left _ (Nat.succ_pos exponent)).trans h
  obtain ⟨exponent', fraction, hfraction, rfl⟩ := exists_exponent hle
  rw [scaled_add exponent' hfraction.le]
  refine Dvd.dvd.mul_left (Nat.pow_dvd_pow 2 ?_) _
  by_contra hlt
  have hmul : (exponent' + 1 + 1) * exponentUnit ≤ (exponent + 1) * exponentUnit :=
    Nat.mul_le_mul_right _ (by omega)
  rw [Nat.succ_mul] at hmul
  omega

/-! ## The order of the numbers -/

/-- The number in multiples of the smallest positive one. -/
def units (x : Binary64) : ℤ :=
  if x.key < 0 then -(scaled x.key.natAbs : ℤ) else scaled x.key.natAbs

/-- The smallest positive number is one, halved so many times. -/
def placesOfOne : Nat :=
  1074

/-- How many of them are one. -/
def unitsOfOne : Nat :=
  2 ^ placesOfOne

/-- The number that the bits stand for. -/
def exact (x : Binary64) : WithBot (WithTop ℚ) :=
  if x.key = infinity then ⊤
  else if x.key = -infinity then ⊥
  else ((x.units / unitsOfOne : ℚ) : WithTop ℚ)

theorem unitsOfOne_pos : 0 < unitsOfOne :=
  Nat.two_pow_pos placesOfOne

theorem two_pow_add_places (k : Nat) : 2 ^ (k + placesOfOne) = 2 ^ k * unitsOfOne :=
  Nat.pow_add 2 k placesOfOne

theorem scaled_zero : scaled 0 = 0 := by
  decide

theorem key_natAbs (x : Binary64) : x.key.natAbs = x.magnitude := by
  unfold key
  split <;> simp

theorem units_lt {x y : Binary64} (h : x.key < y.key) : x.units < y.units := by
  unfold units
  have hzero := scaled_zero
  split
  · split
    · have hlt : scaled y.key.natAbs < scaled x.key.natAbs := scaled_strictMono (by omega)
      omega
    · have hlt : scaled 0 < scaled x.key.natAbs := scaled_strictMono (by omega)
      omega
  · rw [if_neg (by omega)]
    have hlt : scaled x.key.natAbs < scaled y.key.natAbs := scaled_strictMono (by omega)
    omega

theorem units_lt_iff {x y : Binary64} : x.units < y.units ↔ x.key < y.key := by
  refine ⟨fun h => ?_, units_lt⟩
  by_contra hle
  rcases Int.lt_or_eq_of_le (Int.not_lt.1 hle) with hlt | heq
  · exact absurd (units_lt hlt) (Int.not_lt.2 h.le)
  · exact absurd h (by simp [units, heq])

theorem units_eq_iff {x y : Binary64} : x.units = y.units ↔ x.key = y.key := by
  have hxy := units_lt_iff (x := x) (y := y)
  have hyx := units_lt_iff (x := y) (y := x)
  omega

theorem key_bounds {x : Binary64} (hx : x.isNaN = false) :
    -(infinity : ℤ) ≤ x.key ∧ x.key ≤ infinity := by
  have hmagnitude : x.magnitude ≤ infinity := by simpa [isNaN] using hx
  have habs := x.key_natAbs
  omega

theorem exact_lt {x y : Binary64} (hx : x.isNaN = false) (hy : y.isNaN = false)
    (h : x.key < y.key) : x.exact < y.exact := by
  have hbounds := key_bounds hx
  have hbounds' := key_bounds hy
  have hpos : (0 : ℚ) < unitsOfOne := Nat.cast_pos.2 unitsOfOne_pos
  unfold exact
  rw [if_neg (by omega)]
  by_cases hbottom : x.key = -infinity
  · rw [if_pos hbottom]
    split
    · exact bot_lt_top
    · rw [if_neg (by omega)]
      exact WithBot.bot_lt_coe _
  · rw [if_neg hbottom]
    split
    · exact WithBot.coe_lt_coe.2 (WithTop.coe_lt_top _)
    · rw [if_neg (by omega)]
      refine WithBot.coe_lt_coe.2 (WithTop.coe_lt_coe.2 ?_)
      exact div_lt_div_of_pos_right (Int.cast_lt.2 (units_lt h)) hpos

theorem compare_eq_cmp_exact {x y : Binary64} (hx : x.isNaN = false) (hy : y.isNaN = false) :
    x.compare y = some (cmp x.exact y.exact) := by
  rw [compare, hx, hy]
  refine congrArg some ?_
  rcases lt_trichotomy x.key y.key with hlt | heq | hgt
  · rw [(cmp_eq_lt_iff _ _).2 (exact_lt hx hy hlt)]
    exact compare_lt_iff_lt.2 hlt
  · have hexact : x.exact = y.exact := by simp only [exact, units, heq]
    rw [(cmp_eq_eq_iff _ _).2 hexact]
    exact compare_eq_iff_eq.2 heq
  · rw [(cmp_eq_gt_iff _ _).2 (exact_lt hy hx hgt)]
    exact compare_gt_iff_gt.2 hgt

/-! ## Rounding -/

/-- The distance of the number to an integer, in multiples of the smallest positive number. -/
def distance (x : Binary64) (i : ℤ) : Nat :=
  (x.units - i * unitsOfOne).natAbs

/-- No finite number is nearer to the integer; if another one is as near, the fraction is even. -/
structure RoundsTo (i : ℤ) (x : Binary64) : Prop where
  finite : x.magnitude < infinity
  nearest (y : Binary64) : y.magnitude < infinity → x.distance i ≤ y.distance i
  even (y : Binary64) : y.magnitude < infinity → y.distance i = x.distance i →
    y.units ≠ x.units → x.magnitude % 2 = 0

/-- The rounded quotient is off by half the divisor at most, and if by so much then it is even. -/
theorem roundShift_error (n shift : Nat) :
    2 * ((roundShift n shift * 2 ^ shift : Nat) - n : ℤ).natAbs < 2 ^ shift ∨
      2 * ((roundShift n shift * 2 ^ shift : Nat) - n : ℤ).natAbs = 2 ^ shift ∧
        roundShift n shift % 2 = 0 := by
  have hdivision : 2 ^ shift * (n / 2 ^ shift) + n % 2 ^ shift = n := Nat.div_add_mod n _
  have hrest : n % 2 ^ shift < 2 ^ shift := Nat.mod_lt _ (Nat.two_pow_pos shift)
  simp only [roundShift, Nat.one_shiftLeft]
  rw [Nat.mul_comm] at hdivision
  split
  · rename_i hup
    simp only [Bool.or_eq_true, Bool.and_eq_true, decide_eq_true_eq, beq_iff_eq] at hup
    rw [Nat.add_mul, Nat.one_mul]
    omega
  · rename_i hdown
    simp only [Bool.or_eq_true, Bool.and_eq_true, decide_eq_true_eq, beq_iff_eq] at hdown
    omega

/-- So no multiple of the divisor is nearer. -/
theorem roundShift_nearest (n shift k : Nat) :
    ((roundShift n shift * 2 ^ shift : Nat) - n : ℤ).natAbs ≤ ((k * 2 ^ shift : Nat) - n : ℤ).natAbs ∧
      (((k * 2 ^ shift : Nat) - n : ℤ).natAbs =
          ((roundShift n shift * 2 ^ shift : Nat) - n : ℤ).natAbs →
        k ≠ roundShift n shift → roundShift n shift % 2 = 0) := by
  have herror := roundShift_error n shift
  rcases lt_trichotomy k (roundShift n shift) with hlt | rfl | hgt
  · have hgap : (k + 1) * 2 ^ shift ≤ roundShift n shift * 2 ^ shift :=
      Nat.mul_le_mul_right _ hlt
    rw [Nat.add_mul, Nat.one_mul] at hgap
    omega
  · exact ⟨le_rfl, fun _ hne => absurd rfl hne⟩
  · have hgap : (roundShift n shift + 1) * 2 ^ shift ≤ k * 2 ^ shift :=
      Nat.mul_le_mul_right _ hgt
    rw [Nat.add_mul, Nat.one_mul] at hgap
    omega

/-- The significand of a natural number, with its leading one. -/
def significand (n : Nat) : Nat :=
  if n.log2 ≤ 52 then n <<< (52 - n.log2) else roundShift n (n.log2 - 52)

theorem significand_bounds {n : Nat} (hn : n ≠ 0) :
    exponentUnit ≤ significand n ∧ significand n ≤ 2 * exponentUnit := by
  have hlow : 2 ^ n.log2 ≤ n := Nat.log2_self_le hn
  have hhigh : n < 2 ^ (n.log2 + 1) := Nat.lt_log2_self
  rw [exponentUnit_eq, significand]
  split
  · rename_i hsmall
    -- The leading one is moved to its place.
    have hplace : 2 ^ n.log2 * 2 ^ (52 - n.log2) = 2 ^ 52 := by
      rw [← Nat.pow_add, Nat.add_sub_cancel' hsmall]
    have hscaled : 2 ^ n.log2 * 2 ^ (52 - n.log2) ≤ n * 2 ^ (52 - n.log2) :=
      Nat.mul_le_mul_right _ hlow
    have hscaled' : n * 2 ^ (52 - n.log2) ≤ 2 ^ (n.log2 + 1) * 2 ^ (52 - n.log2) :=
      Nat.mul_le_mul_right _ hhigh.le
    rw [Nat.pow_succ, Nat.mul_right_comm] at hscaled'
    rw [Nat.shiftLeft_eq]
    omega
  · rename_i hlarge
    have hplace : 2 ^ n.log2 = 2 ^ 52 * 2 ^ (n.log2 - 52) := by
      rw [← Nat.pow_add, Nat.add_sub_cancel' (by omega)]
    rw [Nat.pow_succ, hplace] at hhigh
    rw [hplace] at hlow
    have hpos : 0 < 2 ^ (n.log2 - 52) := Nat.two_pow_pos _
    have hquotient : 2 ^ 52 ≤ n / 2 ^ (n.log2 - 52) := (Nat.le_div_iff_mul_le hpos).2 hlow
    have hquotient' : n / 2 ^ (n.log2 - 52) < 2 ^ 52 * 2 := by
      rw [Nat.div_lt_iff_lt_mul hpos, Nat.mul_right_comm]
      exact hhigh
    simp only [roundShift, Nat.one_shiftLeft]
    split <;> omega

theorem natMagnitude_eq {n : Nat} (hn : n ≠ 0) :
    natMagnitude n = (n.log2 + 1022) * exponentUnit + significand n := by
  have hbounds := significand_bounds hn
  have hexponent : (n.log2 + 1023) * exponentUnit =
      (n.log2 + 1022) * exponentUnit + exponentUnit := Nat.succ_mul (n.log2 + 1022) _
  rw [natMagnitude, if_neg hn]
  simp only [significand] at hbounds ⊢
  omega

theorem scaled_natMagnitude {n : Nat} (hn : n ≠ 0) :
    scaled (natMagnitude n) = significand n * 2 ^ (n.log2 + 1022) := by
  obtain ⟨hlow, hhigh⟩ := significand_bounds hn
  obtain ⟨fraction, hfraction⟩ := Nat.exists_eq_add_of_le hlow
  have hmagnitude : natMagnitude n = (n.log2 + 1022 + 1) * exponentUnit + fraction := by
    rw [natMagnitude_eq hn, hfraction, Nat.succ_mul (n.log2 + 1022), Nat.add_assoc]
  rw [hmagnitude, scaled_add _ (by omega), hfraction]

/-- Integers of up to 53 bits are numbers. -/
theorem scaled_natMagnitude_of_small {n : Nat} (h : n.log2 ≤ 52) :
    scaled (natMagnitude n) = n * unitsOfOne := by
  rcases Nat.eq_zero_or_pos n with rfl | hn
  · rw [Nat.zero_mul]
    decide
  · have hexponent : 52 - n.log2 + (n.log2 + 1022) = 0 + placesOfOne := by
      rw [placesOfOne]
      omega
    rw [scaled_natMagnitude hn.ne', significand, if_pos h, Nat.shiftLeft_eq, Nat.mul_assoc,
      ← Nat.pow_add, hexponent, two_pow_add_places, Nat.pow_zero, Nat.one_mul]

/-- From a magnitude to a natural number, in multiples of the smallest positive number. -/
def gap (m n : Nat) : Nat :=
  ((scaled m : ℤ) - (n * unitsOfOne : Nat)).natAbs

theorem gap_of_multiple {m k : Nat} (h : scaled m = k * unitsOfOne) (n : Nat) :
    gap m n = ((k : ℤ) - n).natAbs * unitsOfOne := by
  rw [gap, h, Nat.cast_mul, Nat.cast_mul, ← Int.sub_mul, Int.natAbs_mul, Int.natAbs_natCast]

/-- What lies below a number that is not nearer lies farther away. -/
theorem gap_lt_of_lt {rounded first m n : Nat} (hnearest : gap rounded n ≤ gap first n)
    (hfirst : scaled first ≤ n * unitsOfOne) (hm : m < first) : gap rounded n < gap m n := by
  have hless := scaled_strictMono hm
  unfold gap at hnearest ⊢
  omega

section Large

variable {n : Nat} (hlarge : 52 < n.log2)
include hlarge

theorem ne_zero_of_large : n ≠ 0 := by
  rintro rfl
  simp at hlarge

theorem place_of_large : 2 ^ (n.log2 + 1022) = 2 ^ (n.log2 - 52) * unitsOfOne := by
  have hexponent : n.log2 + 1022 = n.log2 - 52 + placesOfOne := by
    rw [placesOfOne]
    omega
  rw [hexponent, two_pow_add_places]

theorem significand_of_large : significand n = roundShift n (n.log2 - 52) := by
  rw [significand, if_neg (Nat.not_le.2 hlarge)]

theorem scaled_natMagnitude_of_large : scaled (natMagnitude n) =
    roundShift n (n.log2 - 52) * 2 ^ (n.log2 - 52) * unitsOfOne := by
  rw [scaled_natMagnitude (ne_zero_of_large hlarge), place_of_large hlarge,
    significand_of_large hlarge, Nat.mul_assoc]

theorem natMagnitude_even (h : roundShift n (n.log2 - 52) % 2 = 0) : natMagnitude n % 2 = 0 := by
  rw [natMagnitude_eq (ne_zero_of_large hlarge), significand_of_large hlarge, Nat.add_mod,
    Nat.mul_mod, h]
  rfl

/-- The first number with the exponent is a multiple of the place value, too, and not above. -/
theorem gap_lt_below {m : Nat} (hm : m < (n.log2 + 1022 + 1) * exponentUnit) :
    gap (natMagnitude n) n < gap m n := by
  have hfirst : scaled ((n.log2 + 1022 + 1) * exponentUnit) =
      exponentUnit * 2 ^ (n.log2 - 52) * unitsOfOne := by
    have hadd := scaled_add (n.log2 + 1022) (Nat.zero_le exponentUnit)
    rwa [Nat.add_zero, Nat.add_zero, place_of_large hlarge, ← Nat.mul_assoc] at hadd
  have hbelow : exponentUnit * 2 ^ (n.log2 - 52) ≤ n := by
    rw [exponentUnit_eq, ← Nat.pow_add, Nat.add_sub_cancel' hlarge.le]
    exact Nat.log2_self_le (ne_zero_of_large hlarge)
  refine gap_lt_of_lt ?_ (hfirst.trans_le (Nat.mul_le_mul_right _ hbelow)) hm
  rw [gap_of_multiple (scaled_natMagnitude_of_large hlarge), gap_of_multiple hfirst]
  exact Nat.mul_le_mul_right _ (roundShift_nearest n (n.log2 - 52) exponentUnit).1

end Large

theorem natMagnitude_nearest (n m : Nat) :
    gap (natMagnitude n) n ≤ gap m n ∧
      (gap m n = gap (natMagnitude n) n → scaled m ≠ scaled (natMagnitude n) →
        natMagnitude n % 2 = 0) := by
  rcases Nat.lt_or_ge 52 n.log2 with hlarge | hsmall
  case inr =>
    -- Nothing is rounded.
    have hexact := scaled_natMagnitude_of_small hsmall
    unfold gap
    rw [hexact]
    omega
  case inl =>
    -- From the exponent on, numbers are multiples of its place value; those below it are nearer to
    -- each other, but too far away.
    rcases Nat.lt_or_ge m ((n.log2 + 1022 + 1) * exponentUnit) with hlt | hge
    · have hfarther := gap_lt_below hlarge hlt
      exact ⟨hfarther.le, fun heq => absurd heq hfarther.ne'⟩
    · obtain ⟨k, hk⟩ := dvd_scaled hge
      have hmultiple : scaled m = k * 2 ^ (n.log2 - 52) * unitsOfOne := by
        rw [hk, place_of_large hlarge, Nat.mul_comm, Nat.mul_assoc]
      have hrounded := scaled_natMagnitude_of_large hlarge
      obtain ⟨hnearest, htie⟩ := roundShift_nearest n (n.log2 - 52) k
      rw [gap_of_multiple hrounded, gap_of_multiple hmultiple]
      refine ⟨Nat.mul_le_mul_right _ hnearest, fun heq hne => ?_⟩
      refine natMagnitude_even hlarge (htie ?_ ?_)
      · exact Nat.eq_of_mul_eq_mul_right unitsOfOne_pos heq
      · rintro rfl
        exact hne (hmultiple.trans hrounded.symm)

/-! ## Integers as numbers -/

/-- Sixty-four bits with a sign. -/
def IsInt64 (i : ℤ) : Prop :=
  -2 ^ 63 ≤ i ∧ i < 2 ^ 63

instance (i : ℤ) : Decidable (IsInt64 i) :=
  inferInstanceAs (Decidable (_ ∧ _))

theorem natMagnitude_lt {i : ℤ} (hi : IsInt64 i) : natMagnitude i.natAbs < infinity := by
  by_cases hzero : i.natAbs = 0
  · rw [hzero]
    decide
  · have hlog : i.natAbs.log2 < 64 := by
      rw [Nat.log2_lt hzero]
      have hrange := hi
      unfold IsInt64 at hrange
      omega
    have hbounds := (significand_bounds hzero).2
    have hexponent : (i.natAbs.log2 + 1022) * exponentUnit ≤ 1085 * exponentUnit :=
      Nat.mul_le_mul_right _ (by omega)
    rw [natMagnitude_eq hzero]
    rw [exponentUnit_eq] at hbounds hexponent ⊢
    unfold infinity
    omega

theorem key_ofInt {i : ℤ} (hi : IsInt64 i) :
    (ofInt i).key =
      if i < 0 then -(natMagnitude i.natAbs : ℤ) else natMagnitude i.natAbs := by
  have hlt := natMagnitude_lt hi
  have hsign : infinity < signBit := by decide
  have hword : signBit + signBit = 2 ^ 64 := by decide
  have hbits : ∀ n, n < 2 ^ 64 → (UInt64.ofNat n).toNat = n := fun n hn => by
    rw [UInt64.toNat_ofNat', Nat.mod_eq_of_lt hn]
  unfold ofInt key isNegative magnitude
  split
  · rw [hbits _ (by omega), Nat.add_mod_left, Nat.mod_eq_of_lt (by omega), if_pos (by simp)]
  · rw [hbits _ (by omega), Nat.mod_eq_of_lt (by omega), if_neg (by simp; omega)]

theorem magnitude_ofInt {i : ℤ} (hi : IsInt64 i) :
    (ofInt i).magnitude = natMagnitude i.natAbs := by
  rw [← key_natAbs, key_ofInt hi]
  split <;> simp

theorem isNaN_ofInt {i : ℤ} (hi : IsInt64 i) : (ofInt i).isNaN = false := by
  have hlt := natMagnitude_lt hi
  rw [isNaN, magnitude_ofInt hi, decide_eq_false_iff_not]
  omega

theorem units_cases (x : Binary64) :
    x.units = scaled x.magnitude ∨ x.units = -(scaled x.magnitude : ℤ) := by
  rw [units, key_natAbs]
  split
  · exact .inr rfl
  · exact .inl rfl

theorem units_ofInt_eq {i : ℤ} (hi : IsInt64 i) :
    (ofInt i).units = if i < 0 then -(scaled (natMagnitude i.natAbs) : ℤ)
      else scaled (natMagnitude i.natAbs) := by
  have hzero := scaled_zero
  rw [units, key_natAbs, magnitude_ofInt hi, key_ofInt hi]
  rcases Nat.eq_zero_or_pos (natMagnitude i.natAbs) with hnone | hpos
  · simp [hnone, hzero]
  · by_cases hneg : i < 0
    · rw [if_pos hneg, if_pos hneg, if_pos (by omega)]
    · rw [if_neg hneg, if_neg hneg, if_neg (by omega)]

/-- Rounding of absolute values is rounding: what has the other sign is farther away than zero. -/
theorem signed_nearest {rounded n m : Nat} {x y i : ℤ}
    (hx : x = rounded ∧ i = n ∨ x = -(rounded : ℤ) ∧ i = -(n : ℤ))
    (hy : y = m ∨ y = -(m : ℤ))
    (hnearest : (rounded - n : ℤ).natAbs ≤ (m - n : ℤ).natAbs)
    (hzero : (rounded - n : ℤ).natAbs ≤ ((0 : Nat) - n : ℤ).natAbs) :
    (x - i).natAbs ≤ (y - i).natAbs ∧
      ((y - i).natAbs = (x - i).natAbs → y ≠ x →
        ((m - n : ℤ).natAbs = (rounded - n : ℤ).natAbs ∧ m ≠ rounded) ∨
        (((0 : Nat) - n : ℤ).natAbs = (rounded - n : ℤ).natAbs ∧ 0 ≠ rounded)) := by
  rcases hx with ⟨rfl, rfl⟩ | ⟨rfl, rfl⟩ <;> rcases hy with rfl | rfl <;> omega

theorem roundsTo_ofInt {i : ℤ} (hi : IsInt64 i) : RoundsTo i (ofInt i) := by
  have hsigned : (ofInt i).units = scaled (natMagnitude i.natAbs) ∧
      i * unitsOfOne = (i.natAbs * unitsOfOne : Nat) ∨
      (ofInt i).units = -(scaled (natMagnitude i.natAbs) : ℤ) ∧
      i * unitsOfOne = -((i.natAbs * unitsOfOne : Nat) : ℤ) := by
    rw [units_ofInt_eq hi, Nat.cast_mul]
    by_cases hneg : i < 0
    · have habs : i = -(i.natAbs : ℤ) := by omega
      exact .inr ⟨if_pos hneg, by rw [← Int.neg_mul, ← habs]⟩
    · have habs : i = (i.natAbs : ℤ) := by omega
      exact .inl ⟨if_neg hneg, by rw [← habs]⟩
  have hnearest := natMagnitude_nearest i.natAbs
  have hzero := hnearest 0
  unfold gap at hnearest hzero
  rw [scaled_zero] at hzero
  refine ⟨magnitude_ofInt hi ▸ natMagnitude_lt hi, fun y _ => ?_, fun y _ heq hne => ?_⟩
  · exact (signed_nearest hsigned y.units_cases (hnearest y.magnitude).1 hzero.1).1
  · rw [magnitude_ofInt hi]
    rcases (signed_nearest hsigned y.units_cases (hnearest y.magnitude).1 hzero.1).2 heq hne with
      htie | htie
    · exact (hnearest y.magnitude).2 htie.1 htie.2
    · exact hzero.2 htie.1 htie.2

/-- A smaller integer does not become a greater number. -/
theorem RoundsTo.units_le {i j : ℤ} {x y : Binary64} (hx : RoundsTo i x) (hy : RoundsTo j y)
    (h : i < j) : x.units ≤ y.units := by
  have hij : i * unitsOfOne < j * unitsOfOne :=
    Int.mul_lt_mul_of_pos_right h (Int.natCast_pos.2 unitsOfOne_pos)
  have hx' := hx.nearest y hy.finite
  have hy' := hy.nearest x hx.finite
  unfold distance at hx' hy'
  generalize i * (unitsOfOne : ℤ) = i' at *
  generalize j * (unitsOfOne : ℤ) = j' at *
  omega

/-- Integers between `-2 ^ 53` and `2 ^ 53` are numbers. -/
theorem units_ofInt {i : ℤ} (hi : i.natAbs ≤ 2 ^ 53) : (ofInt i).units = i * unitsOfOne := by
  have hscaled : scaled (natMagnitude i.natAbs) = i.natAbs * unitsOfOne := by
    rcases Nat.lt_or_eq_of_le hi with hlt | heq
    · refine scaled_natMagnitude_of_small ?_
      by_cases hzero : i.natAbs = 0
      · simp [hzero]
      · exact Nat.le_of_lt_succ ((Nat.log2_lt hzero).2 hlt)
    · have hlast : significand (2 ^ 53) * 2 ^ 1 = 2 ^ 53 := by decide
      have hlog : (2 ^ 53).log2 + 1022 = 1 + placesOfOne := by decide
      rw [heq, scaled_natMagnitude (by decide), hlog, two_pow_add_places, ← Nat.mul_assoc, hlast]
  rw [units_ofInt_eq (by unfold IsInt64; omega), hscaled]
  split
  · have habs : i = -(i.natAbs : ℤ) := by omega
    rw [Nat.cast_mul, ← Int.neg_mul, ← habs]
  · have habs : i = (i.natAbs : ℤ) := by omega
    rw [Nat.cast_mul, ← habs]

end Binary64
end PathQuery
