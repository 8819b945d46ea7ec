/-
Numbers in plain notation.  A float is printed without an exponent if it is
zero or between two powers of ten: the decimal that is printed lies close enough
to the float to stay between them too.
-/
import Mathlib.Algebra.Order.Field.Power
import Mathlib.Data.Nat.Cast.Order.Field
import Mathlib.Tactic.FieldSimp
import Mathlib.Tactic.Linarith
import Mathlib.Tactic.NormNum
import Mathlib.Tactic.Positivity
import Mathlib.Tactic.Ring
import Horn.Proofs.Plain

namespace Horn

/-- The size of a binary number. -/
def Binary.size (value : Binary) : ℚ :=
  value.mantissa * 2 ^ value.exponent

/-- The size of a decimal number. -/
def Decimal.size (decimal : Decimal) : ℚ :=
  decimal.digits * 10 ^ decimal.exponent

/-- Zero, or at least `1e-4` and below `1e16`. -/
def IsPlain (value : Float) : Prop :=
  match magnitude value with
  | .zero => True
  | .finite value => 1 / 10 ^ 4 ≤ value.size ∧ value.size < 10 ^ 16
  | .infinite => False
  | .notANumber => False

/-- What the fields of a float allow. -/
structure Binary.Stored (value : Binary) : Prop where
  pos : 0 < value.mantissa
  lt : value.mantissa < 2 ^ 53
  normal : 0 < value.exponent → 2 ^ 52 ≤ value.mantissa

theorem stored_of_magnitude {number : Float} {value : Binary}
    (hvalue : magnitude number = .finite value) : value.Stored := by
  have hfraction : number.toBits.toNat % Nat.pow 2 52 < 2 ^ 52 := Nat.mod_lt _ (by decide)
  unfold magnitude at hvalue
  dsimp only at hvalue
  split at hvalue
  · split at hvalue <;> cases hvalue
  split at hvalue
  · split at hvalue
    · cases hvalue
    · next hne =>
        cases hvalue
        exact ⟨Nat.pos_of_ne_zero hne, by dsimp only; omega, fun hpos => nomatch hpos⟩
  · cases hvalue
    have hpow : Nat.pow 2 52 = 2 ^ 52 := rfl
    constructor
    · dsimp only
      omega
    · dsimp only
      omega
    · intro _
      dsimp only
      omega

theorem zpow_eq_div (base : Nat) (exponent : Int) :
    (base : ℚ) ^ exponent = (base ^ exponent.toNat : Nat) / (base ^ (-exponent).toNat : Nat) := by
  rcases Int.eq_nat_or_neg exponent with ⟨n, rfl | rfl⟩
  · simp
  · simp

theorem ten_zpow_pos (exponent : Int) : (0 : ℚ) < 10 ^ exponent :=
  zpow_pos (by norm_num) exponent

namespace Interval

variable {interval : Interval} (hpos : 0 < interval.denominator) (grid : Int) (steps : Nat)

/-- The real that an interval is around. -/
def center (interval : Interval) : ℚ :=
  interval.middle / interval.denominator

/-- The upper end of an interval. -/
def top (interval : Interval) : ℚ :=
  interval.high / interval.denominator

/-- The steps on a grid up to the middle of an interval. -/
def stepsBelow (interval : Interval) (grid : Int) : Nat :=
  interval.middle * Nat.pow 10 (-grid).toNat / (interval.denominator * Nat.pow 10 grid.toNat)

include hpos in
/-- Fractions over the denominator of an interval are compared as they are in the
search. -/
theorem scaled_le_iff (part : Nat) :
    steps * interval.denominator * Nat.pow 10 grid.toNat ≤ part * Nat.pow 10 (-grid).toNat ↔
      (steps : ℚ) * 10 ^ grid ≤ part / interval.denominator := by
  have hden : (0 : ℚ) < interval.denominator := by exact_mod_cast hpos
  have hdown : (0 : ℚ) < (10 ^ (-grid).toNat : Nat) := by positivity
  have hgrid := zpow_eq_div 10 grid
  rw [Nat.cast_ofNat] at hgrid
  rw [hgrid, ← mul_div_assoc, div_le_div_iff₀ hdown hden, ← Nat.cast_mul, ← Nat.cast_mul,
    ← Nat.cast_mul, Nat.cast_le, Nat.mul_right_comm]
  rfl

include hpos in
theorem le_stepsBelow_iff :
    steps ≤ interval.stepsBelow grid ↔ (steps : ℚ) * 10 ^ grid ≤ interval.center := by
  have hstep : 0 < interval.denominator * Nat.pow 10 grid.toNat :=
    Nat.mul_pos hpos (Nat.pow_pos (by decide))
  rw [stepsBelow, Nat.le_div_iff_mul_le hstep, ← Nat.mul_assoc, scaled_le_iff hpos]
  rfl

include hpos in
theorem le_top_of_admits (hadmits : interval.admits grid steps = true) :
    (steps : ℚ) * 10 ^ grid ≤ interval.top := by
  rw [top, ← scaled_le_iff hpos grid steps]
  rw [admits] at hadmits
  split at hadmits
  · exact of_decide_eq_true (Bool.and_eq_true_iff.mp hadmits).2
  · exact Nat.le_of_lt (of_decide_eq_true (Bool.and_eq_true_iff.mp hadmits).2)

/-- The multiple of a power of ten that is chosen for an interval: not below the
last one up to the middle, not beyond the end, and not zero. -/
structure Chooses (interval : Interval) (decimal : Decimal) : Prop where
  pos : 0 < decimal.digits
  below : interval.stepsBelow decimal.exponent ≤ decimal.digits
  top : decimal.size ≤ interval.top

include hpos in
theorem chooses_below (hle : interval.center ≤ interval.top)
    (hsteps : 0 < interval.stepsBelow grid) :
    interval.Chooses ⟨interval.stepsBelow grid, grid⟩ :=
  ⟨hsteps, Nat.le_refl _, ((le_stepsBelow_iff hpos grid _).mp (Nat.le_refl _)).trans hle⟩

include hpos in
theorem chooses_above (hadmits : interval.admits grid (interval.stepsBelow grid + 1) = true) :
    interval.Chooses ⟨interval.stepsBelow grid + 1, grid⟩ :=
  ⟨Nat.succ_pos _, Nat.le_succ _, le_top_of_admits hpos grid _ hadmits⟩

include hpos in
theorem chooses_onGrid? (hle : interval.center ≤ interval.top) {tie : Tie} {digits : Nat}
    (hfound : interval.onGrid? tie grid = some digits) : interval.Chooses ⟨digits, grid⟩ := by
  have hbelow (hdown : (0 < interval.stepsBelow grid &&
      interval.admits grid (interval.stepsBelow grid)) = true) :=
    chooses_below hpos grid hle (of_decide_eq_true (Bool.and_eq_true_iff.mp hdown).1)
  unfold onGrid? at hfound
  dsimp only at hfound
  split at hfound
  · next hdown hup =>
      have hdigits : digits = interval.stepsBelow grid ∨ digits = interval.stepsBelow grid + 1 := by
        unfold stepsBelow
        cases tie <;> grind
      rcases hdigits with rfl | rfl
      · exact hbelow hdown
      · exact chooses_above hpos grid hup
  · next hdown _ =>
      obtain rfl := Option.some.inj hfound
      exact hbelow hdown
  · next _ hup =>
      obtain rfl := Option.some.inj hfound
      exact chooses_above hpos grid hup
  · cases hfound

include hpos in
/-- The search ends with a choice, since the last grid is fine enough. -/
theorem chooses_shortestUpTo (hle : interval.center ≤ interval.top) (tie : Tie) {fuel : Nat}
    {grid : Int} (hfine : (10 : ℚ) ^ (grid - fuel) ≤ interval.center) :
    interval.Chooses (interval.shortestUpTo tie fuel grid) := by
  induction fuel generalizing grid with
  | zero =>
      rw [shortestUpTo]
      apply chooses_below hpos grid hle
      apply (le_stepsBelow_iff hpos grid 1).mpr
      simpa using hfine
  | succ fuel ih =>
      rw [shortestUpTo]
      cases hfound : interval.onGrid? tie grid with
      | some digits => exact chooses_onGrid? hpos grid hle hfound
      | none =>
          apply ih
          have hsame : grid - (fuel + 1 : Nat) = grid - 1 - fuel := by push_cast; omega
          rwa [hsame] at hfine

end Interval

theorem lt_pow_digitCount (n : Nat) : n < 10 ^ digitCount n :=
  (Nat.length_toDigits_le_iff (by decide) Nat.length_toDigits_pos).mp (Nat.le_refl _)

theorem pow_le_of_pos {n : Nat} (hpos : 0 < n) : 10 ^ (digitCount n - 1) ≤ n := by
  by_cases hone : digitCount n = 1
  · rw [hone]
    exact hpos
  · have hcount : 0 < digitCount n := Nat.length_toDigits_pos
    by_contra hless
    have hshort := (Nat.length_toDigits_le_iff (b := 10) (by decide) (by omega)).mpr
      (Nat.lt_of_not_le hless)
    change digitCount n ≤ digitCount n - 1 at hshort
    omega

/-- The leading digit of the middle stands for no more than the middle. -/
theorem Interval.ten_zpow_leading_le {interval : Interval} (hpos : 0 < interval.denominator)
    (hmiddle : 0 < interval.middle) : (10 : ℚ) ^ interval.leading ≤ interval.center := by
  have hden : (0 : ℚ) < interval.denominator := by exact_mod_cast hpos
  have hnum : (0 : ℚ) < interval.middle := by exact_mod_cast hmiddle
  rw [leading]
  by_cases hlarge : interval.denominator ≤ interval.middle
  · rw [if_pos hlarge]
    have hwhole : 0 < interval.middle / interval.denominator := Nat.div_pos hlarge hpos
    have hcount : 1 ≤ digitCount (interval.middle / interval.denominator) := Nat.length_toDigits_pos
    rw [← Nat.cast_one, ← Nat.cast_sub hcount, zpow_natCast]
    calc (10 : ℚ) ^ (digitCount (interval.middle / interval.denominator) - 1)
        ≤ (interval.middle / interval.denominator : Nat) := by
          exact_mod_cast pow_le_of_pos hwhole
      _ ≤ interval.center := Nat.cast_div_le
  · rw [if_neg hlarge, zpow_neg, zpow_natCast, center, inv_le_comm₀ (by positivity) (by positivity),
      inv_div, div_le_iff₀ hnum]
    have hless := lt_pow_digitCount ((interval.denominator - 1) / interval.middle)
    have hstep := Nat.lt_mul_of_div_lt hless hmiddle
    have hle : interval.denominator ≤
        10 ^ digitCount ((interval.denominator - 1) / interval.middle) * interval.middle := by
      omega
    exact_mod_cast hle

/-- What is chosen for a number of at least `1e-4` is no less than that: on a finer
grid this is a multiple of the step, and on a coarser one a single step is more. -/
theorem Interval.Chooses.le_size {interval : Interval} {decimal : Decimal}
    (hchooses : interval.Chooses decimal) (hpos : 0 < interval.denominator)
    (hlow : 1 / 10 ^ 4 ≤ interval.center) : 1 / 10 ^ 4 ≤ decimal.size := by
  have hleast : (1 : ℚ) / 10 ^ 4 = 10 ^ (-4 : Int) := by norm_num
  rw [hleast] at hlow ⊢
  rw [Decimal.size]
  by_cases hcoarse : -4 ≤ decimal.exponent
  · calc (10 : ℚ) ^ (-4 : Int)
        ≤ 10 ^ decimal.exponent := zpow_le_zpow_right₀ (by norm_num) hcoarse
      _ ≤ decimal.digits * 10 ^ decimal.exponent := by
        have hone : (1 : ℚ) ≤ decimal.digits := by exact_mod_cast hchooses.pos
        exact le_mul_of_one_le_left (ten_zpow_pos _).le hone
  · obtain ⟨finer, hfiner⟩ := Int.le.dest (Int.le_of_lt (Int.lt_of_not_ge hcoarse))
    have hsteps : ((10 ^ finer : Nat) : ℚ) * 10 ^ decimal.exponent = 10 ^ (-4 : Int) := by
      rw [← hfiner, zpow_add₀ (by norm_num), zpow_natCast, Nat.cast_pow, Nat.cast_ofNat, mul_comm]
    have hbelow : 10 ^ finer ≤ decimal.digits := by
      apply Nat.le_trans _ hchooses.below
      rw [le_stepsBelow_iff hpos, hsteps]
      exact hlow
    calc (10 : ℚ) ^ (-4 : Int)
        = ((10 ^ finer : Nat) : ℚ) * 10 ^ decimal.exponent := hsteps.symm
      _ ≤ decimal.digits * 10 ^ decimal.exponent := by
        have hcast : ((10 ^ finer : Nat) : ℚ) ≤ decimal.digits := by exact_mod_cast hbelow
        exact mul_le_mul_of_nonneg_right hcast (ten_zpow_pos _).le

namespace Binary

theorem denominator_pos (value : Binary) : 0 < value.interval.denominator :=
  Nat.mul_pos (by decide) (Nat.pow_pos (by decide))

theorem center_interval (value : Binary) : value.interval.center = value.size := by
  have hpower := zpow_eq_div 2 value.exponent
  rw [Nat.cast_ofNat] at hpower
  rw [size, hpower, Interval.center, interval]
  have hden : ((2 ^ (-value.exponent).toNat : Nat) : ℚ) ≠ 0 := by positivity
  change ((4 * value.mantissa * 2 ^ value.exponent.toNat : Nat) : ℚ) /
    (4 * 2 ^ (-value.exponent).toNat : Nat) = _
  push_cast at hden ⊢
  field_simp

theorem top_interval (value : Binary) :
    value.interval.top = (value.mantissa + 1 / 2) * 2 ^ value.exponent := by
  have hpower := zpow_eq_div 2 value.exponent
  rw [Nat.cast_ofNat] at hpower
  rw [hpower, Interval.top, interval]
  have hden : ((2 ^ (-value.exponent).toNat : Nat) : ℚ) ≠ 0 := by positivity
  change (((4 * value.mantissa + 2) * 2 ^ value.exponent.toNat : Nat) : ℚ) /
    (4 * 2 ^ (-value.exponent).toNat : Nat) = _
  push_cast at hden ⊢
  field_simp
  ring

theorem center_le_top (value : Binary) : value.interval.center ≤ value.interval.top := by
  rw [center_interval, top_interval, size]
  have hpower : (0 : ℚ) < 2 ^ value.exponent := zpow_pos (by norm_num) _
  exact mul_le_mul_of_nonneg_right (by norm_num) hpower.le

/-- No number below `1e16` has one half of a unit up to it: small units do not
reach it, and a number with large ones is itself beyond. -/
theorem Stored.top_lt {value : Binary} (hstored : value.Stored) (hhigh : value.size < 10 ^ 16) :
    value.interval.top < 10 ^ 16 := by
  rw [top_interval]
  rw [size] at hhigh
  have hmantissa : (value.mantissa : ℚ) + 1 ≤ 2 ^ 53 := by exact_mod_cast hstored.lt
  by_cases hsmall : value.exponent ≤ 0
  · have hpower : (2 : ℚ) ^ value.exponent ≤ 1 := zpow_le_one_of_nonpos₀ (by norm_num) hsmall
    calc ((value.mantissa : ℚ) + 1 / 2) * 2 ^ value.exponent
        ≤ (value.mantissa + 1 / 2) * 1 := mul_le_mul_of_nonneg_left hpower (by positivity)
      _ < 10 ^ 16 := by linarith
  · by_cases hone : value.exponent = 1
    · rw [hone, zpow_one] at hhigh ⊢
      have heven : 2 * value.mantissa < 10 ^ 16 := by
        rw [mul_comm] at hhigh
        exact_mod_cast hhigh
      have hodd : 2 * value.mantissa + 1 < 10 ^ 16 := by omega
      have hcast : 2 * (value.mantissa : ℚ) + 1 < 10 ^ 16 := by exact_mod_cast hodd
      linarith
    · have hnormal := hstored.normal (Int.lt_of_not_ge hsmall)
      have hcast : (2 : ℚ) ^ 52 ≤ value.mantissa := by exact_mod_cast hnormal
      have hpower : (2 : ℚ) ^ (2 : Int) ≤ 2 ^ value.exponent :=
        zpow_le_zpow_right₀ (by norm_num) (by omega)
      have hproduct : (2 : ℚ) ^ 52 * 2 ^ (2 : Int) ≤ value.mantissa * 2 ^ value.exponent :=
        mul_le_mul hcast hpower (by positivity) (by positivity)
      norm_num at hproduct hhigh
      linarith

end Binary

/-- Trailing zeros that are moved into the exponent do not change the number. -/
theorem Decimal.trimUpTo_size (decimal : Decimal) (fuel : Nat) :
    (decimal.trimUpTo fuel).size = decimal.size := by
  induction fuel generalizing decimal with
  | zero => rfl
  | succ fuel ih =>
      rw [trimUpTo]
      by_cases hzero : 0 < decimal.digits ∧ decimal.digits % 10 = 0
      · rw [if_pos hzero, ih, size, size]
        have htimes : decimal.digits = decimal.digits / 10 * 10 := by omega
        rw [zpow_add₀ (by norm_num), zpow_one]
        nth_rewrite 2 [htimes]
        push_cast
        ring
      · rw [if_neg hzero]

theorem Decimal.trimUpTo_pos {decimal : Decimal} (hpos : 0 < decimal.digits) (fuel : Nat) :
    0 < (decimal.trimUpTo fuel).digits := by
  induction fuel generalizing decimal with
  | zero => exact hpos
  | succ fuel ih =>
      rw [trimUpTo]
      by_cases hzero : 0 < decimal.digits ∧ decimal.digits % 10 = 0
      · rw [if_pos hzero]
        apply ih
        dsimp only
        omega
      · rwa [if_neg hzero]

/-- A decimal between the two powers of ten is written without an exponent. -/
theorem Decimal.render_of_size {decimal : Decimal} (hpos : 0 < decimal.digits)
    (hlow : 1 / 10 ^ 4 ≤ decimal.size) (hhigh : decimal.size < 10 ^ 16) :
    decimal.render .term = decimal.positional .term := by
  have hcount : 1 ≤ digitCount decimal.digits := Nat.length_toDigits_pos
  have hpower : (0 : ℚ) < 10 ^ decimal.exponent := ten_zpow_pos _
  have habove : (10 : ℚ) ^ (-4 : Int) < 10 ^ (decimal.exponent + digitCount decimal.digits) := by
    have hdigits : (decimal.digits : ℚ) < 10 ^ digitCount decimal.digits := by
      exact_mod_cast lt_pow_digitCount decimal.digits
    calc (10 : ℚ) ^ (-4 : Int)
        = 1 / 10 ^ 4 := by norm_num
      _ ≤ decimal.digits * 10 ^ decimal.exponent := hlow
      _ < 10 ^ digitCount decimal.digits * 10 ^ decimal.exponent :=
        mul_lt_mul_of_pos_right hdigits hpower
      _ = 10 ^ (decimal.exponent + digitCount decimal.digits) := by
        rw [zpow_add₀ (by norm_num), zpow_natCast, mul_comm]
  have hbelow : (10 : ℚ) ^ (decimal.exponent + (digitCount decimal.digits - 1 : Nat)) <
      10 ^ (16 : Int) := by
    have hdigits : (10 : ℚ) ^ (digitCount decimal.digits - 1) ≤ decimal.digits := by
      exact_mod_cast pow_le_of_pos hpos
    calc (10 : ℚ) ^ (decimal.exponent + (digitCount decimal.digits - 1 : Nat))
        = 10 ^ (digitCount decimal.digits - 1) * 10 ^ decimal.exponent := by
          rw [zpow_add₀ (by norm_num), zpow_natCast, mul_comm]
      _ ≤ decimal.digits * 10 ^ decimal.exponent := mul_le_mul_of_nonneg_right hdigits hpower.le
      _ < 10 ^ (16 : Int) := by exact_mod_cast hhigh
  have hleast := (zpow_lt_zpow_iff_right₀ (by norm_num)).mp habove
  have hmost := (zpow_lt_zpow_iff_right₀ (by norm_num)).mp hbelow
  rw [render]
  apply if_pos
  constructor
  · change -4 ≤ decimal.exponent + digitCount decimal.digits - 1
    omega
  · change decimal.exponent + digitCount decimal.digits - 1 ≤ 15
    omega

/-- The decimal for a float between the two powers of ten lies there too. -/
theorem Binary.Stored.render_shortest {value : Binary} (hstored : value.Stored)
    (hlow : 1 / 10 ^ 4 ≤ value.size) (hhigh : value.size < 10 ^ 16) :
    (value.shortest .upward).render .term = (value.shortest .upward).positional .term := by
  have hpos := value.denominator_pos
  have hmiddle : 0 < value.interval.middle := by
    apply Nat.mul_pos (Nat.mul_pos (by decide) hstored.pos)
    exact Nat.pow_pos (by decide)
  have hleading := Interval.ten_zpow_leading_le hpos hmiddle
  have hfine : (10 : ℚ) ^ (value.interval.leading - (17 : Nat)) ≤ value.interval.center :=
    (zpow_le_zpow_right₀ (by norm_num) (by omega)).trans hleading
  have hchooses := Interval.chooses_shortestUpTo hpos value.center_le_top .upward hfine
  rw [← center_interval] at hlow
  have hsize := (value.interval.shortestUpTo .upward 17 value.interval.leading).trimUpTo_size 17
  apply Decimal.render_of_size
  · exact Decimal.trimUpTo_pos hchooses.pos 17
  · rw [shortest, hsize]
    exact hchooses.le_size hpos hlow
  · rw [shortest, hsize]
    exact hchooses.top.trans_lt (hstored.top_lt hhigh)

/-- One or more digits. -/
structure IsDigits (text : List Char) : Prop where
  digits : ∀ c ∈ text, c.isDigit = true
  nonempty : text ≠ []

theorem isDigits_toDigits (n : Nat) : IsDigits (Nat.toDigits 10 n) :=
  ⟨fun _ hc => isDigit_of_mem_digits hc, Nat.toDigits_ne_nil⟩

theorem isDigits_zero : IsDigits ['0'] :=
  ⟨List.all_eq_true.mp (by decide), List.cons_ne_nil _ _⟩

theorem isDigit_of_mem_zeros {count : Nat} {c : Char} (hc : c ∈ (zeros count).toList) :
    c.isDigit = true := by
  rw [zeros, String.toList_ofList] at hc
  rw [List.eq_of_mem_replicate hc]
  decide

theorem IsDigits.append {text more : List Char} (htext : IsDigits text)
    (hmore : ∀ c ∈ more, c.isDigit = true) : IsDigits (text ++ more) := by
  refine ⟨fun c hc => ?_, List.append_ne_nil_of_left_ne_nil htext.nonempty more⟩
  rcases List.mem_append.mp hc with hc | hc
  · exact htext.digits c hc
  · exact hmore c hc

theorem IsDigits.zeros_append {text : List Char} (htext : IsDigits text) (count : Nat) :
    IsDigits ((zeros count).toList ++ text) := by
  refine ⟨fun c hc => ?_, List.append_ne_nil_of_right_ne_nil _ htext.nonempty⟩
  rcases List.mem_append.mp hc with hc | hc
  · exact isDigit_of_mem_zeros hc
  · exact htext.digits c hc

theorem IsDigits.split {text : List Char} (htext : IsDigits text) {count : Nat}
    (hpos : 0 < count) (hless : count < text.length) :
    IsDigits (text.take count) ∧ IsDigits (text.drop count) := by
  constructor
  · refine ⟨fun c hc => htext.digits c (List.mem_of_mem_take hc), ?_⟩
    intro hnil
    rcases List.take_eq_nil_iff.mp hnil with hzero | hempty
    · omega
    · exact htext.nonempty hempty
  · refine ⟨fun c hc => htext.digits c (List.mem_of_mem_drop hc), ?_⟩
    intro hnil
    have hle := List.drop_eq_nil_iff.mp hnil
    omega

/-- Without an exponent there is one point, between digits. -/
theorem Decimal.positional_eq (decimal : Decimal) :
    ∃ whole places, IsDigits whole ∧ IsDigits places ∧
      (decimal.positional .term).toList = whole ++ '.' :: places := by
  have hdigits := isDigits_toDigits decimal.digits
  simp only [positional, Layout.term]
  by_cases hwhole : 0 ≤ decimal.exponent
  · refine ⟨Nat.toDigits 10 decimal.digits ++ (zeros decimal.exponent.toNat).toList, ['0'],
      hdigits.append fun c hc => isDigit_of_mem_zeros hc, isDigits_zero, ?_⟩
    simp [if_pos hwhole]
  · rw [if_neg hwhole]
    by_cases hinside : (-decimal.exponent).toNat < (Nat.toDigits 10 decimal.digits).length
    · rw [if_pos hinside]
      have hcut : 0 < (Nat.toDigits 10 decimal.digits).length - (-decimal.exponent).toNat :=
        Nat.sub_pos_of_lt hinside
      obtain ⟨hbefore, hafter⟩ := hdigits.split hcut (by omega)
      refine ⟨_, _, hbefore, hafter, ?_⟩
      simp
    · rw [if_neg hinside]
      have hplaces := hdigits.zeros_append
        ((-decimal.exponent).toNat - (Nat.toDigits 10 decimal.digits).length)
      refine ⟨_, _, isDigits_zero, hplaces, ?_⟩
      simp

/-- The sign of a number as it is printed. -/
def signText (value : Float) : List Char :=
  if isNegative value then ['-'] else []

theorem numberText_of_isPlain {value : Float} (hvalue : IsPlain value) :
    ∃ whole places, IsDigits whole ∧ IsDigits places ∧
      (numberText value).toList = signText value ++ (whole ++ '.' :: places) := by
  have hsign : ∀ text : String, ((if isNegative value then "-" else "") ++ text).toList =
      signText value ++ text.toList := by
    intro text
    rw [String.toList_append, signText]
    congr 1
    exact apply_ite String.toList _ _ _
  rw [IsPlain] at hvalue
  rw [numberText, Layout.write]
  cases hsize : magnitude value with
  | zero => exact ⟨['0'], ['0'], isDigits_zero, isDigits_zero, hsign "0.0"⟩
  | finite size =>
      rw [hsize] at hvalue
      obtain ⟨hlow, hhigh⟩ := hvalue
      have hrender := (stored_of_magnitude hsize).render_shortest hlow hhigh
      obtain ⟨whole, places, hwhole, hplaces, htext⟩ :=
        (size.shortest .upward).positional_eq
      refine ⟨whole, places, hwhole, hplaces, ?_⟩
      rw [← htext, ← hrender]
      exact hsign _
  | infinite => simp [hsize] at hvalue
  | notANumber => simp [hsize] at hvalue

end Horn
