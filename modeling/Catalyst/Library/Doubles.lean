import Mathlib

/-!
# Numbers with fifty-three binary digits

An operation on binary floating-point numbers gives the exact result rounded to the nearest
number of fifty-three digits, the even one of two. Rounding keeps the order, and it keeps
every integer up to 2^53. The exponent has no bound here: there is no overflow, and the
smallest numbers are not rounded to a fixed grid.
-/

namespace Catalyst.Library.Doubles

variable {x y : ℚ} {n m : ℤ}

def roundHalfEven (x : ℚ) : ℤ :=
  if x - ⌊x⌋ < 1 / 2 then ⌊x⌋
  else if 1 / 2 < x - ⌊x⌋ then ⌊x⌋ + 1
  else if ⌊x⌋ % 2 = 0 then ⌊x⌋ else ⌊x⌋ + 1

@[simp] theorem roundHalfEven_intCast (n : ℤ) : roundHalfEven n = n := by
  simp [roundHalfEven]

theorem roundHalfEven_mono : Monotone roundHalfEven := by
  intro x y h
  have hf : ⌊x⌋ ≤ ⌊y⌋ := Int.floor_mono h
  rcases hf.lt_or_eq with hlt | heq
  · unfold roundHalfEven
    split_ifs <;> omega
  · unfold roundHalfEven
    rw [← heq]
    split_ifs <;> first | omega | linarith

theorem roundHalfEven_le (h : x ≤ n) : roundHalfEven x ≤ n := by
  simpa using roundHalfEven_mono h

theorem le_roundHalfEven (h : n ≤ x) : n ≤ roundHalfEven x := by
  simpa using roundHalfEven_mono h

theorem roundHalfEven_neg (x : ℚ) : roundHalfEven (-x) = -roundHalfEven x := by
  rcases eq_or_ne (⌊x⌋ : ℚ) x with hx | hx
  · rw [← hx, roundHalfEven_intCast, ← Int.cast_neg, roundHalfEven_intCast]
  · have hlt : (⌊x⌋ : ℚ) < x := lt_of_le_of_ne (Int.floor_le x) hx
    have hfloor : ⌊-x⌋ = -⌊x⌋ - 1 := by
      rw [Int.floor_eq_iff]
      have := Int.lt_floor_add_one x
      constructor <;> push_cast <;> linarith
    unfold roundHalfEven
    rw [hfloor]
    push_cast
    split_ifs <;> first | omega | linarith

def unitOf (x : ℚ) : ℚ := 2 ^ (Int.log 2 |x| - 52)

def ofRat (x : ℚ) : ℚ := roundHalfEven (x / unitOf x) * unitOf x

theorem unitOf_pos (x : ℚ) : 0 < unitOf x := zpow_pos (by norm_num) _

@[simp] theorem unitOf_neg (x : ℚ) : unitOf (-x) = unitOf x := by
  rw [unitOf, abs_neg, unitOf]

@[simp] theorem ofRat_zero : ofRat 0 = 0 := by
  have h : roundHalfEven 0 = 0 := roundHalfEven_intCast 0
  simp [ofRat, h]

theorem ofRat_neg (x : ℚ) : ofRat (-x) = -ofRat x := by
  rw [ofRat, unitOf_neg, neg_div, roundHalfEven_neg, ofRat]
  push_cast
  ring

theorem pow_log_le (hx : 0 < x) : (2 : ℚ) ^ Int.log 2 |x| ≤ x := by
  have h : ((2 : ℕ) : ℚ) ^ Int.log 2 x ≤ x := Int.zpow_log_le_self (by norm_num) hx
  rw [abs_of_pos hx]
  simpa using h

theorem lt_pow_log (hx : 0 < x) : x < (2 : ℚ) ^ (Int.log 2 |x| + 1) := by
  have h : x < ((2 : ℕ) : ℚ) ^ (Int.log 2 x + 1) := Int.lt_zpow_succ_log_self (by norm_num) x
  rw [abs_of_pos hx]
  simpa using h

theorem pow_mul_unitOf (x : ℚ) : (2 ^ 52 : ℤ) * unitOf x = 2 ^ Int.log 2 |x| := by
  rw [unitOf, zpow_sub₀ (by norm_num)]
  norm_num
  field_simp

theorem pow_log_le_ofRat (hx : 0 < x) : (2 : ℚ) ^ Int.log 2 |x| ≤ ofRat x := by
  have hu := unitOf_pos x
  have h : (2 ^ 52 : ℤ) ≤ roundHalfEven (x / unitOf x) := by
    refine le_roundHalfEven ?_
    rw [le_div_iff₀ hu, pow_mul_unitOf]
    exact pow_log_le hx
  rw [← pow_mul_unitOf, ofRat]
  exact mul_le_mul_of_nonneg_right (by exact_mod_cast h) hu.le

theorem ofRat_le_pow_log (hx : 0 < x) : ofRat x ≤ (2 : ℚ) ^ (Int.log 2 |x| + 1) := by
  have hu := unitOf_pos x
  have hp : ((2 ^ 53 : ℤ) : ℚ) * unitOf x = 2 ^ (Int.log 2 |x| + 1) := by
    rw [zpow_add_one₀ (by norm_num), ← pow_mul_unitOf]
    push_cast
    ring
  have h : roundHalfEven (x / unitOf x) ≤ (2 ^ 53 : ℤ) := by
    refine roundHalfEven_le ?_
    rw [div_le_iff₀ hu, hp]
    exact (lt_pow_log hx).le
  rw [← hp, ofRat]
  exact mul_le_mul_of_nonneg_right (by exact_mod_cast h) hu.le

theorem ofRat_pos (hx : 0 < x) : 0 < ofRat x :=
  lt_of_lt_of_le (zpow_pos (by norm_num) _) (pow_log_le_ofRat hx)

theorem ofRat_le_of_pos (hx : 0 < x) (h : x ≤ y) : ofRat x ≤ ofRat y := by
  have hy : 0 < y := lt_of_lt_of_le hx h
  have hlog : Int.log 2 |x| ≤ Int.log 2 |y| := by
    rw [abs_of_pos hx, abs_of_pos hy]
    exact Int.log_mono_right hx h
  rcases hlog.lt_or_eq with hlt | heq
  · calc ofRat x ≤ 2 ^ (Int.log 2 |x| + 1) := ofRat_le_pow_log hx
      _ ≤ 2 ^ Int.log 2 |y| := zpow_le_zpow_right₀ (by norm_num) (by omega)
      _ ≤ ofRat y := pow_log_le_ofRat hy
  · have hu : unitOf x = unitOf y := by rw [unitOf, heq, unitOf]
    rw [ofRat, ofRat, hu]
    have hr := roundHalfEven_mono (div_le_div_of_nonneg_right h (unitOf_pos y).le)
    exact mul_le_mul_of_nonneg_right (by exact_mod_cast hr) (unitOf_pos y).le

theorem ofRat_mono : Monotone ofRat := by
  intro x y h
  rcases lt_trichotomy x 0 with hx | rfl | hx
  · rcases lt_trichotomy y 0 with hy | rfl | hy
    · have := ofRat_le_of_pos (neg_pos.mpr hy) (neg_le_neg h)
      rw [ofRat_neg, ofRat_neg] at this
      exact neg_le_neg_iff.mp this
    · have := ofRat_pos (neg_pos.mpr hx)
      rw [ofRat_neg] at this
      rw [ofRat_zero]
      linarith
    · have := ofRat_pos (neg_pos.mpr hx)
      rw [ofRat_neg] at this
      linarith [ofRat_pos hy]
  · rcases h.lt_or_eq with hy | rfl
    · rw [ofRat_zero]
      exact (ofRat_pos hy).le
    · exact le_rfl
  · exact ofRat_le_of_pos hx h

theorem ofRat_of_units (h : x = n * unitOf x) : ofRat x = x := by
  have hn : x / unitOf x = n := by rw [div_eq_iff (unitOf_pos x).ne', ← h]
  rw [ofRat, hn, roundHalfEven_intCast, ← h]

theorem ofRat_of_pos_int (hn : 0 < n) (hb : n ≤ 2 ^ 53) : ofRat n = n := by
  have hx : (0 : ℚ) < n := by exact_mod_cast hn
  rcases hb.lt_or_eq with hb | rfl
  · have hlog : Int.log 2 |(n : ℚ)| ≤ 52 := by
      have h := lt_of_le_of_lt (pow_log_le hx) (show (n : ℚ) < 2 ^ (53 : ℤ) by exact_mod_cast hb)
      have := (zpow_lt_zpow_iff_right₀ (by norm_num : (1 : ℚ) < 2)).mp h
      omega
    obtain ⟨k, hk⟩ : ∃ k : ℕ, 52 - Int.log 2 |(n : ℚ)| = k := ⟨_, (Int.toNat_of_nonneg (by omega)).symm⟩
    have hu : unitOf (n : ℚ) = ((2 : ℚ) ^ k)⁻¹ := by
      rw [unitOf, ← neg_sub, hk, zpow_neg, zpow_natCast]
    refine ofRat_of_units (n := n * 2 ^ k) ?_
    rw [hu]
    push_cast
    field_simp
  · have hlog : Int.log 2 |((2 ^ 53 : ℤ) : ℚ)| = 53 := by
      have h : ((2 ^ 53 : ℤ) : ℚ) = ((2 : ℕ) : ℚ) ^ (53 : ℤ) := by norm_num
      rw [abs_of_pos hx, h, Int.log_zpow (by norm_num)]
    refine ofRat_of_units (n := 2 ^ 52) ?_
    rw [unitOf, hlog]
    norm_num

theorem ofRat_intCast (hb : |n| ≤ 2 ^ 53) : ofRat n = n := by
  rcases lt_trichotomy n 0 with hn | rfl | hn
  · have h := ofRat_of_pos_int (n := -n) (by omega) (by rw [abs_of_neg hn] at hb; exact hb)
    push_cast at h
    rw [ofRat_neg] at h
    linarith
  · exact ofRat_zero
  · exact ofRat_of_pos_int hn (by rw [abs_of_pos hn] at hb; exact hb)

/-- `Number.isSafeInteger` -/
def IsSafe (n : ℤ) : Prop := |n| < 2 ^ 53
  deriving Decidable

theorem IsSafe.kept (h : IsSafe n) : ofRat n = n := ofRat_intCast (le_of_lt h)

theorem lt_ofRat_iff (hm : IsSafe m) : (m : ℚ) < ofRat n ↔ m < n := by
  constructor
  · intro h
    by_contra hle
    have := ofRat_mono (show (n : ℚ) ≤ m by exact_mod_cast not_lt.mp hle)
    rw [hm.kept] at this
    linarith
  · intro h
    have hs : ofRat (m + 1 : ℤ) = (m + 1 : ℤ) := by
      refine ofRat_intCast ((abs_add_le m 1).trans ?_)
      have hm : |m| < 2 ^ 53 := hm
      rw [abs_one]
      omega
    have := ofRat_mono (show ((m + 1 : ℤ) : ℚ) ≤ n by exact_mod_cast h)
    rw [hs] at this
    push_cast at this
    linarith

end Catalyst.Library.Doubles
