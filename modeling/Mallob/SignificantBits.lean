import Mathlib

namespace Mallob.SignificantBits

def nearestEven (x : ℚ) : ℤ :=
  if x - ⌊x⌋ < 1 / 2 then ⌊x⌋
  else if 1 / 2 < x - ⌊x⌋ then ⌊x⌋ + 1
  else if ⌊x⌋ % 2 = 0 then ⌊x⌋ else ⌊x⌋ + 1

def ulp (p : Nat) (x : ℚ) : ℚ := 2 ^ (Int.log 2 x - (p - 1 : ℤ))

/-- Rounding to p significant bits, with no bound on the exponent. -/
def roundBits (p : Nat) (x : ℚ) : ℚ := nearestEven (x / ulp p x) * ulp p x

theorem le_nearestEven {m : ℤ} {x : ℚ} (h : (m : ℚ) ≤ x) : m ≤ nearestEven x := by
  have hfloor : m ≤ ⌊x⌋ := Int.le_floor.mpr h
  unfold nearestEven
  split_ifs <;> omega

theorem nearestEven_le {m : ℤ} {x : ℚ} (h : x ≤ m) : nearestEven x ≤ m := by
  rcases h.lt_or_eq with hlt | rfl
  · have hfloor : ⌊x⌋ < m := Int.floor_lt.mpr hlt
    unfold nearestEven
    split_ifs <;> omega
  · simp [nearestEven]

theorem nearestEven_le_even {m : ℤ} (hm : m % 2 = 0) {x : ℚ} : nearestEven x ≤ m ↔ x ≤ m + 1 / 2 := by
  have hle := Int.floor_le x
  have hlt := Int.lt_floor_add_one x
  rcases lt_trichotomy ⌊x⌋ m with hfloor | hfloor | hfloor
  · have hcast : (⌊x⌋ : ℚ) + 1 ≤ m := by exact_mod_cast hfloor
    refine ⟨fun _ => by linarith, fun _ => ?_⟩
    unfold nearestEven
    split_ifs <;> omega
  · rw [hfloor] at hle hlt
    unfold nearestEven
    rw [hfloor]
    split_ifs with hless hmore
    · exact ⟨fun _ => by linarith, fun _ => le_refl m⟩
    · exact ⟨fun h => by omega, fun h => by linarith⟩
    · exact ⟨fun _ => by linarith, fun _ => le_refl m⟩
  · have hcast : (m : ℚ) + 1 ≤ ⌊x⌋ := by exact_mod_cast hfloor
    refine ⟨fun h => ?_, fun h => by linarith⟩
    unfold nearestEven at h
    split_ifs at h <;> omega

theorem ulp_pos (p : Nat) (x : ℚ) : 0 < ulp p x := zpow_pos two_pos _

theorem two_zpow_eq_mul_ulp (p : Nat) (x : ℚ) : (2 : ℚ) ^ Int.log 2 x = 2 ^ (p - 1 : ℤ) * ulp p x := by
  rw [ulp, ← zpow_add₀ two_ne_zero]
  congr 1
  ring

section Bounds

variable {p k : Nat} {x : ℚ}

theorem two_zpow_log_le_roundBits (hp : 0 < p) (hx : 0 < x) : (2 : ℚ) ^ Int.log 2 x ≤ roundBits p x := by
  have hlog : (2 : ℚ) ^ Int.log 2 x ≤ x := by exact_mod_cast Int.zpow_log_le_self one_lt_two hx
  have hcast : ((2 ^ (p - 1) : ℤ) : ℚ) = 2 ^ (p - 1 : ℤ) := by
    rw [show (p - 1 : ℤ) = ((p - 1 : Nat) : ℤ) by omega, zpow_natCast]
    push_cast
    rfl
  rw [two_zpow_eq_mul_ulp p, ← hcast] at hlog ⊢
  rw [roundBits]
  refine mul_le_mul_of_nonneg_right ?_ (ulp_pos p x).le
  exact_mod_cast le_nearestEven ((le_div_iff₀ (ulp_pos p x)).mpr hlog)

theorem roundBits_le_two_zpow_log (p : Nat) (x : ℚ) : roundBits p x ≤ (2 : ℚ) ^ (Int.log 2 x + 1) := by
  have hlog : x < (2 : ℚ) ^ (Int.log 2 x + 1) := by exact_mod_cast Int.lt_zpow_succ_log_self one_lt_two x
  rw [zpow_add_one₀ two_ne_zero, two_zpow_eq_mul_ulp p, mul_right_comm, ← zpow_add_one₀ two_ne_zero, sub_add_cancel,
    zpow_natCast] at hlog ⊢
  have hcast : (((2 : ℤ) ^ p : ℤ) : ℚ) = 2 ^ p := by push_cast; rfl
  rw [← hcast] at hlog ⊢
  rw [roundBits]
  refine mul_le_mul_of_nonneg_right ?_ (ulp_pos p x).le
  exact_mod_cast nearestEven_le ((div_le_iff₀ (ulp_pos p x)).mpr hlog.le)

/-- A rounding stays at or below a number of fewer bits up to the middle
between that number and the next. -/
theorem roundBits_le_iff (hk : 0 < k) (hbits : Nat.log 2 k + 1 < p) (hx : 0 < x) :
    roundBits p x ≤ k ↔ x ≤ k + 2 ^ Nat.log 2 k / 2 ^ p := by
  have hlow : ((2 ^ Nat.log 2 k : ℕ) : ℚ) ≤ k := by exact_mod_cast Nat.pow_log_le_self 2 hk.ne'
  have hhigh : (k : ℚ) + 1 ≤ ((2 ^ (Nat.log 2 k + 1) : ℕ) : ℚ) := by
    exact_mod_cast Nat.lt_pow_succ_log_self one_lt_two k
  push_cast at hlow hhigh
  have hgap : (2 : ℚ) ^ Nat.log 2 k / 2 ^ p < 1 := by
    rw [div_lt_one (by positivity)]
    exact pow_lt_pow_right₀ one_lt_two (by omega)
  have hgap0 : (0 : ℚ) ≤ 2 ^ Nat.log 2 k / 2 ^ p := by positivity
  have hlogle : (2 : ℚ) ^ Int.log 2 x ≤ x := by exact_mod_cast Int.zpow_log_le_self one_lt_two hx
  have hloglt : x < (2 : ℚ) ^ (Int.log 2 x + 1) := by exact_mod_cast Int.lt_zpow_succ_log_self one_lt_two x
  rcases lt_trichotomy (Int.log 2 x) (Nat.log 2 k : ℤ) with hlog | hlog | hlog
  · have hpow : (2 : ℚ) ^ (Int.log 2 x + 1) ≤ 2 ^ Nat.log 2 k := by
      rw [← zpow_natCast]
      exact zpow_le_zpow_right₀ one_le_two (by omega)
    have hround := roundBits_le_two_zpow_log p x
    exact ⟨fun _ => by linarith, fun _ => by linarith⟩
  · obtain ⟨d, hd⟩ : ∃ d : Nat, p = Nat.log 2 k + 1 + (d + 1) := ⟨p - Nat.log 2 k - 2, by omega⟩
    have hulp : ulp p x * 2 ^ (d + 1) = 1 := by
      rw [ulp, hlog, hd, ← zpow_natCast, ← zpow_add₀ two_ne_zero]
      push_cast
      rw [show (Nat.log 2 k : ℤ) - (Nat.log 2 k + 1 + (d + 1) - 1) + (d + 1) = 0 by ring, zpow_zero]
    have hhalf : (2 : ℚ) ^ Nat.log 2 k / 2 ^ p = 1 / 2 * ulp p x := by
      have hsplit : (2 : ℚ) ^ p = 2 ^ Nat.log 2 k * 2 * 2 ^ (d + 1) := by rw [hd, pow_add, pow_succ 2 (Nat.log 2 k)]
      rw [hsplit, div_eq_iff (by positivity)]
      linear_combination -(2 : ℚ) ^ Nat.log 2 k * hulp
    have hwhole : (k : ℚ) = ((k * 2 ^ (d + 1) : ℤ) : ℚ) * ulp p x := by
      push_cast
      rw [mul_assoc, mul_comm ((2 : ℚ) ^ (d + 1)), hulp, mul_one]
    have heven : (k * 2 ^ (d + 1) : ℤ) % 2 = 0 := by
      rw [pow_succ, ← mul_assoc]
      exact Int.mul_emod_left _ _
    rw [hhalf, roundBits]
    nth_rewrite 1 [hwhole]
    rw [mul_le_mul_iff_left₀ (ulp_pos p x), Int.cast_le, nearestEven_le_even heven,
      div_le_iff₀ (ulp_pos p x), add_mul, ← hwhole]
  · have hpow : (2 : ℚ) ^ (Nat.log 2 k + 1) ≤ (2 : ℚ) ^ Int.log 2 x := by
      rw [← zpow_natCast]
      exact zpow_le_zpow_right₀ one_le_two (by push_cast; omega)
    have hround := two_zpow_log_le_roundBits (p := p) (by omega) hx
    exact ⟨fun _ => by linarith, fun _ => by linarith⟩

theorem roundBits_pos (hp : 0 < p) (hx : 0 < x) : 0 < roundBits p x :=
  (zpow_pos two_pos _).trans_le (two_zpow_log_le_roundBits hp hx)

end Bounds

end Mallob.SignificantBits
