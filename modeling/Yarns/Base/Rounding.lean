import Mathlib.Algebra.Order.Floor.Ring
import Mathlib.Algebra.Ring.Int.Parity
import Mathlib.Data.Int.Log
import Mathlib.Tactic.Linarith
import Mathlib.Tactic.Ring

/-!
# Rounding to a number of binary digits

Floating-point rounding without bounds on the exponent, in any ordered field with a floor:
`roundTo prec x` is the multiple of `spacing prec x` nearest to `x`, the even one of two,
where `x` has `prec` digits before that spacing.

* A number with at most `prec` digits is rounded to itself (`roundTo_of_digits`), and what
  `roundTo` returns is such a number (`digits_roundTo`).
* Something is added to such a number `y` (`roundTo_add_eq`, `le_roundTo_add`): at most half
  a spacing is lost, anything more brings the sum up by at least one spacing.
* Rounding down loses less than one spacing (`lt_roundTo_add_spacing`).
-/

namespace Yarns.Base

variable {K : Type*} [Field K] [LinearOrder K] [IsStrictOrderedRing K] [FloorRing K]

/-- The nearest integer, the even one of two. -/
def roundHalfEven (q : K) : ℤ :=
  if q - ⌊q⌋ < 1 / 2 then ⌊q⌋
  else if 1 / 2 < q - ⌊q⌋ then ⌊q⌋ + 1
  else if Even ⌊q⌋ then ⌊q⌋ else ⌊q⌋ + 1

/-- The distance of neighbouring numbers of `prec` digits, where `x` lies. -/
def spacing (prec : ℕ) (x : K) : K := 2 ^ (Int.log 2 x + 1 - prec)

def roundTo (prec : ℕ) (x : K) : K := roundHalfEven (x / spacing prec x) * spacing prec x

/-- `x` has at most `prec` digits: it is `m` spacings. -/
def Digits (prec : ℕ) (x : K) (m : ℤ) : Prop := x = m * spacing prec x

section

variable {q d x y : K} {m n : ℤ} {prec : ℕ}

/-! ## Nearest integers -/

omit [IsStrictOrderedRing K] in
theorem floor_le_roundHalfEven (q : K) : ⌊q⌋ ≤ roundHalfEven q := by
  unfold roundHalfEven
  split_ifs <;> omega

omit [IsStrictOrderedRing K] in
theorem roundHalfEven_le (q : K) : roundHalfEven q ≤ ⌊q⌋ + 1 := by
  unfold roundHalfEven
  split_ifs <;> omega

omit [IsStrictOrderedRing K] in
theorem le_roundHalfEven (h : (m : K) ≤ q) : m ≤ roundHalfEven q :=
  (Int.le_floor.mpr h).trans (floor_le_roundHalfEven q)

theorem lt_roundHalfEven_add_one (q : K) : q < roundHalfEven q + 1 := by
  have hfloor : (⌊q⌋ : K) ≤ roundHalfEven q := by
    exact_mod_cast floor_le_roundHalfEven q
  have hlt := Int.lt_floor_add_one q
  linarith

omit [IsStrictOrderedRing K] in
theorem roundHalfEven_le_of_lt (h : q < m) : roundHalfEven q ≤ m := by
  have hlt : ⌊q⌋ < m := Int.floor_lt.mpr h
  have hle := roundHalfEven_le q
  omega

theorem le_roundHalfEven_add_half (q : K) : q ≤ roundHalfEven q + 1 / 2 := by
  have hlt := Int.lt_floor_add_one q
  unfold roundHalfEven
  split_ifs with hlow hhigh heven
  · linarith
  · push_cast
    linarith
  · linarith
  · push_cast
    linarith

/-- Less than a half above an integer, or a half above an even one. -/
theorem roundHalfEven_add_eq (h0 : 0 ≤ d) (h : d < 1 / 2 ∨ d = 1 / 2 ∧ Even m) :
    roundHalfEven ((m : K) + d) = m := by
  have hlt : d < 1 := by
    rcases h with h | ⟨h, -⟩
    · linarith
    · linarith
  have hfloor : ⌊(m : K) + d⌋ = m := by
    rw [Int.floor_eq_iff]
    exact ⟨by linarith, by linarith⟩
  have hfract : (m : K) + d - m = d := by ring
  unfold roundHalfEven
  rw [hfloor, hfract]
  rcases h with h | ⟨h, heven⟩
  · rw [if_pos h]
  · rw [if_neg (not_lt.mpr h.ge), if_neg (not_lt.mpr h.le), if_pos heven]

theorem lt_roundHalfEven_add (h : 1 / 2 < d ∨ d = 1 / 2 ∧ ¬ Even m) :
    m < roundHalfEven ((m : K) + d) := by
  have h0 : 0 ≤ d := by
    rcases h with h | ⟨h, -⟩
    · linarith
    · linarith
  by_cases hlt : d < 1
  · have hfloor : ⌊(m : K) + d⌋ = m := by
      rw [Int.floor_eq_iff]
      exact ⟨by linarith, by linarith⟩
    have hfract : (m : K) + d - m = d := by ring
    unfold roundHalfEven
    rw [hfloor, hfract]
    rcases h with h | ⟨h, hodd⟩
    · rw [if_neg (not_lt.mpr h.le), if_pos h]
      omega
    · rw [if_neg (not_lt.mpr h.ge), if_neg (not_lt.mpr h.le), if_neg hodd]
      omega
  · have hle : ((m + 1 : ℤ) : K) ≤ (m : K) + d := by
      push_cast
      linarith
    exact Int.lt_of_add_one_le (le_roundHalfEven hle)

/-! ## The digits of a number -/

theorem spacing_pos (prec : ℕ) (x : K) : 0 < spacing prec x := zpow_pos (by norm_num) _

omit [IsStrictOrderedRing K] in
theorem spacing_of_log_eq (h : Int.log 2 x = Int.log 2 y) :
    spacing prec x = spacing prec y := by
  rw [spacing, spacing, h]

omit [IsStrictOrderedRing K] in
/-- The first digit: `2 ^ log x` spacings. -/
theorem zpow_log_eq (prec : ℕ) (hprec : 0 < prec) (x : K) :
    (2 : K) ^ Int.log 2 x = ((2 ^ (prec - 1) : ℤ) : K) * spacing prec x := by
  have hp : ((prec - 1 : ℕ) : ℤ) = (prec : ℤ) - 1 := by omega
  rw [spacing, Int.cast_pow, Int.cast_ofNat, ← zpow_natCast, hp, ← zpow_add₀ (by norm_num)]
  congr 1
  ring

omit [IsStrictOrderedRing K] in
theorem zpow_log_succ_eq (prec : ℕ) (x : K) :
    (2 : K) ^ (Int.log 2 x + 1) = ((2 ^ prec : ℤ) : K) * spacing prec x := by
  rw [spacing, Int.cast_pow, Int.cast_ofNat, ← zpow_natCast, ← zpow_add₀ (by norm_num)]
  congr 1
  ring

theorem zpow_log_le (hx : 0 < x) : (2 : K) ^ Int.log 2 x ≤ x := by
  have h := Int.zpow_log_le_self (b := 2) (by norm_num) hx
  exact_mod_cast h

theorem lt_zpow_log_succ (x : K) : x < (2 : K) ^ (Int.log 2 x + 1) := by
  have h := Int.lt_zpow_succ_log_self (b := 2) (by norm_num) x
  exact_mod_cast h

theorem Digits.div (h : Digits prec x m) : x / spacing prec x = m :=
  (div_eq_iff (spacing_pos prec x).ne').mpr h

/-- A number with so many digits is exact. -/
theorem roundTo_of_digits (h : Digits prec x m) : roundTo prec x = x := by
  have hround : roundHalfEven (m : K) = m := by
    have hadd := roundHalfEven_add_eq (K := K) (m := m) (le_refl 0) (Or.inl (by norm_num))
    rwa [add_zero] at hadd
  rw [roundTo, h.div, hround]
  exact h.symm

theorem roundTo_zero (prec : ℕ) : roundTo prec (0 : K) = 0 :=
  roundTo_of_digits (m := 0) (by rw [Digits, Int.cast_zero, zero_mul])

/-- Natural numbers below `2 ^ prec` are exact. -/
theorem roundTo_of_lt {n : ℕ} (hn : n < 2 ^ prec) : roundTo prec (n : K) = n := by
  rcases Nat.eq_zero_or_pos n with rfl | hpos
  · rw [Nat.cast_zero, roundTo_zero]
  · have hlog : Nat.log 2 n + 1 ≤ prec := Nat.log_lt_of_lt_pow hpos.ne' hn
    obtain ⟨k, rfl⟩ := Nat.exists_eq_add_of_le hlog
    apply roundTo_of_digits (m := n * 2 ^ k)
    have hexp : (Nat.log 2 n : ℤ) + 1 - (Nat.log 2 n + 1 + k : ℕ) = -(k : ℤ) := by
      push_cast
      ring
    rw [Digits, spacing, Int.log_natCast, hexp, zpow_neg, zpow_natCast]
    push_cast
    rw [mul_assoc, mul_inv_cancel₀ (pow_ne_zero k two_ne_zero), mul_one]

/-- Rounding does not go below the first digit. -/
theorem zpow_log_le_roundTo (hprec : 0 < prec) (hx : 0 < x) :
    (2 : K) ^ Int.log 2 x ≤ roundTo prec x := by
  have hpos := spacing_pos prec x
  have hle : (2 ^ (prec - 1) : ℤ) ≤ roundHalfEven (x / spacing prec x) := by
    apply le_roundHalfEven
    rw [le_div_iff₀ hpos, ← zpow_log_eq prec hprec]
    exact zpow_log_le hx
  rw [zpow_log_eq prec hprec, roundTo]
  exact mul_le_mul_of_nonneg_right (by exact_mod_cast hle) hpos.le

theorem roundTo_nonneg (hprec : 0 < prec) (hx : 0 ≤ x) : 0 ≤ roundTo prec x := by
  rcases hx.eq_or_lt with rfl | hpos
  · rw [roundTo_zero]
  · exact (zpow_pos (by norm_num) _).le.trans (zpow_log_le_roundTo hprec hpos)

/-- Between its first digit and the next power of two a number keeps its spacing. -/
theorem log_eq_of_bounds {e : ℤ} (hlow : (2 : K) ^ e ≤ x) (hhigh : x < (2 : K) ^ (e + 1)) :
    Int.log 2 x = e := by
  have hpos : 0 < x := lt_of_lt_of_le (zpow_pos (by norm_num) e) hlow
  have hle : e ≤ Int.log 2 x :=
    (Int.zpow_le_iff_le_log (by norm_num) hpos).mp (by exact_mod_cast hlow)
  have hlt : Int.log 2 x < e + 1 :=
    (Int.lt_zpow_iff_log_lt (by norm_num) hpos).mp (by exact_mod_cast hhigh)
  omega

/-- What is rounded has so many digits, after a carry one fewer. -/
theorem digits_roundTo (hprec : 0 < prec) (hx : 0 < x) : ∃ m, Digits prec (roundTo prec x) m := by
  have hlow := zpow_log_le_roundTo hprec hx
  by_cases hcarry : roundTo prec x < (2 : K) ^ (Int.log 2 x + 1)
  · refine ⟨roundHalfEven (x / spacing prec x), ?_⟩
    rw [Digits, spacing_of_log_eq (log_eq_of_bounds hlow hcarry)]
    rfl
  · -- the rounded number is the next power of two
    have hle : roundTo prec x ≤ (2 : K) ^ (Int.log 2 x + 1) := by
      rw [zpow_log_succ_eq prec, roundTo]
      have hround : roundHalfEven (x / spacing prec x) ≤ 2 ^ prec := by
        apply roundHalfEven_le_of_lt
        rw [div_lt_iff₀ (spacing_pos prec x), ← zpow_log_succ_eq]
        exact lt_zpow_log_succ x
      exact mul_le_mul_of_nonneg_right (by exact_mod_cast hround) (spacing_pos prec x).le
    have heq : roundTo prec x = (2 : K) ^ (Int.log 2 x + 1) := le_antisymm hle (not_lt.mp hcarry)
    refine ⟨2 ^ (prec - 1), ?_⟩
    have hlog : Int.log 2 (roundTo prec x) = Int.log 2 x + 1 := by
      rw [heq]
      exact_mod_cast Int.log_zpow (R := K) (b := 2) (by norm_num) (Int.log 2 x + 1)
    rw [Digits, ← zpow_log_eq prec hprec, hlog, heq]

/-! ## Something is added -/

/-- The last number before the next power of two. -/
theorem Digits.add_spacing_le (h : Digits prec y m) :
    y + spacing prec y ≤ (2 : K) ^ (Int.log 2 y + 1) := by
  have hpos := spacing_pos prec y
  have hlt : (m : K) * spacing prec y < ((2 ^ prec : ℤ) : K) * spacing prec y := by
    rw [← h, ← zpow_log_succ_eq]
    exact lt_zpow_log_succ y
  have hm : m < 2 ^ prec := by exact_mod_cast lt_of_mul_lt_mul_right hlt hpos.le
  have hle : ((m + 1 : ℤ) : K) * spacing prec y ≤ ((2 ^ prec : ℤ) : K) * spacing prec y :=
    mul_le_mul_of_nonneg_right (by exact_mod_cast hm) hpos.le
  rw [← zpow_log_succ_eq] at hle
  push_cast at hle
  rw [add_mul, one_mul, ← h] at hle
  exact hle

theorem Digits.shift_div (h : Digits prec y m) (d : K) :
    (y + d) / spacing prec y = m + d / spacing prec y := by
  rw [add_div, h.div]

/-- At most half a spacing is lost. -/
theorem roundTo_add_eq (h : Digits prec y m) (hy : 0 < y) (hd : 0 ≤ d)
    (hhalf : d < spacing prec y / 2 ∨ d = spacing prec y / 2 ∧ Even m) :
    roundTo prec (y + d) = y := by
  have hpos := spacing_pos prec y
  have hlt : d < spacing prec y := by
    rcases hhalf with hlt | ⟨heq, -⟩
    · linarith
    · linarith
  have hlog : Int.log 2 (y + d) = Int.log 2 y := by
    apply log_eq_of_bounds
    · have hle := zpow_log_le hy
      linarith
    · have hle := h.add_spacing_le
      linarith
  have hround : roundHalfEven ((m : K) + d / spacing prec y) = m := by
    apply roundHalfEven_add_eq (div_nonneg hd hpos.le)
    refine hhalf.imp (fun hlt => ?_) (And.imp_left fun heq => ?_)
    · rw [div_lt_iff₀ hpos]
      linarith
    · rw [div_eq_iff hpos.ne']
      linarith
  rw [roundTo, spacing_of_log_eq hlog, h.shift_div, hround]
  exact h.symm

/-- More than half a spacing brings the sum up by one at least. -/
theorem le_roundTo_add (hprec : 0 < prec) (h : Digits prec y m) (hy : 0 < y)
    (hhalf : spacing prec y / 2 < d ∨ d = spacing prec y / 2 ∧ ¬ Even m) :
    y + spacing prec y ≤ roundTo prec (y + d) := by
  have hpos := spacing_pos prec y
  have hd : 0 < d := by
    rcases hhalf with hlt | ⟨heq, -⟩
    · linarith
    · linarith
  have hlow := zpow_log_le hy
  by_cases hcarry : y + d < (2 : K) ^ (Int.log 2 y + 1)
  · have hlog : Int.log 2 (y + d) = Int.log 2 y := log_eq_of_bounds (by linarith) hcarry
    have hround : m < roundHalfEven ((m : K) + d / spacing prec y) := by
      apply lt_roundHalfEven_add
      refine hhalf.imp (fun hlt => ?_) (And.imp_left fun heq => ?_)
      · rw [lt_div_iff₀ hpos]
        linarith
      · rw [div_eq_iff hpos.ne']
        linarith
    have hle : ((m + 1 : ℤ) : K) * spacing prec y ≤
        (roundHalfEven ((m : K) + d / spacing prec y) : K) * spacing prec y :=
      mul_le_mul_of_nonneg_right (by exact_mod_cast hround) hpos.le
    push_cast at hle
    rw [add_mul, one_mul, ← h] at hle
    rw [roundTo, spacing_of_log_eq hlog, h.shift_div]
    exact hle
  · have hlog : Int.log 2 y + 1 ≤ Int.log 2 (y + d) :=
      (Int.zpow_le_iff_le_log (by norm_num) (by linarith)).mp (by exact_mod_cast not_lt.mp hcarry)
    calc y + spacing prec y ≤ (2 : K) ^ (Int.log 2 y + 1) := h.add_spacing_le
      _ ≤ (2 : K) ^ Int.log 2 (y + d) := zpow_le_zpow_right₀ (by norm_num) hlog
      _ ≤ roundTo prec (y + d) := zpow_log_le_roundTo hprec (by linarith)

/-- Rounding loses at most half a spacing. -/
theorem le_roundTo_add_half (prec : ℕ) (x : K) : x ≤ roundTo prec x + spacing prec x / 2 := by
  have hpos := spacing_pos prec x
  have hle := le_roundHalfEven_add_half (x / spacing prec x)
  rw [div_le_iff₀ hpos, add_mul] at hle
  unfold roundTo
  linarith

/-- Rounding down loses less than one spacing. -/
theorem lt_roundTo_add_spacing (hprec : 0 < prec) (hx : 0 < x) (hle : roundTo prec x ≤ x) :
    x < roundTo prec x + spacing prec (roundTo prec x) := by
  have hpos := spacing_pos prec x
  have hlog : Int.log 2 (roundTo prec x) = Int.log 2 x :=
    log_eq_of_bounds (zpow_log_le_roundTo hprec hx) (lt_of_le_of_lt hle (lt_zpow_log_succ x))
  have hlt := lt_roundHalfEven_add_one (x / spacing prec x)
  rw [div_lt_iff₀ hpos, add_mul, one_mul] at hlt
  rw [spacing_of_log_eq hlog]
  exact hlt

end

end Yarns.Base
