import Mathlib

/-!
# True division of naturals in binary64, truncated

`int(a / b)` in Python divides two integers in double precision, correctly
rounded to nearest with ties to even, and cuts the fraction off.  For small
operands this is the integer quotient; from `2 ^ 53` on it need not be.

* `roundHalfEven`, `truncTrueDiv` — the operation itself.
* `truncTrueDiv_mul_self` — the quotient is always representable, so multiplying it
  back and dividing again gives the same quotient: rounding an address down to
  a multiple of `b` this way is idempotent.
* `truncTrueDiv_eq_zero_iff` — the quotient vanishes exactly below the divisor.
* `truncTrueDiv_two_pow` — by a power of two it is the integer quotient, as long as the
  dividend is a multiple of a smaller power of two by a number below `2 ^ 53`.
-/

namespace FloatDiv

/-- `n / d`, rounded to the nearest natural, ties to even. -/
def roundHalfEven (n d : Nat) : Nat :=
  if 2 * (n % d) < d then n / d
  else if d < 2 * (n % d) then n / d + 1
  else n / d + n / d % 2

/-- `int(a / b)` for naturals `a` and `b`, `0 < b`.  The quotient is scaled so that its
significand has 53 bits, rounded, and scaled back; exponents are unbounded, so
the overflow of quotients from `2 ^ 1024` on is not modelled. -/
def truncTrueDiv (a b : Nat) : Nat :=
  if a < b then roundHalfEven (a * 2 ^ 53) b / 2 ^ 53
  else
    let e := Nat.log2 (a / b)
    if e ≤ 52 then roundHalfEven (a * 2 ^ (52 - e)) b / 2 ^ (52 - e)
    else roundHalfEven a (b * 2 ^ (e - 52)) * 2 ^ (e - 52)

theorem roundHalfEven_mul {d : Nat} (hd : 0 < d) (q : Nat) : roundHalfEven (d * q) d = q := by
  have h1 : d * q % d = 0 := Nat.mul_mod_right d q
  have h2 : d * q / d = q := Nat.mul_div_cancel_left q hd
  rw [roundHalfEven, h1, h2, if_pos (by omega)]

theorem le_roundHalfEven (n d : Nat) : n / d ≤ roundHalfEven n d := by
  unfold roundHalfEven
  split
  · exact le_rfl
  · split <;> omega

theorem roundHalfEven_le (n d : Nat) : roundHalfEven n d ≤ n / d + 1 := by
  unfold roundHalfEven
  split
  · omega
  · split <;> omega

/-- A natural that fits a 53-bit significand: small, or a multiple of the unit its
exponent leaves. -/
def Representable (y : Nat) : Prop := ∀ e, 52 < e → 2 ^ e ≤ y → y < 2 ^ (e + 1) → 2 ^ (e - 52) ∣ y

theorem representable_of_le {y : Nat} (h : y ≤ 2 ^ 53) : Representable y := by
  intro e he hle _
  have he53 : e ≤ 53 := (Nat.pow_le_pow_iff_right (by norm_num : 1 < 2)).1 (hle.trans h)
  have : e = 53 := by omega
  subst this
  rw [le_antisymm h hle]
  exact pow_dvd_pow 2 (by norm_num)

theorem representable_mul {m j : Nat} (h : m ≤ 2 ^ 53) : Representable (m * 2 ^ j) := by
  intro e he hle hlt
  by_cases hm : m = 2 ^ 53
  · subst hm
    have : e < 53 + j + 1 := (Nat.pow_lt_pow_iff_right (by norm_num : 1 < 2)).1 (by
      calc 2 ^ e ≤ 2 ^ 53 * 2 ^ j := hle
        _ = 2 ^ (53 + j) := (pow_add 2 53 j).symm
        _ < 2 ^ (53 + j + 1) := Nat.pow_lt_pow_right (by norm_num) (by omega))
    rw [← pow_add]
    exact pow_dvd_pow 2 (by omega)
  · have hlt53 : m * 2 ^ j < 2 ^ (53 + j) := by
      rw [pow_add]
      exact Nat.mul_lt_mul_of_pos_right (lt_of_le_of_ne h hm) (by positivity)
    have : e < 53 + j :=
      (Nat.pow_lt_pow_iff_right (by norm_num : 1 < 2)).1 (lt_of_le_of_lt hle hlt53)
    exact Dvd.dvd.mul_left (pow_dvd_pow 2 (by omega)) m

/-- **Every truncated quotient is representable.** -/
theorem representable_truncTrueDiv {a b : Nat} (hb : 0 < b) :
    Representable (truncTrueDiv a b) := by
  -- a significand scaled to 53 bits stays within them, up to a carry
  have hsig : ∀ n d, 0 < d → n / d < 2 ^ 53 → roundHalfEven n d ≤ 2 ^ 53 := fun n d _ h =>
    (roundHalfEven_le n d).trans h
  unfold truncTrueDiv
  split
  · rename_i hab
    refine representable_of_le ((Nat.div_le_self _ _).trans (hsig _ _ hb ?_))
    rw [Nat.div_lt_iff_lt_mul hb, mul_comm]
    exact Nat.mul_lt_mul_of_pos_left hab (by positivity)
  · rename_i hab
    have hq : a / b ≠ 0 := (Nat.div_pos (not_lt.1 hab) hb).ne'
    have hlt : a / b < 2 ^ (Nat.log2 (a / b) + 1) := Nat.lt_log2_self
    simp only
    split
    · rename_i he
      refine representable_of_le ((Nat.div_le_self _ _).trans (hsig _ _ hb ?_))
      rw [Nat.div_lt_iff_lt_mul hb]
      rw [Nat.div_lt_iff_lt_mul hb] at hlt
      calc a * 2 ^ (52 - Nat.log2 (a / b))
          < 2 ^ (Nat.log2 (a / b) + 1) * b * 2 ^ (52 - Nat.log2 (a / b)) :=
            Nat.mul_lt_mul_of_pos_right hlt (by positivity)
        _ = 2 ^ (Nat.log2 (a / b) + 1 + (52 - Nat.log2 (a / b))) * b := by
            rw [pow_add 2 (Nat.log2 (a / b) + 1)]; ring
        _ = 2 ^ 53 * b := by
            rw [show Nat.log2 (a / b) + 1 + (52 - Nat.log2 (a / b)) = 53 by omega]
    · rename_i he
      refine representable_mul (hsig _ _ (by positivity) ?_)
      rw [← Nat.div_div_eq_div_mul, Nat.div_lt_iff_lt_mul (by positivity), ← pow_add]
      rwa [show 53 + (Nat.log2 (a / b) - 52) = Nat.log2 (a / b) + 1 by omega]

/-- A representable quotient is computed exactly. -/
theorem truncTrueDiv_mul {y b : Nat} (hb : 0 < b) (hy : Representable y) :
    truncTrueDiv (b * y) b = y := by
  rcases Nat.eq_zero_or_pos y with rfl | hpos
  · have h0 : roundHalfEven 0 b = 0 := by simpa using roundHalfEven_mul hb 0
    rw [truncTrueDiv, Nat.mul_zero, if_pos hb, Nat.zero_mul, h0, Nat.zero_div]
  · have hge : ¬ b * y < b := by
      rw [not_lt]
      exact Nat.le_mul_of_pos_right b hpos
    have hq : b * y / b = y := Nat.mul_div_cancel_left y hb
    simp only [truncTrueDiv, if_neg hge, hq]
    split
    · rw [mul_assoc, roundHalfEven_mul hb]
      exact Nat.mul_div_cancel y (by positivity)
    · rename_i he
      obtain ⟨m, hm⟩ := hy (Nat.log2 y) (by omega) (Nat.log2_self_le hpos.ne') Nat.lt_log2_self
      have hsplit : b * y = b * 2 ^ (Nat.log2 y - 52) * m := by
        conv_lhs => rw [hm]
        ring
      rw [hsplit, roundHalfEven_mul (by positivity), mul_comm]
      exact hm.symm

/-- **Dividing, multiplying back and dividing again changes nothing.** -/
theorem truncTrueDiv_mul_self (a : Nat) {b : Nat} (hb : 0 < b) :
    truncTrueDiv (truncTrueDiv a b * b) b = truncTrueDiv a b := by
  rw [mul_comm]
  exact truncTrueDiv_mul hb (representable_truncTrueDiv hb)

/-- The truncated quotient by a divisor below `2 ^ 53` is zero exactly below the divisor. -/
theorem truncTrueDiv_eq_zero_iff {a b : Nat} (hb : 0 < b) (hb53 : b < 2 ^ 53) :
    truncTrueDiv a b = 0 ↔ a < b := by
  constructor
  · intro h
    by_contra hab
    have hq : 0 < a / b := Nat.div_pos (not_lt.1 hab) hb
    have hle : 2 ^ Nat.log2 (a / b) ≤ a / b := Nat.log2_self_le hq.ne'
    simp only [truncTrueDiv, if_neg hab] at h
    split at h
    · have h1 := le_roundHalfEven (a * 2 ^ (52 - Nat.log2 (a / b))) b
      have h2 : a / b * 2 ^ (52 - Nat.log2 (a / b)) ≤ a * 2 ^ (52 - Nat.log2 (a / b)) / b := by
        rw [Nat.le_div_iff_mul_le hb]
        calc a / b * 2 ^ (52 - Nat.log2 (a / b)) * b
            = a / b * b * 2 ^ (52 - Nat.log2 (a / b)) := by ring
          _ ≤ a * 2 ^ (52 - Nat.log2 (a / b)) :=
              Nat.mul_le_mul_right _ (Nat.div_mul_le_self a b)
      have h3 : 2 ^ (52 - Nat.log2 (a / b)) ≤ a / b * 2 ^ (52 - Nat.log2 (a / b)) :=
        Nat.le_mul_of_pos_left _ hq
      rw [Nat.div_eq_zero_iff] at h
      rcases h with h | h
      · exact absurd h (by positivity)
      · omega
    · rename_i he
      have h1 := le_roundHalfEven a (b * 2 ^ (Nat.log2 (a / b) - 52))
      have h2 : 0 < a / (b * 2 ^ (Nat.log2 (a / b) - 52)) := by
        rw [← Nat.div_div_eq_div_mul]
        refine Nat.div_pos (le_trans ?_ hle) (by positivity)
        exact Nat.pow_le_pow_right (by norm_num) (by omega)
      rcases Nat.mul_eq_zero.1 h with h | h
      · omega
      · exact absurd h (by positivity)
  · intro hab
    rw [truncTrueDiv, if_pos hab, Nat.div_eq_zero_iff]
    right
    have hle := roundHalfEven_le (a * 2 ^ 53) b
    -- even the largest such operand leaves the quotient more than a unit below one
    have hlt : a * 2 ^ 53 / b < 2 ^ 53 - 1 := by
      rw [Nat.div_lt_iff_lt_mul hb]
      have h1 : a * 2 ^ 53 ≤ (b - 1) * 2 ^ 53 := Nat.mul_le_mul_right _ (by omega)
      have h2 : (b - 1) * 2 ^ 53 = b * 2 ^ 53 - 2 ^ 53 := by rw [Nat.sub_mul, one_mul]
      have h3 : (2 ^ 53 - 1) * b = 2 ^ 53 * b - b := by rw [Nat.sub_mul, one_mul]
      have h4 : 2 ^ 53 ≤ b * 2 ^ 53 := Nat.le_mul_of_pos_left _ hb
      have h5 : b * 2 ^ 53 = 2 ^ 53 * b := mul_comm _ _
      omega
    omega

theorem roundHalfEven_of_dvd {n d : Nat} (hd : 0 < d) (h : d ∣ n) : roundHalfEven n d = n / d := by
  obtain ⟨q, rfl⟩ := h
  rw [roundHalfEven_mul hd, Nat.mul_div_cancel_left q hd]

/-- Scaling up so far that the division is exact and then down again is the integer
quotient. -/
theorem roundHalfEven_scaled {a i j k : Nat} (hdvd : 2 ^ i ∣ a) (hk : j ≤ i + k) :
    roundHalfEven (a * 2 ^ k) (2 ^ j) / 2 ^ k = a / 2 ^ j := by
  have hexact : 2 ^ j ∣ a * 2 ^ k :=
    (pow_dvd_pow 2 hk).trans (by
      rw [pow_add]
      exact Nat.mul_dvd_mul_right hdvd _)
  rw [roundHalfEven_of_dvd (by positivity) hexact, Nat.div_div_eq_div_mul]
  exact Nat.mul_div_mul_right a (2 ^ j) (by positivity)

/-- **Division by a power of two is exact** for multiples of a smaller one by a number below
`2 ^ 53`. -/
theorem truncTrueDiv_two_pow {a i j : Nat} (hij : i ≤ j) (hj : j ≤ i + 53) (hdvd : 2 ^ i ∣ a)
    (ha : a < 2 ^ (53 + i)) : truncTrueDiv a (2 ^ j) = a / 2 ^ j := by
  unfold truncTrueDiv
  split
  · exact roundHalfEven_scaled hdvd hj
  · rename_i hle
    have hq : a / 2 ^ j ≠ 0 := (Nat.div_pos (not_lt.1 hle) (by positivity)).ne'
    -- the bits of the quotient and those of the fraction are together no more than 53
    have hbits : Nat.log2 (a / 2 ^ j) + j < 53 + i := by
      refine (Nat.pow_lt_pow_iff_right (by norm_num : 1 < 2)).1 (lt_of_le_of_lt ?_ ha)
      calc 2 ^ (Nat.log2 (a / 2 ^ j) + j) = 2 ^ Nat.log2 (a / 2 ^ j) * 2 ^ j := pow_add 2 _ _
        _ ≤ a / 2 ^ j * 2 ^ j := Nat.mul_le_mul_right _ (Nat.log2_self_le hq)
        _ ≤ a := Nat.div_mul_le_self a _
    simp only
    rw [if_pos (by omega)]
    exact roundHalfEven_scaled hdvd (by omega)

end FloatDiv
