/-
Which integers have a float.

An integer is taken to the nearest float, and past the largest float there is none.  The largest
float is `2 ^ 1024 - 2 ^ 971`.  What is nearer to it than to `2 ^ 1024` goes there, and a half goes
to the even mantissa, which is that of `2 ^ 1024`: so the integers from `2 ^ 1024 - 2 ^ 970` on have
no float, and all others have one.
-/
import LuaRecovery.Binary64

namespace LuaRecovery.Binary64

/-! ### Rounding -/

theorem div_le_roundHalfEven (num den : Nat) : num / den ≤ roundHalfEven num den := by
  unfold roundHalfEven
  dsimp only
  split
  · exact Nat.le_succ _
  · exact Nat.le_refl _

theorem roundHalfEven_le (num den : Nat) : roundHalfEven num den ≤ num / den + 1 := by
  unfold roundHalfEven
  dsimp only
  split
  · exact Nat.le_refl _
  · exact Nat.le_succ _

/-- A ratio is rounded to something below an even number if it is below it by more than a half. -/
theorem roundHalfEven_lt_iff {num half bound : Nat} (heven : bound % 2 = 0) (hhalf : 0 < half) :
    roundHalfEven num (2 * half) < bound ↔ num + half < 2 * half * bound := by
  obtain ⟨den, hden⟩ : ∃ den, den = 2 * half := ⟨_, rfl⟩
  rw [← hden]
  have hsplit := Nat.div_add_mod num den
  have hmod := Nat.mod_lt num (show 0 < den by omega)
  rcases Nat.lt_trichotomy (num / den + 1) bound with hlt | heq | hgt
  · -- The ratio is below by more than one.
    have hround := roundHalfEven_le num den
    have hmul : den * (num / den + 2) ≤ den * bound := Nat.mul_le_mul_left den hlt
    rw [Nat.mul_add] at hmul
    omega
  · -- The ratio is below by one at most, and the number before is odd.
    have hmul : den * bound = den * (num / den) + den := by rw [← heq, Nat.mul_add, Nat.mul_one]
    unfold roundHalfEven
    dsimp only
    split <;> omega
  · have hround := div_le_roundHalfEven num den
    have hmul : den * bound ≤ den * (num / den) := Nat.mul_le_mul_left den (by omega)
    omega

/-! ### The exponent of an integer -/

variable {e : Int} {m : Nat}

theorem scaled_of_large {m k : Nat} (he : e = k) : scaled m 1 e = (m, Nat.pow 2 k) := by
  subst he
  unfold scaled
  rw [if_pos (Int.natCast_nonneg k), Int.toNat_natCast, Nat.one_mul]

theorem scaled_of_small {m k : Nat} (he : e = -(k : Int)) (hk : 0 < k) :
    scaled m 1 e = (m * Nat.pow 2 k, 1) := by
  subst he
  unfold scaled
  rw [if_neg (by omega), Int.neg_neg, Int.toNat_natCast]

/-- The ratio that is rounded to the mantissa of a natural number has 53 bits. -/
theorem scaled_natural (hm : m ≠ 0) :
    ∃ n d, scaled m 1 ((m.log2 : Int) - 52) = (n, d) ∧ 0 < d ∧ d * fieldUnit ≤ n ∧
      n < d * (2 * fieldUnit) := by
  have hlow := Nat.log2_self_le hm
  have hhigh := @Nat.lt_log2_self m
  show ∃ n d, _ ∧ _ ∧ d * 2 ^ 52 ≤ n ∧ n < d * (2 * 2 ^ 52)
  rcases Nat.lt_or_ge m.log2 52 with hsmall | hlarge
  · obtain ⟨k, hk⟩ := Nat.exists_eq_add_of_lt hsmall
    refine ⟨_, _, scaled_of_small (k := k + 1) (by omega) (by omega), Nat.one_pos, ?_, ?_⟩
    · calc
        1 * 2 ^ 52 = 2 ^ m.log2 * 2 ^ (k + 1) := by
          rw [← Nat.pow_add, Nat.one_mul, hk, Nat.add_assoc]
        _ ≤ m * 2 ^ (k + 1) := Nat.mul_le_mul_right _ hlow
    · calc
        m * 2 ^ (k + 1) < 2 ^ (m.log2 + 1) * 2 ^ (k + 1) :=
          Nat.mul_lt_mul_of_pos_right hhigh (Nat.two_pow_pos _)
        _ = 1 * (2 * 2 ^ 52) := by
          rw [← Nat.pow_add, Nat.one_mul, ← Nat.pow_succ', hk]
          congr 1
          omega
  · obtain ⟨k, hk⟩ := Nat.exists_eq_add_of_le hlarge
    refine ⟨_, _, scaled_of_large (k := k) (by omega), Nat.two_pow_pos _, ?_, ?_⟩
    · show 2 ^ k * 2 ^ 52 ≤ m
      rwa [← Nat.pow_add, Nat.add_comm, ← hk]
    · show m < 2 ^ k * (2 * 2 ^ 52)
      rw [Nat.mul_left_comm, ← Nat.pow_add, Nat.add_comm, ← hk, ← Nat.pow_succ']
      exact hhigh

theorem exponentOf_natural (hm : m ≠ 0) : exponentOf m 1 = (m.log2 : Int) - 52 := by
  obtain ⟨n, d, hscaled, -, hlow, -⟩ := scaled_natural hm
  have hguess : (m.log2 : Int) - (1 : Nat).log2 - 52 = (m.log2 : Int) - 52 := by
    rw [show (1 : Nat).log2 = 0 by decide]
    omega
  unfold exponentOf
  dsimp only
  rw [hguess, hscaled, if_neg (Nat.not_lt.mpr hlow)]
  unfold minExponent
  omega

theorem ratioBits_of_scaled {num den n d : Nat} (hnum : num ≠ 0) (he : exponentOf num den = e)
    (hscaled : scaled num den e = (n, d)) :
    ratioBits num den =
      min infinityBits ((e - minExponent).toNat * fieldUnit + roundHalfEven n d) := by
  unfold ratioBits
  rw [if_neg hnum, he]
  -- The numbers are kept from being unfolded where both sides are compared.
  generalize infinityBits = top
  generalize fieldUnit = unit
  generalize minExponent = least
  simp only [hscaled]

/-- The bits of the float nearest to a natural number, by the place of its first bit. -/
theorem ratioBits_natural (hm : m ≠ 0) : ∃ n d, scaled m 1 ((m.log2 : Int) - 52) = (n, d) ∧
      ratioBits m 1 = min infinityBits ((m.log2 + 1022) * fieldUnit + roundHalfEven n d) ∧
      fieldUnit ≤ roundHalfEven n d ∧ roundHalfEven n d ≤ 2 * fieldUnit := by
  obtain ⟨n, d, hscaled, hd, hlow, hhigh⟩ := scaled_natural hm
  rw [Nat.mul_comm] at hlow hhigh
  have hfield : ((m.log2 : Int) - 52 - minExponent).toNat = m.log2 + 1022 := by
    unfold minExponent
    omega
  refine ⟨n, d, hscaled, ?_, ?_, ?_⟩
  · rw [ratioBits_of_scaled hm (exponentOf_natural hm) hscaled, hfield]
  · exact Nat.le_trans ((Nat.le_div_iff_mul_le hd).mpr hlow) (div_le_roundHalfEven n d)
  · exact Nat.le_trans (roundHalfEven_le n d)
      (Nat.succ_le_of_lt ((Nat.div_lt_iff_lt_mul hd).mpr hhigh))

/-! ### The range -/

/-- Half way between the largest float and the next power of two. -/
def rangeEnd : Nat := Nat.pow 2 1024 - Nat.pow 2 970

/-- A natural number is taken to a finite float if it is below the end of the range. -/
theorem ratioBits_lt_iff (m : Nat) : ratioBits m 1 < infinityBits ↔ m < rangeEnd := by
  rcases Nat.eq_zero_or_pos m with rfl | hpos
  · decide +kernel
  · have hm : m ≠ 0 := Nat.ne_of_gt hpos
    have hlow := Nat.log2_self_le hm
    have hhigh := @Nat.lt_log2_self m
    obtain ⟨n, d, hscaled, hbits, hleast, hmost⟩ := ratioBits_natural hm
    have hinfinity : infinityBits = 2047 * fieldUnit := rfl
    have hcut {a b : Nat} : min a b < a ↔ b < a := by omega
    rw [hbits, hcut, hinfinity]
    rcases Nat.lt_trichotomy m.log2 1023 with hsmall | hlast | hlarge
    · -- Below the last exponent every number has a float.
      have hfield : (m.log2 + 1022) * fieldUnit ≤ 2044 * fieldUnit :=
        Nat.mul_le_mul_right _ (by omega)
      have hunit : 0 < fieldUnit := Nat.two_pow_pos 52
      refine iff_of_true (by omega) ?_
      have hbound := Nat.lt_of_lt_of_le hhigh
        (Nat.pow_le_pow_right Nat.two_pos (Nat.succ_le_of_lt hsmall))
      exact Nat.lt_of_lt_of_le hbound (by decide +kernel)
    · -- At the last exponent the mantissa must not be rounded up to the next power of two.
      obtain ⟨k, hk⟩ : ∃ k, k = 971 := ⟨_, rfl⟩
      obtain ⟨half, hpos, hdouble, hend⟩ : ∃ half, 0 < half ∧ Nat.pow 2 k = 2 * half ∧
          rangeEnd + half = 2 * half * (2 * fieldUnit) := by
        rw [hk]
        exact ⟨2 ^ 970, by decide +kernel⟩
      rw [scaled_of_large (k := k) (by omega), hdouble] at hscaled
      obtain ⟨rfl, rfl⟩ := Prod.mk.inj hscaled
      have hround : (m.log2 + 1022) * fieldUnit + roundHalfEven m (2 * half) < 2047 * fieldUnit ↔
          roundHalfEven m (2 * half) < 2 * fieldUnit := by
        rw [hlast]
        omega
      rw [hround, roundHalfEven_lt_iff (by decide +kernel) hpos, ← hend]
      omega
    · -- Past the last exponent no number has one.
      have hpast : 1024 ≤ m.log2 := hlarge
      have hfield : 2046 * fieldUnit ≤ (m.log2 + 1022) * fieldUnit :=
        Nat.mul_le_mul_right _ (by omega)
      refine iff_of_false (by omega) ?_
      have hbound := Nat.le_trans (Nat.pow_le_pow_right Nat.two_pos hpast) hlow
      exact Nat.not_lt_of_le (Nat.le_trans (by decide +kernel) hbound)

/-- An integer past the range of floats. -/
def IsPastRange (n : Int) : Prop := rangeEnd ≤ n.natAbs

theorem ofInt?_eq_none_iff {n : Int} : ofInt? n = none ↔ IsPastRange n := by
  have hrange := ratioBits_lt_iff n.natAbs
  unfold ofInt? IsPastRange
  split
  · rename_i hlt
    exact iff_of_false nofun (Nat.not_le.mpr (hrange.mp hlt))
  · rename_i hge
    exact iff_of_true rfl (Nat.le_of_not_lt fun hlt => hge (hrange.mpr hlt))

end LuaRecovery.Binary64
