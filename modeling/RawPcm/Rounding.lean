/-! Rounding a quotient of naturals to the nearest integer, at most half a unit away. -/
namespace RawPcm

/-- The integer nearest to `num / den`; a tie goes to the even one. -/
def roundHalfEven (num den : Nat) : Nat :=
  let q := num / den
  let r := num % den
  if 2 * r < den then q else if den < 2 * r then q + 1 else q + q % 2

theorem roundHalfEven_mul {den : Nat} (h : 0 < den) (q : Nat) : roundHalfEven (q * den) den = q := by
  simp [roundHalfEven, Nat.mul_div_cancel q h, h]

theorem two_mul_roundHalfEven_le {num den : Nat} (h : 0 < den) :
    2 * (roundHalfEven num den * den) ≤ 2 * num + den := by
  have hn := Nat.div_add_mod num den
  have hc : den * (num / den) = num / den * den := Nat.mul_comm _ _
  have hs : (num / den + 1) * den = num / den * den + den := Nat.succ_mul _ _
  simp only [roundHalfEven]
  split
  · omega
  · split
    · rw [hs]; omega
    · rcases Nat.mod_two_eq_zero_or_one (num / den) with h0 | h0 <;> rw [h0]
      · simp only [Nat.add_zero]; omega
      · rw [hs]; omega

theorem le_two_mul_roundHalfEven {num den : Nat} (h : 0 < den) :
    2 * num ≤ 2 * (roundHalfEven num den * den) + den := by
  have hn := Nat.div_add_mod num den
  have hc : den * (num / den) = num / den * den := Nat.mul_comm _ _
  have hs : (num / den + 1) * den = num / den * den + den := Nat.succ_mul _ _
  have hm := Nat.mod_lt num h
  simp only [roundHalfEven]
  split
  · omega
  · split
    · rw [hs]; omega
    · rcases Nat.mod_two_eq_zero_or_one (num / den) with h0 | h0 <;> rw [h0]
      · simp only [Nat.add_zero]; omega
      · rw [hs]; omega

end RawPcm
