import RawPcm.Floating.Nearest

/-! Magnitude patterns as a significand and an exponent. A number is its own rounding. -/
namespace RawPcm.Precision
variable {p : Precision}

theorem lead_pos (p : Precision) : 0 < 2 ^ (p.digits - 1) := Nat.two_pow_pos _

theorem two_mul_lead (p : Precision) : 2 * 2 ^ (p.digits - 1) = 2 ^ p.digits := by
  cases p <;> decide

theorem infinity_eq (p : Precision) :
    p.infinity = (2 ^ (p.bits - p.digits) - 1) * 2 ^ (p.digits - 1) := by
  cases p <;> decide

theorem units_of_lt {n : Nat} (h : n < 2 ^ (p.digits - 1)) : p.units n = n := by
  simp [units, h]

theorem units_significand {e f : Nat} (hf : f < 2 ^ p.digits)
    (h : e = 0 ∨ 2 ^ (p.digits - 1) ≤ f) : p.units (e * 2 ^ (p.digits - 1) + f) = f * 2 ^ e := by
  have hl := p.lead_pos
  rw [← two_mul_lead] at hf
  by_cases hlt : f < 2 ^ (p.digits - 1)
  · have he : e = 0 := by omega
    subst he
    rw [Nat.zero_mul, Nat.zero_add, units_of_lt hlt, Nat.pow_zero, Nat.mul_one]
  · obtain ⟨g, rfl⟩ := Nat.exists_eq_add_of_le (Nat.not_lt.mp hlt)
    have hg : g < 2 ^ (p.digits - 1) := by omega
    have hn : e * 2 ^ (p.digits - 1) + (2 ^ (p.digits - 1) + g) =
        2 ^ (p.digits - 1) * (e + 1) + g := by
      rw [Nat.mul_succ, Nat.mul_comm]
      omega
    have hge : ¬ 2 ^ (p.digits - 1) * (e + 1) + g < 2 ^ (p.digits - 1) := by
      rw [Nat.mul_succ]
      omega
    rw [hn, units]
    simp only [if_neg hge, Nat.mul_add_mod, Nat.mod_eq_of_lt hg, Nat.mul_add_div hl,
      Nat.div_eq_of_lt hg, Nat.add_zero, Nat.add_sub_cancel]

theorem exists_significand (p : Precision) (n : Nat) :
    ∃ e f, n = e * 2 ^ (p.digits - 1) + f ∧ f < 2 ^ p.digits ∧
      (e = 0 ∨ 2 ^ (p.digits - 1) ≤ f) := by
  have hl := p.lead_pos
  have hm := Nat.mod_lt n hl
  have hd := Nat.div_add_mod n (2 ^ (p.digits - 1))
  rw [← two_mul_lead]
  by_cases hlt : n < 2 ^ (p.digits - 1)
  · exact ⟨0, n, by omega, by omega, .inl rfl⟩
  · have hq : 0 < n / 2 ^ (p.digits - 1) := Nat.div_pos (Nat.not_lt.mp hlt) hl
    obtain ⟨e, he⟩ := Nat.exists_eq_succ_of_ne_zero (Nat.ne_of_gt hq)
    rw [he, Nat.mul_succ, Nat.mul_comm] at hd
    exact ⟨e, 2 ^ (p.digits - 1) + n % 2 ^ (p.digits - 1), by omega, by omega, .inr (by omega)⟩

theorem digits_pos (p : Precision) : 0 < p.digits := by cases p <;> decide

section Excess
variable {num den : Nat}

theorem lt_of_excess (p : Precision) (num : Nat) (hd : 0 < den) :
    num < 2 ^ p.digits * (den * 2 ^ p.excess num den) := by
  have hlog : num / den < 2 ^ (num / den).log2.succ := Nat.lt_log2_self
  have hle : 2 ^ (num / den).log2.succ ≤ 2 ^ (p.digits + p.excess num den) :=
    Nat.pow_le_pow_right (by decide) (by simp only [excess]; omega)
  have h := (Nat.div_lt_iff_lt_mul hd).mp (Nat.lt_of_lt_of_le hlog hle)
  rwa [Nat.pow_add, Nat.mul_assoc, Nat.mul_comm (2 ^ p.excess num den)] at h

theorem le_of_excess (p : Precision) (num : Nat) (hd : 0 < den) :
    p.excess num den = 0 ∨ 2 ^ (p.digits - 1) * (den * 2 ^ p.excess num den) ≤ num := by
  have hp := p.digits_pos
  rcases Nat.eq_zero_or_pos (p.excess num den) with h | h
  · exact .inl h
  have h0 : num / den ≠ 0 := by
    intro h0
    rw [excess, h0, Nat.log2_zero] at h
    omega
  have hlog : 2 ^ (p.digits - 1 + p.excess num den) ≤ num / den := by
    rw [← Nat.le_log2 h0]
    simp only [excess] at h ⊢
    omega
  have hle := (Nat.le_div_iff_mul_le hd).mp hlog
  rw [Nat.pow_add, Nat.mul_assoc, Nat.mul_comm (2 ^ p.excess num den)] at hle
  exact .inr hle

/-- The least quotient of all digits at one place is below the greatest ones at another. -/
theorem exponent_le {e e' : Nat}
    (h : 2 ^ (p.digits - 1) * (den * 2 ^ e) < 2 ^ p.digits * (den * 2 ^ e')) : e ≤ e' := by
  rw [Nat.mul_left_comm, Nat.mul_left_comm (2 ^ p.digits)] at h
  have h := Nat.lt_of_mul_lt_mul_left h
  rw [← Nat.pow_add, ← Nat.pow_add] at h
  have := (Nat.pow_lt_pow_iff_right (by decide)).mp h
  have := p.digits_pos
  omega

theorem le_excess (hd : 0 < den) {e : Nat}
    (h : e = 0 ∨ 2 ^ (p.digits - 1) * (den * 2 ^ e) ≤ num) : e ≤ p.excess num den := by
  cases h with
  | inl h => rw [h]; exact Nat.zero_le _
  | inr h => exact exponent_le (Nat.lt_of_le_of_lt h (p.lt_of_excess _ hd))

theorem excess_eq (hd : 0 < den) {e : Nat} (hlo : e = 0 ∨ 2 ^ (p.digits - 1) * (den * 2 ^ e) ≤ num)
    (hhi : num < 2 ^ p.digits * (den * 2 ^ e)) : p.excess num den = e := by
  apply Nat.le_antisymm _ (le_excess hd hlo)
  cases p.le_of_excess num hd with
  | inl h => rw [h]; exact Nat.zero_le _
  | inr h => exact exponent_le (Nat.lt_of_le_of_lt h hhi)

theorem excess_significand {e f : Nat} (hd : 0 < den) (hf : f < 2 ^ p.digits)
    (h : e = 0 ∨ 2 ^ (p.digits - 1) ≤ f) : p.excess (f * 2 ^ e * den) den = e := by
  have hm : f * 2 ^ e * den = f * (den * 2 ^ e) := by rw [Nat.mul_assoc, Nat.mul_comm den]
  rw [hm]
  apply excess_eq hd (h.imp_right (Nat.mul_le_mul_right _))
  exact Nat.mul_lt_mul_of_pos_right hf (Nat.mul_pos hd (Nat.two_pow_pos e))

end Excess

theorem nearestMagnitude_units {m den : Nat} (hm : m < p.infinity) (hd : 0 < den) :
    p.nearestMagnitude (p.units m * den) den = m := by
  obtain ⟨e, f, rfl, hf, h⟩ := p.exists_significand m
  have hr : f * 2 ^ e * den = f * (den * 2 ^ e) := by
    rw [Nat.mul_comm den, Nat.mul_assoc]
  rw [units_significand hf h, nearestMagnitude]
  simp only [excess_significand hd hf h]
  rw [hr, roundHalfEven_mul (Nat.mul_pos hd (Nat.two_pow_pos e))]
  exact Nat.min_eq_right (Nat.le_of_lt hm)

def Exact (p : Precision) (n : Nat) : Prop := ∃ m < p.infinity, p.units m = n

theorem exact_significand {e f : Nat} (hf : f < 2 ^ p.digits) (h : e = 0 ∨ 2 ^ (p.digits - 1) ≤ f)
    (he : e + 2 < 2 ^ (p.bits - p.digits)) : p.Exact (f * 2 ^ e) := by
  refine ⟨e * 2 ^ (p.digits - 1) + f, ?_, units_significand hf h⟩
  have hm : (e + 2) * 2 ^ (p.digits - 1) ≤ (2 ^ (p.bits - p.digits) - 1) * 2 ^ (p.digits - 1) :=
    Nat.mul_le_mul_right _ (by omega)
  rw [← two_mul_lead] at hf
  rw [Nat.add_mul] at hm
  rw [infinity_eq]
  omega

/-- A significand that is too small is moved up as far as there are places behind it. -/
theorem exact_mul_two_pow {a j : Nat} (ha : a < 2 ^ p.digits)
    (hj : j + 2 < 2 ^ (p.bits - p.digits)) : p.Exact (a * 2 ^ j) := by
  induction j generalizing a with
  | zero => exact exact_significand ha (.inl rfl) hj
  | succ j ih =>
    by_cases h : 2 ^ (p.digits - 1) ≤ a
    · exact exact_significand ha (.inr h) hj
    · rw [Nat.pow_succ, Nat.mul_comm (2 ^ j), ← Nat.mul_assoc]
      rw [← two_mul_lead] at ha
      exact ih (by rw [← two_mul_lead]; omega) (by omega)

end RawPcm.Precision
