import Mathlib.Order.Monotone.Basic
import RawPcm.Proofs.Floating.Units

/-! Rounding keeps the order: a greater quotient has no smaller magnitude pattern. -/
namespace RawPcm

theorem le_roundHalfEven (num den : Nat) : num / den ≤ roundHalfEven num den := by
  simp only [roundHalfEven]
  split
  · exact Nat.le_refl _
  · split <;> exact Nat.le_add_right ..

section Remainders
variable {r den r' den' : Nat}

theorem mul_two_lt_of_mul_le (hd : 0 < den) (h : r * den' ≤ r' * den) (hlt : r' * 2 < den') :
    r * 2 < den := by
  have hmul := Nat.mul_lt_mul_of_pos_right hlt hd
  apply Nat.lt_of_mul_lt_mul_right (a := den')
  rw [Nat.mul_right_comm]
  rw [Nat.mul_right_comm, Nat.mul_comm den'] at hmul
  omega

theorem lt_mul_two_of_mul_le (hd' : 0 < den') (h : r * den' ≤ r' * den) (hgt : den < r * 2) :
    den' < r' * 2 := by
  have hmul := Nat.mul_lt_mul_of_pos_right hgt hd'
  apply Nat.lt_of_mul_lt_mul_right (a := den)
  rw [Nat.mul_right_comm, Nat.mul_comm den'] at *
  omega

end Remainders

theorem roundHalfEven_mono {num den num' den' : Nat} (hd : 0 < den) (hd' : 0 < den')
    (h : num * den' ≤ num' * den) : roundHalfEven num den ≤ roundHalfEven num' den' := by
  have hle := le_roundHalfEven num' den'
  have hq : num / den ≤ num' / den' := by
    rw [Nat.le_div_iff_mul_le hd']
    have hm : num / den * den * den' ≤ num' * den :=
      (Nat.mul_le_mul_right den' (Nat.div_mul_le_self num den)).trans h
    rw [Nat.mul_right_comm] at hm
    exact Nat.le_of_mul_le_mul_right hm hd
  rcases Nat.lt_or_eq_of_le hq with hlt | heq
  · simp only [roundHalfEven] at hle ⊢
    split
    · omega
    · split <;> omega
  · -- The integer parts agree, so the remainders are compared with halves.
    have hr : num % den * den' ≤ num' % den' * den := by
      rw [← Nat.div_add_mod num den, ← Nat.div_add_mod num' den', heq, Nat.add_mul, Nat.add_mul,
        Nat.mul_right_comm den, Nat.mul_right_comm den', Nat.mul_comm den' den] at h
      omega
    have hlt := mul_two_lt_of_mul_le hd hr
    have hgt := lt_mul_two_of_mul_le hd' hr
    simp only [roundHalfEven, heq]
    split
    · split
      · exact Nat.le_refl _
      · split <;> exact Nat.le_add_right ..
    · have : ¬ 2 * (num' % den') < den' := by omega
      rw [if_neg this]
      split
      · rw [if_pos (by omega)]
      · split <;> omega

theorem roundHalfEven_mul_mul (num den : Nat) {k : Nat} (h : 0 < k) :
    roundHalfEven (num * k) (den * k) = roundHalfEven num den := by
  have hl {a b : Nat} : 2 * (a * k) < b * k ↔ 2 * a < b := by
    rw [← Nat.mul_assoc, Nat.mul_lt_mul_right h]
  have hg {a b : Nat} : a * k < 2 * (b * k) ↔ a < 2 * b := by
    rw [← Nat.mul_assoc, Nat.mul_lt_mul_right h]
  simp only [roundHalfEven, Nat.mul_div_mul_right num den h, Nat.mul_mod_mul_right, hl, hg]

namespace Precision
variable {p : Precision} {num den : Nat}

theorem units_zero (p : Precision) : p.units 0 = 0 := units_of_lt p.lead_pos

/-- A significand that has got one digit too many is the first one of the next exponent. -/
theorem units_of_le {e f : Nat} (hf : f ≤ 2 ^ p.digits) (h : e = 0 ∨ 2 ^ (p.digits - 1) ≤ f) :
    p.units (e * 2 ^ (p.digits - 1) + f) = f * 2 ^ e := by
  have hl := p.lead_pos
  have htwo := p.two_mul_lead
  rcases Nat.lt_or_eq_of_le hf with hf | rfl
  · exact units_significand hf h
  · have hn : e * 2 ^ (p.digits - 1) + 2 ^ p.digits =
        (e + 1) * 2 ^ (p.digits - 1) + 2 ^ (p.digits - 1) := by
      rw [Nat.succ_mul]
      omega
    rw [hn, units_significand (by omega) (.inr (Nat.le_refl _)), ← htwo, Nat.pow_succ,
      Nat.mul_comm 2, Nat.mul_assoc, Nat.mul_comm 2]

theorem units_strictMono (p : Precision) : StrictMono p.units := by
  apply strictMono_nat_of_lt_succ
  intro n
  obtain ⟨e, f, rfl, hf, h⟩ := p.exists_significand n
  rw [units_significand hf h, Nat.add_assoc, units_of_le hf (h.imp_right Nat.le_succ_of_le)]
  exact Nat.mul_lt_mul_of_pos_right (Nat.lt_succ_self f) (Nat.two_pow_pos e)

theorem units_pos {n : Nat} : 0 < p.units n ↔ 0 < n := by
  have h := p.units_strictMono.lt_iff_lt (a := 0) (b := n)
  rwa [units_zero] at h

theorem excess_mono (hd : 0 < den) {num' den' : Nat} (hd' : 0 < den')
    (h : num * den' ≤ num' * den) : p.excess num den ≤ p.excess num' den' := by
  apply le_excess hd'
  refine (p.le_of_excess num hd).imp_right fun hlo => ?_
  have hm := (Nat.mul_le_mul_right den' hlo).trans h
  apply Nat.le_of_mul_le_mul_right _ hd
  calc 2 ^ (p.digits - 1) * (den' * 2 ^ p.excess num den) * den
    _ = 2 ^ (p.digits - 1) * (den * 2 ^ p.excess num den) * den' := by ac_rfl
    _ ≤ num' * den := hm

theorem roundHalfEven_le_of_lt {d f : Nat} (h : num < f * d) : roundHalfEven num d ≤ f := by
  have hd : 0 < d := Nat.pos_of_ne_zero fun h0 => by simp [h0] at h
  have hm := roundHalfEven_mono hd hd (Nat.mul_le_mul_right d h.le)
  rwa [roundHalfEven_mul hd] at hm

theorem le_roundHalfEven_of_le {d f : Nat} (hd : 0 < d) (h : f * d ≤ num) :
    f ≤ roundHalfEven num d := by
  have hm := roundHalfEven_mono hd hd (Nat.mul_le_mul_right d h)
  rwa [roundHalfEven_mul hd] at hm

theorem nearestMagnitude_mono (hd : 0 < den) {num' den' : Nat} (hd' : 0 < den')
    (h : num * den' ≤ num' * den) :
    p.nearestMagnitude num den ≤ p.nearestMagnitude num' den' := by
  have he := excess_mono (p := p) hd hd' h
  have hhi := p.lt_of_excess num hd
  have hlo := p.le_of_excess num' hd'
  have hp (e : Nat) : 0 < 2 ^ e := Nat.two_pow_pos e
  simp only [nearestMagnitude]
  generalize p.excess num den = e at *
  generalize p.excess num' den' = e' at *
  refine Nat.le_min.mpr ⟨Nat.min_le_left .., (Nat.min_le_right ..).trans ?_⟩
  rcases Nat.lt_or_eq_of_le he with hlt | rfl
  · -- A power of two lies between them.
    have hr := roundHalfEven_le_of_lt hhi
    have hr' := le_roundHalfEven_of_le (Nat.mul_pos hd' (hp e')) (hlo.resolve_left (by omega))
    have hm := Nat.mul_le_mul_right (2 ^ (p.digits - 1)) hlt
    rw [Nat.succ_mul] at hm
    rw [← two_mul_lead] at hr
    omega
  · apply Nat.add_le_add_left
    apply roundHalfEven_mono (Nat.mul_pos hd (hp e)) (Nat.mul_pos hd' (hp e))
    rw [← Nat.mul_assoc, ← Nat.mul_assoc]
    exact Nat.mul_le_mul_right _ h

theorem nearest_of_digits (negative : Bool) (hd : 0 < den) {e : Nat}
    (he : e + 3 < 2 ^ (p.bits - p.digits))
    (hlo : e = 0 ∨ 2 ^ (p.digits - 1) * (den * 2 ^ e) ≤ num)
    (hhi : num < 2 ^ p.digits * (den * 2 ^ e)) :
    ∃ m < p.infinity, p.nearest negative num den = p.pattern negative m ∧
      p.units m = roundHalfEven num (den * 2 ^ e) * 2 ^ e := by
  have hr := roundHalfEven_le_of_lt hhi
  have hr' := hlo.imp_right (le_roundHalfEven_of_le (Nat.mul_pos hd (Nat.two_pow_pos e)))
  have hm : (e + 3) * 2 ^ (p.digits - 1) ≤ (2 ^ (p.bits - p.digits) - 1) * 2 ^ (p.digits - 1) :=
    Nat.mul_le_mul_right _ (by omega)
  have hlt : e * 2 ^ (p.digits - 1) + roundHalfEven num (den * 2 ^ e) < p.infinity := by
    have := p.lead_pos
    rw [← two_mul_lead] at hr
    rw [Nat.add_mul] at hm
    rw [infinity_eq]
    omega
  refine ⟨_, hlt, ?_, units_of_le hr hr'⟩
  rw [nearest, nearestMagnitude]
  simp only [excess_eq hd hlo hhi]
  rw [Nat.min_eq_right hlt.le]

end Precision
end RawPcm
