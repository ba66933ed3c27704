import RawPcm.Proofs.Floating.Digits

/-! Rounding finds the number nearest to the exact result; of two that are as near, the even one. -/
namespace RawPcm

section Quotient
variable (num : Nat) {den : Nat}

theorem two_mul_abs_roundHalfEven_sub_le (hd : 0 < den) :
    2 * |(roundHalfEven num den * den - num : ℚ)| ≤ den := by
  have hup : (2 * (roundHalfEven num den * den) : ℚ) ≤ 2 * num + den := by
    exact_mod_cast two_mul_roundHalfEven_le hd
  have hdown : (2 * num : ℚ) ≤ 2 * (roundHalfEven num den * den) + den := by
    exact_mod_cast le_two_mul_roundHalfEven hd
  rw [← le_div_iff₀' two_pos, abs_le]
  constructor <;> linarith

theorem roundHalfEven_even (hd : 0 < den)
    (h : 2 * |(roundHalfEven num den * den - num : ℚ)| = den) : roundHalfEven num den % 2 = 0 := by
  have htie : 2 * (roundHalfEven num den * den) = 2 * num + den ∨
      2 * num = 2 * (roundHalfEven num den * den) + den := by
    rcases abs_choice (roundHalfEven num den * den - num : ℚ) with he | he <;> rw [he] at h
    · left
      have : (2 * (roundHalfEven num den * den) : ℚ) = 2 * num + den := by linarith
      exact_mod_cast this
    · right
      have : (2 * num : ℚ) = 2 * (roundHalfEven num den * den) + den := by linarith
      exact_mod_cast this
  have hn := Nat.div_add_mod num den
  have hm := Nat.mod_lt num hd
  have hc : den * (num / den) = num / den * den := Nat.mul_comm _ _
  have hs : (num / den + 1) * den = num / den * den + den := Nat.succ_mul _ _
  simp only [roundHalfEven] at htie ⊢
  split at htie <;> rename_i hlt
  · omega
  · split at htie <;> rename_i hgt
    · rw [hs] at htie
      omega
    · rw [if_neg hlt, if_neg hgt]
      omega

end Quotient

namespace Precision
variable {p : Precision} {a c d : ℚ} {x : BitVec p.bits}

/-- A pattern stands for the number nearest to `a`; of two that are as near, the even one. -/
def IsNearest (p : Precision) (x : BitVec p.bits) (a : ℚ) : Prop :=
  ∃ c, p.Denotes x c ∧ ∀ d, p.Represents d →
    |c - a| ≤ |d - a| ∧ (|d - a| = |c - a| → d = c ∨ x.toNat % 2 = 0)

theorem IsNearest.of_lt (hx : p.Denotes x c)
    (h : ∀ d, p.Represents d → d ≠ c → |c - a| < |d - a|) : p.IsNearest x a := by
  refine ⟨c, hx, fun d hd => ?_⟩
  by_cases hdc : d = c
  · exact ⟨by rw [hdc], fun _ => .inl hdc⟩
  · exact ⟨(h d hd hdc).le, fun heq => absurd heq (h d hd hdc).ne'⟩

theorem toNat_pattern_mod_two (negative : Bool) {e f : Nat}
    (h : e * 2 ^ (p.digits - 1) + f < p.infinity) :
    (p.pattern negative (e * 2 ^ (p.digits - 1) + f)).toNat % 2 = f % 2 := by
  have hl : 2 ^ (p.digits - 1) = 2 * 2 ^ (p.digits - 2) := by cases p <;> decide
  have hb : 2 ^ (p.bits - 1) = 2 * 2 ^ (p.bits - 2) := by cases p <;> decide
  rw [toNat_pattern negative (h.trans p.infinity_lt), hl, hb, Nat.mul_left_comm]
  split <;> omega

theorem toNat_neg_mod_two (hx : p.Denotes x a) : (p.neg x).toNat % 2 = x.toNat % 2 := by
  obtain ⟨s, m, hm, rfl, -⟩ := hx.exists_pattern
  have hlt := hm.trans p.infinity_lt
  have hb : 2 ^ (p.bits - 1) = 2 * 2 ^ (p.bits - 2) := by cases p <;> decide
  rw [neg_pattern s hlt, toNat_pattern _ hlt, toNat_pattern _ hlt, hb]
  cases s <;> simp [Nat.add_mod]

theorem abs_neg_sub (d a : ℚ) : |-d - a| = |d - -a| := by
  rw [← abs_neg, neg_sub, sub_neg_eq_add, sub_neg_eq_add, add_comm]

theorem IsNearest.neg (h : p.IsNearest x a) : p.IsNearest (p.neg x) (-a) := by
  obtain ⟨c, hc, hnear⟩ := h
  refine ⟨-c, denotes_neg hc, fun d hd => ?_⟩
  obtain ⟨hle, htie⟩ := hnear (-d) hd.neg
  rw [abs_neg_sub] at hle htie
  rw [toNat_neg_mod_two hc, ← abs_neg_sub (-c), neg_neg]
  exact ⟨hle, fun h => (htie h).imp_left fun h => by rw [← h, neg_neg]⟩

theorem lt_infinity_of_denotes {negative : Bool} {m : Nat} (hm : m ≤ p.infinity)
    (hx : p.Denotes (p.pattern negative m) a) : m < p.infinity := by
  refine lt_of_le_of_ne hm ?_
  rintro rfl
  obtain ⟨s, n, hd, -⟩ := hx
  rw [← infinityOf, datum_infinityOf] at hd
  cases hd

theorem nearest_of_denotes {negative : Bool} {num den : Nat} (hd : 0 < den)
    (hx : p.Denotes (p.nearest negative num den) c) :
    ∃ e f : Nat, (e = 0 ∨ 2 ^ (p.digits - 1) * (den * 2 ^ e) ≤ num) ∧
      f = roundHalfEven num (den * 2 ^ e) ∧ |c| * 2 ^ p.places = f * 2 ^ e ∧
      (p.nearest negative num den).toNat % 2 = f % 2 := by
  have hlo := p.le_of_excess num hd
  have hhi := p.lt_of_excess num hd
  have hlt := lt_infinity_of_denotes (p.nearestMagnitude_le num den) hx
  rw [nearest] at hx ⊢
  simp only [nearestMagnitude] at hlt hx ⊢
  generalize p.excess num den = e at *
  have hpos : 0 < den * 2 ^ e := Nat.mul_pos hd (Nat.two_pow_pos e)
  have hlt := (min_lt_iff.mp hlt).resolve_left (lt_irrefl _)
  rw [min_eq_right hlt.le] at hx ⊢
  refine ⟨e, _, hlo, rfl, ?_, toNat_pattern_mod_two negative hlt⟩
  have hunits := units_of_le (roundHalfEven_le_of_lt hhi)
    (hlo.imp_right (le_roundHalfEven_of_le hpos))
  obtain ⟨s, n, hn, hv⟩ := hx
  rw [datum_pattern negative hlt, hunits] at hn
  obtain ⟨rfl, rfl⟩ := Datum.finite.inj hn
  exact_mod_cast (abs_of_signed hv).1

/-- What a number is rounded to is a multiple of the unit of its last digit, half a unit away at
most. -/
theorem Rounds.exists_unit (hx : p.Rounds x a) (hc : p.Denotes x c) (h0 : 0 ≤ a) :
    ∃ e f : Nat, (e = 0 ∨ 2 ^ (p.digits - 1) * 2 ^ e ≤ a * 2 ^ p.places) ∧
      c * 2 ^ p.places = f * 2 ^ e ∧ 2 * (|c - a| * 2 ^ p.places) ≤ 2 ^ e ∧
      (2 * (|c - a| * 2 ^ p.places) = 2 ^ e → x.toNat % 2 = 0) := by
  have hc0 : 0 ≤ c := hx.ge hc p.represents_zero h0
  obtain ⟨s, num, den, hd, rfl, hn, -⟩ := hx
  obtain ⟨e, f, hlo, hf, hcf, heven⟩ := nearest_of_denotes hd hc
  rw [abs_of_nonneg h0] at hn
  rw [abs_of_nonneg hc0] at hcf
  have hden : (0 : ℚ) < den := by exact_mod_cast hd
  have hpos : 0 < den * 2 ^ e := Nat.mul_pos hd (Nat.two_pow_pos e)
  -- What is rounded is a quotient of naturals, so distances are compared over its denominator.
  have hdist : |(f * (den * 2 ^ e : Nat) - num : ℚ)| = |c - a| * 2 ^ p.places * den := by
    have : (f * (den * 2 ^ e : Nat) - num : ℚ) = (c - a) * 2 ^ p.places * den := by
      rw [hn, sub_mul, hcf]
      push_cast
      ring
    rw [this, abs_mul, abs_mul, abs_of_pos hden, abs_of_pos (two_pow_pos _)]
  have hhalf := two_mul_abs_roundHalfEven_sub_le num hpos
  have htie := roundHalfEven_even num hpos
  rw [← hf, hdist] at hhalf htie
  rw [heven]
  push_cast at hhalf htie
  refine ⟨e, f, hlo.imp_right fun h => ?_, hcf, ?_, fun h => htie ?_⟩
  · have : (2 ^ (p.digits - 1) * (den * 2 ^ e) : ℚ) ≤ num := by exact_mod_cast h
    rw [hn] at this
    apply le_of_mul_le_mul_right _ hden
    linarith
  · apply le_of_mul_le_mul_right _ hden
    linarith
  · rw [mul_comm (den : ℚ), ← h]
    ring

section Unit
variable {e f g k : Nat} (hcf : c * 2 ^ k = f * 2 ^ e) (hdg : d * 2 ^ k = g * 2 ^ e)
include hcf hdg

theorem unit_le_abs_sub (hne : d ≠ c) : 2 ^ e ≤ |d - c| * 2 ^ k := by
  have hk := two_pow_pos k
  have hgf : (g - f : Int) ≠ 0 := by
    intro h
    obtain rfl : g = f := by omega
    exact hne (mul_right_cancel₀ hk.ne' (hdg.trans hcf.symm))
  have h1 : (1 : ℚ) ≤ |((g - f : Int) : ℚ)| := by exact_mod_cast Int.one_le_abs hgf
  have he : (d - c) * 2 ^ k = ((g - f : Int) : ℚ) * 2 ^ e := by
    rw [sub_mul, hdg, hcf]
    push_cast
    ring
  have habs := congrArg abs he
  rw [abs_mul, abs_mul, abs_of_pos hk, abs_of_pos (two_pow_pos e)] at habs
  rw [habs]
  exact le_mul_of_one_le_left (two_pow_pos e).le h1

/-- The multiple within half a unit is the nearest one, and another is as near only if it is just
half a unit away. -/
theorem abs_sub_le_of_multiple (hhalf : 2 * (|c - a| * 2 ^ k) ≤ 2 ^ e) : |c - a| ≤ |d - a| ∧
    (|d - a| = |c - a| → d = c ∨ 2 * (|c - a| * 2 ^ k) = 2 ^ e) := by
  have hk := two_pow_pos k
  by_cases hdc : d = c
  · exact ⟨by rw [hdc], fun _ => .inl hdc⟩
  have hunit := unit_le_abs_sub hcf hdg hdc
  have htri : |d - c| * 2 ^ k ≤ (|d - a| + |c - a|) * 2 ^ k := by
    rw [abs_sub_comm c a]
    exact mul_le_mul_of_nonneg_right (abs_sub_le d a c) hk.le
  rw [add_mul] at htri
  refine ⟨le_of_mul_le_mul_right (by linarith) hk, fun h => .inr ?_⟩
  rw [h] at htri
  linarith

end Unit

theorem lt_of_exponent_lt {d : ℚ} {e e' f' : Nat} (hd : d * 2 ^ p.places = (f' * 2 ^ e' : Nat))
    (hlt : f' < 2 ^ p.digits) (he : e' < e) :
    d < 2 ^ (p.digits - 1) * 2 ^ e / 2 ^ p.places := by
  have hlow : f' * 2 ^ e' < 2 ^ (p.digits - 1) * 2 ^ e := by
    calc f' * 2 ^ e'
      _ < 2 ^ p.digits * 2 ^ e' := Nat.mul_lt_mul_of_pos_right hlt (Nat.two_pow_pos e')
      _ ≤ 2 ^ (p.digits - 1) * 2 ^ e := by
        rw [← Nat.pow_add, ← Nat.pow_add]
        exact Nat.pow_le_pow_right (by decide) (by omega)
  rw [lt_div_iff₀ (two_pow_pos p.places), hd]
  exact_mod_cast hlow

theorem Rounds.isNearest_of_nonneg (hx : p.Rounds x a) (hc : p.Denotes x c) (h0 : 0 ≤ a) :
    p.IsNearest x a := by
  obtain ⟨e, f, hlo, hcf, hhalf, heven⟩ := hx.exists_unit hc h0
  have hp := two_pow_pos p.places
  have hmultiple (g : Nat) {d : ℚ} (hd : d * 2 ^ p.places = g * 2 ^ e) :
      |c - a| ≤ |d - a| ∧ (|d - a| = |c - a| → d = c ∨ x.toNat % 2 = 0) := by
    obtain ⟨hle, htie⟩ := abs_sub_le_of_multiple hcf hd hhalf
    exact ⟨hle, fun h => (htie h).imp_right heven⟩
  have hbelow (g : Nat) {b d : ℚ} (hb : b * 2 ^ p.places = g * 2 ^ e) (hba : b ≤ a)
      (hdb : d < b) : |c - a| ≤ |d - a| ∧ (|d - a| = |c - a| → d = c ∨ x.toNat % 2 = 0) := by
    have hle := (hmultiple g hb).1
    rw [abs_of_nonpos (sub_nonpos.mpr hba)] at hle
    have hlt : |c - a| < |d - a| := by
      rw [abs_of_neg (sub_neg.mpr (hdb.trans_le hba))]
      linarith
    exact ⟨hlt.le, fun h => absurd h hlt.ne'⟩
  refine ⟨c, hc, fun d hd => ?_⟩
  rcases lt_or_ge d 0 with hneg | hd0
  · exact hbelow 0 (b := 0) (by simp) h0 hneg
  obtain ⟨e', f', hf', hlt, hlead, -⟩ := hd.exists_significand
  rw [abs_of_nonneg hd0] at hf'
  rcases le_or_gt e e' with he | he
  · obtain ⟨i, rfl⟩ := Nat.exists_eq_add_of_le he
    apply hmultiple (f' * 2 ^ i)
    rw [hf', pow_add]
    push_cast
    ring
  · have hlo := hlo.resolve_left (by omega)
    apply hbelow (2 ^ (p.digits - 1)) (b := 2 ^ (p.digits - 1) * 2 ^ e / 2 ^ p.places)
    · rw [div_mul_cancel₀ _ hp.ne']
      push_cast
      rfl
    · rwa [div_le_iff₀ hp]
    · exact lt_of_exponent_lt hf' hlt he

/-- Rounding finds the nearest number. -/
theorem Rounds.isNearest (hx : p.Rounds x a) (hc : p.Denotes x c) : p.IsNearest x a := by
  rcases le_total 0 a with h | h
  · exact hx.isNearest_of_nonneg hc h
  · have hneg := (hx.neg.isNearest_of_nonneg (denotes_neg hc) (neg_nonneg.mpr h)).neg
    rwa [neg_involutive, neg_neg] at hneg

end Precision
end RawPcm
