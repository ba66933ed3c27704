import RawPcm.Proofs.Sample.Rounding

/-! Amplitudes as fractions of full scale and back. A precision that has the digits loses nothing. -/
namespace RawPcm.Sample
open Precision
variable {p : Precision} {s : Signedness} {n : WordSize} {m : ℤ} {w : Nat} {a : Int}

theorem steps_of_denotes {x : Sample (.floating p)} (hx : p.Denotes x (m / 2 ^ (n.bits - 1)))
    (hlo : -2 ^ (n.bits - 1) ≤ m)
    (hhi : (m : ℚ) ≤ (quantizingPrecision p n.bits).bound n.bits * 2 ^ (n.bits - 1)) :
    x.steps n.bits = m := by
  have hpos := two_pow_pos (n.bits - 1)
  have hlo : (-2 ^ (n.bits - 1) : ℚ) ≤ m := by exact_mod_cast hlo
  rw [steps, clamped_of_mem hx, div_mul_cancel₀ _ hpos.ne']
  · rw [le_div_iff₀ hpos]
    linarith
  · rwa [div_le_iff₀ hpos]

theorem amplitude_quantize_of_steps {x : Sample (.floating p)} (hx : x.steps n.bits = m)
    (ho : ¬ Overshoots m) : s.amplitude (x.quantize s n) = m := by
  rw [amplitude_quantize_eq, hx, nearestAway_intCast, overshoot_eq_zero_iff.mpr ho, add_zero]

theorem abs_amplitude_div_le (x : Sample (.integer s n)) :
    |(s.amplitude x : ℚ) / 2 ^ (n.bits - 1)| ≤ 1 := by
  have hpos := two_pow_pos (n.bits - 1)
  rw [abs_div, abs_of_pos hpos, div_le_one hpos]
  exact_mod_cast abs_amplitude_le x

theorem denotes_dequantize_amplitude {x : Sample (.integer s n)}
    (h : p.Represents (s.amplitude x / 2 ^ (n.bits - 1))) :
    p.Denotes (x.dequantize p) (s.amplitude x / 2 ^ (n.bits - 1)) := by
  obtain ⟨c, hc, hx⟩ := exists_dequantize p x
  have hpos := two_pow_pos (n.bits - 1)
  have hr : (dequantizingPrecision n.bits p).Represents (s.amplitude x : ℚ) := by
    have := (h.mul_two_pow (abs_amplitude_div_le x) n.pred_bits_le).of_digits_le
      (digits_le_quantizing p n.bits)
    rwa [div_mul_cancel₀ _ hpos.ne'] at this
  rw [← hc.unique (denotes_ofInt hr)] at h ⊢
  exact hx.denotes h

theorem natAbs_le_half (hlo : -2 ^ (w - 1) ≤ a) (hhi : a < 2 ^ (w - 1)) :
    a.natAbs ≤ 2 ^ (w - 1) := by
  have : ((2 ^ (w - 1) : Nat) : Int) = 2 ^ (w - 1) := by push_cast; rfl
  omega

theorem represents_fraction (hp : w ≤ p.digits) (h0 : 0 < w) (ha : a.natAbs ≤ 2 ^ (w - 1)) :
    p.Represents (a / 2 ^ (w - 1)) := by
  have hlt : a.natAbs < 2 ^ p.digits :=
    Nat.lt_of_le_of_lt ha (Nat.pow_lt_pow_right (by decide) (by omega))
  exact represents_of_eq (j := 0) hlt (Nat.zero_le _)
    ((Nat.sub_le _ _).trans (hp.trans p.digits_le_places)) (by field_simp)

theorem fraction_mul_two_pow (hw : w ≤ n.bits) (h0 : 0 < w) (a : Int) :
    (a / 2 ^ (w - 1) : ℚ) * 2 ^ (n.bits - 1) = ((a * 2 ^ (n.bits - w) : Int) : ℚ) := by
  have he : n.bits - 1 = (w - 1) + (n.bits - w) := by omega
  rw [he, pow_add]
  push_cast
  field_simp

/-- The ends do not bite: the upper one is at least as fine as the fraction. -/
theorem held_fraction (hw : w ≤ n.bits) (hp : w ≤ p.digits) (hlo : -2 ^ (w - 1) ≤ a)
    (hhi : a < 2 ^ (w - 1)) : p.held n.bits (a / 2 ^ (w - 1)) = a / 2 ^ (w - 1) := by
  have hpos := two_pow_pos (w - 1)
  have hl : (-1 : ℚ) ≤ a / 2 ^ (w - 1) := by
    rw [le_div_iff₀ hpos, neg_one_mul]
    exact_mod_cast hlo
  have hu : (a / 2 ^ (w - 1) : ℚ) ≤ 1 - 1 / 2 ^ (w - 1) := by
    rw [one_sub_div hpos.ne']
    apply div_le_div_of_nonneg_right _ hpos.le
    have : a ≤ 2 ^ (w - 1) - 1 := by omega
    exact_mod_cast this
  have hb := p.one_sub_le_bound (n := n.bits) (k := w - 1) (by omega) (by omega)
  rw [held, min_eq_left (hu.trans hb), max_eq_left hl]

/-- The amplitude `a` of `w` bits at the upper end of a sample, as a fraction. -/
theorem denotes_dequantize (hw : w ≤ n.bits) (hp : w ≤ p.digits) (h0 : 0 < w)
    (ha : a.natAbs ≤ 2 ^ (w - 1)) {x : Sample (.integer s n)}
    (hx : s.amplitude x = a * 2 ^ (n.bits - w)) :
    p.Denotes (x.dequantize p) (a / 2 ^ (w - 1)) := by
  have hd : (s.amplitude x : ℚ) / 2 ^ (n.bits - 1) = a / 2 ^ (w - 1) := by
    rw [hx, ← fraction_mul_two_pow hw h0, mul_div_cancel_right₀ _ (two_pow_pos _).ne']
  have h := denotes_dequantize_amplitude (p := p) (x := x)
    (by rw [hd]; exact represents_fraction hp h0 ha)
  rwa [hd] at h

/-- The way back: the half that rounding adds has a digit of its own or falls on an even number. -/
theorem amplitude_quantize (hw : w ≤ n.bits) (hp : w ≤ p.digits) (h0 : 0 < w)
    (hlo : -2 ^ (w - 1) ≤ a) (hhi : a < 2 ^ (w - 1)) {x : Sample (.floating p)}
    (hx : p.Denotes x (a / 2 ^ (w - 1))) :
    s.amplitude (x.quantize s n) = a * 2 ^ (n.bits - w) := by
  have hv := hp.trans (digits_le_quantizing p n.bits)
  have hs : x.steps n.bits = ((a * 2 ^ (n.bits - w) : Int) : ℚ) := by
    have hheld := held_fraction hw hv hlo hhi
    rw [held] at hheld
    rw [steps, clamped_of_denotes hx, hheld, fraction_mul_two_pow hw h0]
  apply amplitude_quantize_of_steps hs
  rcases Nat.lt_or_ge 32 n.bits with hn | hn
  · have hlt : p.digits < n.bits := by
      revert hn
      cases p <;> cases n <;> decide
    have heven : a * 2 ^ (n.bits - w) = a * 2 ^ (n.bits - w - 1) * 2 := by
      rw [mul_assoc, ← pow_succ, Nat.sub_add_cancel (by omega)]
    rw [overshoots_intCast]
    omega
  · have hpow : 2 ^ (w - 1) * 2 ^ (n.bits - w) ≤ 2 ^ 31 := by
      rw [← Nat.pow_add]
      exact Nat.pow_le_pow_right (by decide) (by omega)
    have hsmall : (a * 2 ^ (n.bits - w)).natAbs ≤ 2 ^ 31 := by
      rw [Int.natAbs_mul, Int.natAbs_pow]
      exact (Nat.mul_le_mul_right _ (natAbs_le_half hlo hhi)).trans hpow
    exact not_overshoots_intCast (hsmall.trans (by decide))

theorem floor_div_two_pow (a : ℤ) (k : Nat) : ⌊(a / 2 ^ k : ℚ)⌋ = a / 2 ^ k := by
  exact_mod_cast Rat.floor_intCast_div_natCast a (2 ^ k)

theorem ediv_two_pow_mem {k : Nat} (hlo : -2 ^ (w + k) ≤ a) (hhi : a < 2 ^ (w + k)) :
    -2 ^ w ≤ a / 2 ^ k ∧ a / 2 ^ k < 2 ^ w := by
  have hk : (0 : ℤ) < 2 ^ k := by positivity
  rw [Int.le_ediv_iff_mul_le hk, Int.ediv_lt_iff_lt_mul hk, neg_mul, ← pow_add]
  exact ⟨hlo, hhi⟩

theorem steps_narrow (hn : n.bits < w) (hp : w ≤ p.digits) (hlo : -2 ^ (w - 1) ≤ a)
    (hhi : a < 2 ^ (w - 1)) {x : Sample (.floating p)} (hx : p.Denotes x (a / 2 ^ (w - 1))) :
    ((a / 2 ^ (w - n.bits) : ℤ) : ℚ) ≤ x.steps n.bits ∧
      x.steps n.bits ≤ a / 2 ^ (w - n.bits) := by
  have hpos := two_pow_pos (n.bits - 1)
  have hd := digits_le_quantizing p n.bits
  have hexp : w - 1 = n.bits - 1 + (w - n.bits) := by
    have := n.bits_pos
    omega
  have hfrac : (a / 2 ^ (w - 1) : ℚ) * 2 ^ (n.bits - 1) = a / 2 ^ (w - n.bits) := by
    rw [hexp, pow_add]
    field_simp
  have hone : (-1 : ℚ) ≤ a / 2 ^ (w - 1) := by
    rw [le_div_iff₀ (two_pow_pos _), neg_one_mul]
    exact_mod_cast hlo
  have hfloor : ((a / 2 ^ (w - n.bits) : ℤ) : ℚ) ≤ a / 2 ^ (w - n.bits) := by
    rw [← floor_div_two_pow]
    exact Int.floor_le _
  have hend : ((a / 2 ^ (w - n.bits) : ℤ) : ℚ) / 2 ^ (n.bits - 1) ≤ 1 - 1 / 2 ^ (n.bits - 1) := by
    rw [one_sub_div hpos.ne']
    apply div_le_div_of_nonneg_right _ hpos.le
    exact_mod_cast Int.le_sub_one_of_lt (ediv_two_pow_mem (hexp ▸ hlo) (hexp ▸ hhi)).2
  rw [steps, clamped_of_denotes hx]
  constructor
  · rw [← div_le_iff₀ hpos]
    refine le_max_of_le_left (le_min (by rwa [div_le_iff₀ hpos, hfrac]) ?_)
    exact hend.trans (one_sub_le_bound _ le_rfl (by omega))
  · rw [← hfrac]
    exact mul_le_mul_of_nonneg_right (max_le (min_le_left _ _) hone) hpos.le

theorem amplitude_quantize_narrow (hn : n.bits < w) (h32 : w ≤ 32) (hp : w ≤ p.digits)
    (hlo : -2 ^ (w - 1) ≤ a) (hhi : a < 2 ^ (w - 1)) {x : Sample (.floating p)}
    (hx : p.Denotes x (a / 2 ^ (w - 1))) :
    a / 2 ^ (w - n.bits) ≤ s.amplitude (x.quantize s n) ∧
      s.amplitude (x.quantize s n) ≤ a / 2 ^ (w - n.bits) + 1 := by
  obtain ⟨hdown, hup⟩ := steps_narrow hn hp hlo hhi hx
  have hexp : w - 1 = n.bits - 1 + (w - n.bits) := by
    have := n.bits_pos
    omega
  have h31 : (2 : ℤ) ^ (n.bits - 1) ≤ 2 ^ 31 := pow_le_pow_right₀ (by decide) (by omega)
  have hmem := ediv_two_pow_mem (hexp ▸ hlo) (hexp ▸ hhi)
  apply amplitude_quantize_mem _ _ (by omega) (by omega) hdown
  rw [← floor_div_two_pow]
  push_cast
  exact hup.trans (Int.lt_floor_add_one _).le

theorem quantize_dequantize (h : n.bits ≤ p.digits) (x : Sample (.integer s n)) :
    (x.dequantize p).quantize s n = x := by
  have hlo : -2 ^ (n.bits - 1) ≤ s.amplitude x := s.le_amplitude x
  have hhi : s.amplitude x < 2 ^ (n.bits - 1) := s.amplitude_lt n.bits_pos x
  have hd := denotes_dequantize_amplitude (p := p) (x := x)
    (represents_fraction h n.bits_pos (s.natAbs_amplitude_le n.bits_pos x))
  apply s.amplitude_injective
  rw [amplitude_quantize le_rfl h n.bits_pos hlo hhi hd, Nat.sub_self, pow_zero, mul_one]

end RawPcm.Sample
