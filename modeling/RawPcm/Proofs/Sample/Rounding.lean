import RawPcm.Proofs.Sample.HalfAway

/-! Floating point numbers as the nearest integers, unless a half carries them too far. -/
namespace RawPcm
namespace Precision
variable {p : Precision}

theorem clamped_cast {q : Precision} (h : p.digits ≤ q.digits) (hi : ℚ) (x : BitVec p.bits) :
    q.clamped hi (p.cast q x) = p.clamped hi x := by
  cases p with
  | double =>
    cases q with
    | single => exact absurd h (by decide)
    | double => rfl
  | single =>
    cases q with
    | single => rfl
    | double =>
      cases hd : single.datum x with
      | nan =>
        have hn : double.datum (single.cast .double x) = .nan := by
          simp only [cast, resize, hd]
          apply datum_nanWith
          rw [Nat.div_lt_iff_lt_mul (Nat.two_pow_pos _), Nat.mul_comm]
          exact Nat.mul_lt_mul_of_pos_left (Nat.mod_lt _ (Nat.two_pow_pos _)) (Nat.two_pow_pos _)
        simp only [clamped, hn, hd]
      | infinite negative =>
        have hn : double.datum (single.cast .double x) = .infinite negative := by
          simp only [cast, resize, hd, datum_infinityOf]
        simp only [clamped, hn, hd]
      | finite negative n =>
        have hx := denotes_of_datum hd
        rw [clamped_of_denotes hx, clamped_of_denotes (denotes_cast hx.represents.widen hx)]

theorem bound_le (p : Precision) (n : Nat) : p.bound n ≤ 1 - 1 / 2 ^ (n - 1) := by
  have := le_max_left (1 / 2 ^ (n - 1) : ℚ) (1 / 2 ^ (p.digits - 1))
  rw [bound]
  linarith

theorem truncate_mem {lo hi : Int} (hlo : lo ≤ 0) (hhi : 0 ≤ hi) (x : BitVec p.bits) :
    lo ≤ p.truncate lo hi x ∧ p.truncate lo hi x ≤ hi := by
  unfold truncate
  split
  · exact ⟨hlo, hhi⟩
  · split <;> omega
  · omega

end Precision

namespace Sample
open Precision
variable {p : Precision}

/-- How many steps of an integer of some bits a sample is from silence, before rounding. -/
def steps (x : Sample (.floating p)) (bits : Nat) : ℚ :=
  p.clamped ((quantizingPrecision p bits).bound bits) x * 2 ^ (bits - 1)

variable {s : Signedness} {n : WordSize}

theorem le_steps (x : Sample (.floating p)) (bits : Nat) : -2 ^ (bits - 1) ≤ x.steps bits := by
  have := mul_le_mul_of_nonneg_right (le_clamped (le_bound (quantizingPrecision p bits) bits) x)
    (two_pow_pos (bits - 1)).le
  rw [steps]
  linarith

theorem steps_le_bound (x : Sample (.floating p)) (bits : Nat) :
    x.steps bits ≤ (quantizingPrecision p bits).bound bits * 2 ^ (bits - 1) :=
  mul_le_mul_of_nonneg_right (clamped_le (le_bound _ bits) x) (two_pow_pos _).le

theorem steps_le (x : Sample (.floating p)) (bits : Nat) :
    x.steps bits ≤ 2 ^ (bits - 1) - 1 := by
  have hpos := two_pow_pos (bits - 1)
  have := mul_le_mul_of_nonneg_right (bound_le (quantizingPrecision p bits) bits) hpos.le
  rw [sub_mul, one_mul, one_div, inv_mul_cancel₀ hpos.ne'] at this
  exact (x.steps_le_bound bits).trans this

theorem two_pow_le (n : WordSize) : (2 : ℚ) ^ (n.bits - 1) ≤ 2 ^ 63 := by
  have := n.bits_le
  exact pow_le_pow_right₀ (by norm_num) (by omega)

theorem abs_steps_le (x : Sample (.floating p)) : |x.steps n.bits| ≤ 2 ^ 63 := by
  have hlo := x.le_steps n.bits
  have hhi := x.steps_le n.bits
  have := two_pow_le n
  exact abs_le.mpr ⟨by linarith, by linarith⟩

theorem quantize_eq (x : Sample (.floating p)) : ∃ y, double.Denotes y (x.steps n.bits) ∧
    x.quantize s n = Signedness.signed.recode s (BitVec.ofInt n.bits (roundAway y)) := by
  obtain ⟨y, hy, he⟩ := quantize_eq_roundAway (p := quantizingPrecision p n.bits) n.bits_le
    (toFloating _ x)
  have hc : (quantizingPrecision p n.bits).clamped ((quantizingPrecision p n.bits).bound n.bits)
      (toFloating (quantizingPrecision p n.bits) x) = p.clamped _ x :=
    clamped_cast (digits_le_quantizing p n.bits) _ x
  rw [hc] at hy
  exact ⟨y, hy, by rw [quantize, he]⟩

/-- Up to 32 bits the ends are integers that rounding does not move; 64 bits are what it is cut to. -/
theorem roundAway_mem {x : Sample (.floating p)} {y : BitVec double.bits}
    (hy : double.Denotes y (x.steps n.bits)) :
    -2 ^ (n.bits - 1) ≤ roundAway y ∧ roundAway y < 2 ^ (n.bits - 1) := by
  have hsmall (hn : n.bits ≤ 32) :
      -2 ^ (n.bits - 1) ≤ roundAway y ∧ roundAway y < 2 ^ (n.bits - 1) := by
    have h32 : (2 : Int) ^ (n.bits - 1) ≤ 2 ^ 31 := pow_le_pow_right₀ (by decide) (by omega)
    have hpos : (0 : Int) < 2 ^ (n.bits - 1) := by positivity
    have hlo := x.le_steps n.bits
    have hhi := x.steps_le n.bits
    have := roundAway_mem_Icc (-2 ^ (n.bits - 1)) (2 ^ (n.bits - 1) - 1) (by omega)
      (by omega) (not_overshoots_intCast (by omega)) (not_overshoots_intCast (by omega)) hy
      (by push_cast; exact hlo) (by push_cast; exact hhi)
    omega
  cases n with
  | w64 =>
    have hmin : Signedness.signed.least 64 = -2 ^ 63 := rfl
    have hmax : Signedness.signed.greatest 64 = 2 ^ 63 - 1 := rfl
    have htrunc (z : BitVec double.bits) := truncate_mem (by decide : (-2 ^ 63 : Int) ≤ 0)
      (by decide : (0 : Int) ≤ 2 ^ 63 - 1) z
    have hmem : -2 ^ 63 ≤ roundAway y ∧ roundAway y ≤ 2 ^ 63 - 1 := by
      simp only [roundAway, hmin, hmax]
      split <;> exact htrunc _
    have h64 : (2 : Int) ^ (WordSize.w64.bits - 1) = 2 ^ 63 := rfl
    omega
  | _ => exact hsmall (by decide)

theorem amplitude_quantize_roundAway (s : Signedness) (n : WordSize) (x : Sample (.floating p)) :
    ∃ y, double.Denotes y (x.steps n.bits) ∧ s.amplitude (x.quantize s n) = roundAway y := by
  obtain ⟨y, hy, he⟩ := quantize_eq (s := s) (n := n) x
  obtain ⟨hlo, hhi⟩ := roundAway_mem hy
  refine ⟨y, hy, ?_⟩
  rw [he, Signedness.amplitude_recode n.bits_pos]
  exact BitVec.toInt_ofInt_eq_self n.bits_pos hlo hhi

theorem amplitude_quantize_mem (lo hi : ℤ) (hlo : lo.natAbs ≤ 2 ^ 52) (hhi : hi.natAbs ≤ 2 ^ 52)
    {x : Sample (.floating p)} (h : lo ≤ x.steps n.bits) (h' : x.steps n.bits ≤ hi) :
    lo ≤ s.amplitude (x.quantize s n) ∧ s.amplitude (x.quantize s n) ≤ hi := by
  obtain ⟨y, hy, he⟩ := amplitude_quantize_roundAway s n x
  rw [he]
  exact roundAway_mem_Icc lo hi (by omega) (by omega) (not_overshoots_intCast hlo)
    (not_overshoots_intCast hhi) hy h h'

theorem amplitude_quantize_eq (x : Sample (.floating p)) :
    s.amplitude (x.quantize s n) =
      nearestAway (x.steps n.bits) + overshoot (x.steps n.bits) := by
  obtain ⟨y, hy, he⟩ := amplitude_quantize_roundAway s n x
  have hlo := (abs_le.mp (x.abs_steps_le (n := n))).1
  have hhi := x.steps_le n.bits
  have := two_pow_le n
  rw [he, roundAway_eq hy hlo (by linarith)]

theorem abs_amplitude_le (x : Sample (.integer s n)) : |s.amplitude x| ≤ 2 ^ (n.bits - 1) :=
  abs_le.mpr ⟨s.le_amplitude x, (s.amplitude_lt n.bits_pos x).le⟩

theorem exists_dequantize (p : Precision) (x : Sample (.integer s n)) : ∃ c : ℤ,
    (dequantizingPrecision n.bits p).Denotes
      ((dequantizingPrecision n.bits p).ofInt (s.amplitude x)) c ∧
    p.Rounds (x.dequantize p) (c / 2 ^ (n.bits - 1)) := by
  have hi : (s.recode .signed x).toInt = s.amplitude x :=
    Signedness.amplitude_recode n.bits_pos s .signed x
  rw [dequantize, hi]
  generalize dequantizingPrecision n.bits p = w
  have hr := rounds_ofInt (p := w) (s.amplitude x)
  obtain ⟨c, hc⟩ := hr.exists_denotes (represents_two_pow n.pred_bits_le)
    (by exact_mod_cast abs_amplitude_le x)
  obtain ⟨m, hm⟩ := Rounds.exists_int (k := 0) (Nat.zero_le _) (by simpa using hr) hc
  obtain rfl : c = m := by simpa using hm
  have hd := denotes_div (hc.represents.div_two_pow n.pred_bits_le) (two_pow_pos _).ne' hc
    (denotes_two_pow n.pred_bits_le)
  exact ⟨m, hc, rounds_cast p hd⟩

theorem quantize_congr {x y : Sample (.floating p)} (h : x.steps n.bits = y.steps n.bits) :
    x.quantize s n = y.quantize s n := by
  apply s.amplitude_injective
  rw [amplitude_quantize_eq, amplitude_quantize_eq, h]

theorem not_overshoots (hlo : 1 / 2 * 2 ^ (n.bits - 1) ≤ |a|) (hhi : |a| ≤ 2 ^ (n.bits - 1)) :
    ¬ Overshoots a := by
  rintro (h | ⟨h52, h53, -⟩)
  · rw [h] at hlo
    cases n <;> norm_num at hlo
  · cases n <;> norm_num at hlo hhi <;> linarith

theorem overshoot_steps_single (x : Sample (.floating .single)) :
    overshoot (x.steps n.bits) = 0 := by
  rw [overshoot, if_neg]
  have hpos := two_pow_pos (n.bits - 1)
  have hend {c : ℚ} (hc : 1 / 2 ≤ |c|) (hc1 : |c| ≤ 1) : ¬ Overshoots (c * 2 ^ (n.bits - 1)) := by
    apply not_overshoots (n := n) <;> rw [abs_mul, abs_of_pos hpos]
    · exact mul_le_mul_of_nonneg_right hc hpos.le
    · exact mul_le_of_le_one_left hpos.le hc1
  have hb := half_le_bound (quantizingPrecision .single n.bits) n.one_lt_bits
  have h1 := bound_lt_one (quantizingPrecision .single n.bits) n.bits
  rcases clamped_eq_or_denotes (p := .single) (bound _ n.bits) x with he | he | he
  · rw [steps, he]
    exact hend (hb.trans (le_abs_self _)) (abs_le.mpr ⟨by linarith, h1.le⟩)
  · rw [steps, he]
    exact hend (by norm_num) (by norm_num)
  · obtain ⟨y, hy, -⟩ := quantize_eq (s := .signed) (n := n) x
    have hd : 2 ^ single.digits = 2 ^ 24 := rfl
    intro h
    obtain ⟨m, j, hodd, hlt, hm⟩ := h.exists_odd hy.represents
    rw [steps, abs_mul, abs_of_pos hpos, mul_assoc, ← pow_add] at hm
    have := he.represents.lt_of_odd hodd hm
    omega

theorem amplitude_convert_floating (s : Signedness) (n : WordSize) (x : Sample (.floating p)) :
    s.amplitude (convert (.integer s n) x) =
        nearestAway (x.steps n.bits) + overshoot (x.steps n.bits) ∧
      (p = .double ∨ overshoot (x.steps n.bits) = 0) := by
  refine ⟨amplitude_quantize_eq x, ?_⟩
  cases p with
  | single => exact .inr x.overshoot_steps_single
  | double => exact .inl rfl

theorem convert_below_a_half :
    Signedness.signed.amplitude (convert (s := .f64) .i8 0x3f6fffffffffffff#64) = 1 ∧
      nearestAway (steps (p := .double) 0x3f6fffffffffffff#64 8) = 0 := by
  have hx : double.Denotes 0x3f6fffffffffffff#64 _ :=
    denotes_significand (e := 1013) (f := 2 ^ 53 - 1) (k := 61) false (by decide) (by decide) rfl
  refine ⟨by decide +kernel, ?_⟩
  rw [steps, clamped_of_denotes hx]
  norm_num [quantizingPrecision, bound, digits, Datum.signed, nearestAway]

end Sample
end RawPcm
