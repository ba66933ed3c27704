import RawPcm.Proofs.Floating.Twice
import RawPcm.Proofs.Sample.Fraction

/-! Integers as floating point numbers: the nearest ones, unless the two roundings of a long integer
go on in one direction. -/
namespace RawPcm.Sample
open Precision
variable {p : Precision} {s : Signedness} {n : WordSize} {c : ℚ}

def fraction (x : Sample (.integer s n)) : ℚ :=
  s.amplitude x / 2 ^ (n.bits - 1)

theorem abs_fraction_le (x : Sample (.integer s n)) : |x.fraction| ≤ 1 :=
  abs_amplitude_div_le x

theorem represents_fraction_of_ne (hn : n ≠ .w64) (x : Sample (.integer s n)) :
    double.Represents x.fraction := by
  have hd : n.bits ≤ double.digits := by
    revert hn
    cases n <;> decide
  exact represents_fraction hd n.bits_pos (s.natAbs_amplitude_le n.bits_pos x)

theorem represents_fraction_of_shift {x : Sample (.integer s n)} {m : ℤ} {j : Nat}
    (hx : s.amplitude x = m * 2 ^ j) (hm : m.natAbs < 2 ^ p.digits) : p.Represents x.fraction := by
  have hk : n.bits - 1 ≤ p.places := n.pred_bits_le.trans (by cases p <;> decide)
  have hpos := two_pow_pos (n.bits - 1)
  rcases eq_or_ne m 0 with rfl | h0
  · rw [fraction, hx, zero_mul, Int.cast_zero, zero_div]
    exact p.represents_zero
  · have hj : 2 ^ j ≤ 2 ^ (n.bits - 1) := by
      have hle := s.natAbs_amplitude_le n.bits_pos x
      rw [hx, Int.natAbs_mul, Int.natAbs_pow] at hle
      exact (Nat.le_mul_of_pos_left _ (Int.natAbs_pos.mpr h0)).trans hle
    have hj := (Nat.pow_le_pow_iff_right (by decide)).mp hj
    refine represents_of_eq hm (hj.trans n.pred_bits_le) hk ?_
    rw [fraction, div_mul_cancel₀ _ hpos.ne', hx]
    push_cast
    rfl

theorem rounds_dequantize_double (x : Sample (.integer s n)) :
    double.Rounds (x.dequantize .double) x.fraction := by
  obtain ⟨c, hc, hx⟩ := exists_dequantize .double x
  rw [dequantizingPrecision_double] at hc
  have hd := hx.denotes (hc.represents.div_two_pow n.pred_bits_le)
  rcases eq_or_ne c 0 with rfl | h0
  · have ha := eq_of_denotes_ofInt hc (by decide)
    rw [fraction, ← ha]
    exact hd.rounds
  · obtain ⟨y, hy⟩ := double.exists_rounds x.fraction
    have hm : (s.amplitude x).natAbs < 2 ^ 64 := by
      have := n.bits_le
      exact (s.natAbs_amplitude_le n.bits_pos x).trans_lt
        (Nat.pow_lt_pow_right (by decide) (by omega))
    have hyd := (rounds_ofInt _).div_two_pow hm n.pred_bits_le hc hy
    have hne : (c / 2 ^ (n.bits - 1) : ℚ) ≠ 0 :=
      div_ne_zero (by exact_mod_cast h0) (two_pow_pos _).ne'
    rwa [hd.injective hyd hne]

theorem rounds_dequantize_single {x : Sample (.integer s n)}
    (hc : double.Denotes (x.dequantize .double) c) : single.Rounds (x.dequantize .single) c := by
  rcases Nat.lt_or_ge 23 n.bits with hn | hn
  · have hd : x.dequantize .single = double.cast .single (x.dequantize .double) := by
      cases n <;> first | rfl | exact absurd hn (by decide)
    rw [hd]
    exact rounds_cast .single hc
  · have hdig : n.bits ≤ single.digits := by
      revert hn
      cases n <;> decide
    have hr := represents_fraction (p := .single) hdig n.bits_pos (s.natAbs_amplitude_le n.bits_pos x)
    rw [hc.unique (denotes_dequantize_amplitude hr.widen)]
    exact (denotes_dequantize_amplitude hr).rounds

/-- In double precision an integer becomes the nearest number to its fraction of full scale, in single
precision the nearest to that number. This is the nearest to the fraction as well unless the first
rounding ends halfway and the second goes on, which only 64 bits are enough for. What has the digits
is not rounded. -/
theorem isNearest_convert_integer (x : Sample (.integer s n)) :
    double.IsNearest (convert .f64 x) x.fraction ∧
      (∃ c d, double.Denotes (convert .f64 x) c ∧ single.Denotes (convert .f32 x) d ∧
        single.IsNearest (convert .f32 x) c ∧
        (single.IsNearest (convert .f32 x) x.fraction ↔ ¬ single.RoundsOn x.fraction c d) ∧
        (n ≠ .w64 → c = x.fraction)) ∧
      ∀ (p : Precision) (m : ℤ) (j : Nat), s.amplitude x = m * 2 ^ j → m.natAbs < 2 ^ p.digits →
        p.Denotes (convert (.floating p) x) x.fraction := by
  have hz : double.Rounds (convert .f64 x) x.fraction := rounds_dequantize_double x
  have hone (p : Precision) : p.Represents 1 := p.denotes_one.represents
  obtain ⟨c, hc⟩ := hz.exists_denotes (hone _) (abs_fraction_le x)
  have hy : single.Rounds (convert .f32 x) c := rounds_dequantize_single hc
  obtain ⟨d, hd⟩ := hy.exists_denotes (hone _) (hz.abs_le_of_abs_le hc (hone _) (abs_fraction_le x))
  refine ⟨hz.isNearest hc, ⟨c, d, hc, hd, hy.isNearest hd, isNearest_iff_not_roundsOn hz hc hy hd,
    fun hn => hc.unique (hz.denotes (represents_fraction_of_ne hn x))⟩, fun p m j hx hm => ?_⟩
  exact denotes_dequantize_amplitude (represents_fraction_of_shift hx hm)

theorem isNearest_convert_greatest_of_32_bits :
    WordSize.w32 ≠ .w64 ∧ Signedness.signed.amplitude 0x7fffffff#32 = (2 ^ 31 - 1) * 2 ^ 0 ∧
      (2 ^ 31 - 1 : ℤ).natAbs < 2 ^ double.digits ∧
      double.Denotes (convert (s := .i32) .f64 0x7fffffff#32)
        (fraction (s := .signed) (n := .w32) 0x7fffffff#32) ∧
      single.IsNearest (convert (s := .i32) .f32 0x7fffffff#32)
        (fraction (s := .signed) (n := .w32) 0x7fffffff#32) := by
  obtain ⟨-, ⟨c, d, -, -, hnear, -, hc⟩, hexact⟩ :=
    isNearest_convert_integer (s := .signed) (n := .w32) 0x7fffffff#32
  have hm : (2 ^ 31 - 1 : ℤ).natAbs < 2 ^ double.digits := by decide
  refine ⟨by decide, by decide, hm, hexact .double (2 ^ 31 - 1) 0 (by decide) hm, ?_⟩
  rwa [hc (by decide)] at hnear

/-- Just above halfway, the first rounding ends halfway and the second goes on down. -/
theorem convert_w64_rounds_on :
    convert (s := .i64) .f32 0x20000020000001#64 = 0x3a800000#32 ∧
      ¬ single.IsNearest (convert (s := .i64) .f32 0x20000020000001#64)
        (fraction (s := .signed) (n := .w64) 0x20000020000001#64) := by
  have hy : convert (s := .i64) .f32 0x20000020000001#64 = 0x3a800000#32 := by decide +kernel
  have hd : single.Denotes 0x3a800000#32 _ :=
    denotes_significand (e := 116) (f := 2 ^ 23) (k := 33) false (by decide) (by decide) rfl
  have hb : single.Denotes 0x3a800001#32 _ :=
    denotes_significand (e := 116) (f := 2 ^ 23 + 1) (k := 33) false (by decide) (by decide) rfl
  have hx : Signedness.signed.amplitude 0x20000020000001#64 = 2 ^ 53 + 2 ^ 29 + 1 := by decide
  refine ⟨hy, ?_⟩
  rw [hy]
  rintro ⟨c, hc, hbest⟩
  have hle := (hbest _ hb.represents).1
  rw [hc.unique hd, fraction, hx] at hle
  norm_num [Datum.signed, abs_le] at hle

end RawPcm.Sample
