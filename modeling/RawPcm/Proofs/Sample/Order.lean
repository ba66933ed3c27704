import RawPcm.Proofs.Sample.Rounding

/-! No conversion brings two values out of order. -/
namespace RawPcm

theorem scaled_mono (m n : Nat) {a b : Int} (h : a ≤ b) : scaled m n a ≤ scaled m n b := by
  rw [scaled, scaled]
  split
  · exact Int.ediv_le_ediv (Int.pow_pos (by decide)) h
  · exact Int.mul_le_mul_of_nonneg_right h (Int.le_of_lt (Int.pow_pos (by decide)))

theorem Signedness.value_le_iff {n : Nat} (s : Signedness) (x y : BitVec n) :
    s.value x ≤ s.value y ↔ s.amplitude x ≤ s.amplitude y := by
  cases s with
  | signed => rfl
  | unsigned => exact (Int.sub_le_sub_right_iff).symm

namespace Precision
variable {p : Precision} {x y : BitVec p.bits}

theorem clamped_mono {hi : ℚ} (hhi : -1 ≤ hi) (h : (p.datum x).le (p.datum y) = true) :
    p.clamped hi x ≤ p.clamped hi y := by
  rcases le_cases h with he | he | ⟨a, b, ha, hb, hab⟩
  · have hc : p.clamped hi x = -1 := by simp [clamped, he]
    exact hc.trans_le (le_clamped hhi y)
  · have hc : p.clamped hi y = hi := by simp [clamped, he]
    exact (clamped_le hhi x).trans_eq hc.symm
  · rw [clamped_of_denotes ha, clamped_of_denotes hb]
    exact max_le_max (min_le_min hab le_rfl) le_rfl

end Precision

namespace Sample
open Precision
variable {s : Signedness} {n : WordSize} {p : Precision}

/-- At most, in the order of the type; a NaN is not even at most itself. -/
def le {t : SampleType} (x y : Sample t) : Bool := !isNaN x && !isNaN y && !lt y x

theorem le_integer_iff {x y : Sample (.integer s n)} :
    le x y = true ↔ s.amplitude x ≤ s.amplitude y := by
  rw [← Signedness.value_le_iff, ← not_lt]
  simp [le, isNaN, lt]

theorem quantize_mono {x y : Sample (.floating p)} (h : le x y = true) :
    s.amplitude (x.quantize s n) ≤ s.amplitude (y.quantize s n) := by
  obtain ⟨u, hu, hxu⟩ := amplitude_quantize_roundAway s n x
  obtain ⟨v, hv, hyv⟩ := amplitude_quantize_roundAway s n y
  rw [hxu, hyv]
  apply roundAway_mono hu hv x.abs_steps_le y.abs_steps_le
  exact mul_le_mul_of_nonneg_right (clamped_mono (le_bound _ _) h) (two_pow_pos _).le

theorem dequantize_mono {x y : Sample (.integer s n)} (h : s.amplitude x ≤ s.amplitude y) :
    le (t := .floating p) (x.dequantize p) (y.dequantize p) = true := by
  obtain ⟨c, hc, hx⟩ := exists_dequantize p x
  obtain ⟨d, hd, hy⟩ := exists_dequantize p y
  have hcd := hc.le_of_rank_le hd ((rounds_ofInt _).rank_le (rounds_ofInt _) (by exact_mod_cast h))
  exact hx.le_datum hy (by gcongr)

theorem le_convert {s : SampleType} (t : SampleType) {x y : Sample s} (h : le x y = true) :
    le (convert t x) (convert t y) = true := by
  cases s with
  | integer s m =>
    have h := le_integer_iff.mp h
    cases t with
    | integer t n =>
      rw [le_integer_iff, convert, convert, Signedness.amplitude_rescale m.bits_pos n.bits_pos,
        Signedness.amplitude_rescale m.bits_pos n.bits_pos]
      exact scaled_mono _ _ h
    | floating q => exact dequantize_mono h
  | floating p =>
    cases t with
    | integer t n => exact le_integer_iff.mpr (quantize_mono h)
    | floating q => exact cast_mono q (cast_mono .double h)

theorem le_convert_halfway :
    le (t := .f64) 0x3f40000000000001#64 0x3f40000000000002#64 = true ∧
      le (convert (s := .f64) .i64 0x3f40000000000001#64)
        (convert (s := .f64) .i64 0x3f40000000000002#64) = true := by
  have h : le (t := .f64) 0x3f40000000000001#64 0x3f40000000000002#64 = true := by decide +kernel
  exact ⟨h, le_convert .i64 h⟩

end Sample
end RawPcm
