import RawPcm.Proofs.Sample.Rounding
import RawPcm.Proofs.Codec.Amplitude

/-! Floating point numbers in 24 bits: rounded to 32 bits, of which the last byte is cut off. -/
namespace RawPcm
open Precision
variable {p : Precision} {s : Signedness} {o : ByteOrder}

namespace Sample

/-- At 32 bits only the two numbers next to a half are carried too far. -/
theorem overshoots_steps_w32 {x : Sample (.floating p)} (h : Overshoots (x.steps 32)) :
    |x.steps 32| = 1 / 2 - 1 / 2 ^ 54 := by
  refine h.resolve_right fun hbig => ?_
  have hlo : -2 ^ 31 ≤ x.steps 32 := x.le_steps 32
  have hhi : x.steps 32 ≤ 2 ^ 31 - 1 := x.steps_le 32
  have : |x.steps 32| ≤ 2 ^ 31 := abs_le.mpr ⟨by linarith, by linarith⟩
  linarith [hbig.1]

theorem steps_w32 (x : Sample (.floating p)) :
    x.steps 32 = p.clamped (1 - 1 / 2 ^ 31) x * 2 ^ 31 := by
  have hq : quantizingPrecision p 32 = .double := if_pos (.inl (by decide))
  have hb : double.bound 32 = 1 - 1 / 2 ^ 31 := double.bound_eq 32
  rw [steps, hq, hb]

theorem amplitude_div_w32 {x : Sample (.floating p)} (hx : x.steps 32 ≠ -(1 / 2 - 1 / 2 ^ 54)) :
    s.amplitude (x.quantize s .w32) / 2 ^ 8 = nearestAway (x.steps 32) / 2 ^ 8 := by
  rw [amplitude_quantize_eq]
  by_cases h : Overshoots (x.steps 32)
  · have heq : x.steps 32 = 1 / 2 - 1 / 2 ^ 54 := by
      have habs := overshoots_steps_w32 h
      rw [abs_eq (by norm_num)] at habs
      exact habs.resolve_right hx
    have hn : nearestAway (x.steps 32) = 0 := by
      rw [heq]
      norm_num [nearestAway]
    have ho : overshoot (x.steps 32) = 1 := by
      rw [overshoot, if_pos h, if_neg]
      rw [heq]
      norm_num
    rw [hn, ho]
    rfl
  · rw [overshoot, if_neg h, add_zero]

end Sample

namespace Format

theorem centred_encode_w24 (x : Sample (.floating p)) :
    centred s .w24 o ((integer s .w24 o).encode x) = s.amplitude (x.quantize s .w32) / 2 ^ 8 := by
  rw [encode_eq, centred_unstaged]
  exact scaled_down (width_le_staging (o := o) (s := s)) _

theorem write_w24_floating {bytes : List UInt8} (hb : 3 ≤ bytes.length) {x : Sample (.floating p)}
    (hx : p.clamped (1 - 1 / 2 ^ 31) x * 2 ^ 31 ≠ -(1 / 2 - 1 / 2 ^ 54)) :
    ∃ chunk, (integer s .w24 o).write bytes x = (.ok (), chunk ++ bytes.drop 3) ∧ chunk.length = 3 ∧
      centred s .w24 o chunk = nearestAway (p.clamped (1 - 1 / 2 ^ 31) x * 2 ^ 31) / 2 ^ 8 := by
  refine ⟨(integer s .w24 o).encode x, write_of_le (integer s .w24 o) hb x, length_encode .., ?_⟩
  rw [← Sample.steps_w32] at hx ⊢
  rw [centred_encode_w24, Sample.amplitude_div_w32 hx]

theorem write_w24_below_zero :
    3 ≤ [0, 0, 0, 7].length ∧
      double.clamped (1 - 1 / 2 ^ 31) 0xbe08000000000000#64 * 2 ^ 31 ≠ -(1 / 2 - 1 / 2 ^ 54) ∧
      ∃ chunk, (integer .signed .w24 .little).write (t := .f64) [0, 0, 0, 7] 0xbe08000000000000#64 =
          (.ok (), chunk ++ [7]) ∧
        chunk.length = 3 ∧ centred .signed .w24 .little chunk = nearestAway (-3 / 2) / 2 ^ 8 := by
  have hx : double.Denotes 0xbe08000000000000#64 _ :=
    denotes_significand (e := 991) (f := 3 * 2 ^ 51) (k := 83) true (by decide) (by decide) rfl
  have hc : double.clamped (1 - 1 / 2 ^ 31) 0xbe08000000000000#64 * 2 ^ 31 = -3 / 2 := by
    rw [clamped_of_denotes hx]
    norm_num [Datum.signed]
  have hne : double.clamped (1 - 1 / 2 ^ 31) 0xbe08000000000000#64 * 2 ^ 31 ≠
      -(1 / 2 - 1 / 2 ^ 54) := by
    rw [hc]
    norm_num
  have h := write_w24_floating (s := .signed) (o := .little)
    (by decide : 3 ≤ ([0, 0, 0, 7] : List UInt8).length) hne
  rw [hc] at h
  exact ⟨by decide, hne, h⟩

theorem write_w24_three_quarters :
    (integer .signed .w24 .big).write (t := .f64) [1, 1, 1] 0x3e78000000000000#64 =
        (.ok (), [0, 0, 0]) ∧
      centred .signed .w24 .big [0, 0, 0] = 0 ∧
      nearestAway (double.clamped (1 - 1 / 2 ^ 23) 0x3e78000000000000#64 * 2 ^ 23) = 1 := by
  have hx : double.Denotes 0x3e78000000000000#64 _ :=
    denotes_significand (e := 998) (f := 3 * 2 ^ 51) (k := 76) false (by decide) (by decide) rfl
  refine ⟨by decide +kernel, by decide, ?_⟩
  rw [clamped_of_denotes hx]
  norm_num [Datum.signed, nearestAway]

end Format
end RawPcm
