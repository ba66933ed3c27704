import RawPcm.Proofs.Sample.Order
import RawPcm.Proofs.Codec.Choice

/-! Floating point numbers beyond the range of an integer format are written as the samples at its
ends. -/
namespace RawPcm
open Precision
variable {p : Precision} {s : Signedness} {n : WordSize}

theorem scaled_least {i j : Nat} (h : j ≤ i) (h0 : 0 < j) :
    scaled i j (-2 ^ (i - 1)) = -2 ^ (j - 1) := by
  have hpos : (0 : Int) < 2 ^ (i - j) := by positivity
  have hexp : i - 1 = (j - 1) + (i - j) := by omega
  rw [scaled_down h, hexp, pow_add, ← neg_mul, Int.mul_ediv_cancel _ hpos.ne']

theorem scaled_zero (i j : Nat) : scaled i j 0 = 0 := by
  simp [scaled]

namespace Precision
variable {x : BitVec p.bits} {hi : ℚ}

/-- From one on everything is held at the upper end, and so is a NaN. -/
theorem clamped_of_one_le (hlo : -1 ≤ hi) (hhi : hi ≤ 1)
    (h : (p.datum x).isNaN = true ∨ (p.datum (p.ofInt 1)).le (p.datum x) = true) :
    p.clamped hi x = hi := by
  rcases h with h | h
  · cases hd : p.datum x with
    | nan => simp only [clamped, hd]
    | infinite negative => simp [hd, Datum.isNaN] at h
    | finite negative m => simp [hd, Datum.isNaN] at h
  · apply le_antisymm (clamped_le hlo x)
    have hone : p.clamped hi (p.ofInt 1) = hi := by
      rw [clamped_of_denotes p.denotes_one, min_eq_right hhi, max_eq_left hlo]
    exact hone.ge.trans (clamped_mono hlo h)

theorem clamped_of_le_neg_one (hlo : -1 ≤ hi)
    (h : (p.datum x).le (p.datum (p.ofInt (-1))) = true) : p.clamped hi x = -1 := by
  apply le_antisymm _ (le_clamped hlo x)
  have hone : p.clamped hi (p.ofInt (-1)) = -1 := clamped_of_mem p.denotes_neg_one le_rfl hlo
  exact (clamped_mono hlo h).trans_eq hone

end Precision

namespace Sample
variable {x : Sample (.floating p)}

theorem amplitude_quantize_of_one_le
    (h : isNaN x = true ∨ le (t := .floating p) (p.ofInt 1) x = true) :
    s.amplitude (x.quantize s n) = n.top := by
  have hb := (quantizingPrecision p n.bits).le_bound n.bits
  have hb1 := (quantizingPrecision p n.bits).bound_lt_one n.bits
  apply amplitude_quantize_of_steps
  · rw [steps, clamped_of_one_le hb hb1.le h, bound_mul]
  · rw [overshoots_intCast]
    cases n <;> decide

theorem amplitude_quantize_of_le_neg_one (h : le (t := .floating p) x (p.ofInt (-1)) = true) :
    s.amplitude (x.quantize s n) = -2 ^ (n.bits - 1) := by
  have hb := (quantizingPrecision p n.bits).le_bound n.bits
  apply amplitude_quantize_of_steps
  · rw [steps, clamped_of_le_neg_one hb h]
    push_cast
    rw [neg_one_mul]
  · rw [overshoots_intCast]
    cases n <;> decide

theorem amplitude_quantize_zero (s : Signedness) (n : WordSize) :
    s.amplitude (quantize (p := p) (p.ofInt 0) s n) = 0 := by
  have h0 : p.Denotes (p.ofInt 0) ((0 : Int) / 2 ^ (n.bits - 1)) := by
    simpa using denotes_int (p := p) (a := 0) (Nat.two_pow_pos _)
  have hb := half_le_bound (quantizingPrecision p n.bits) n.one_lt_bits
  have hlo : -2 ^ (n.bits - 1) ≤ (0 : Int) := Int.neg_nonpos_of_nonneg (by positivity)
  have hhi : ((0 : Int) : ℚ) ≤ (quantizingPrecision p n.bits).bound n.bits * 2 ^ (n.bits - 1) := by
    rw [Int.cast_zero]
    exact mul_nonneg (one_half_pos.le.trans hb) (two_pow_pos _).le
  exact amplitude_quantize_of_steps (steps_of_denotes h0 hlo hhi)
    (not_overshoots_intCast (by decide))

theorem amplitude_quantize_nonneg (h : le (t := .floating p) (p.ofInt 0) x = true) :
    0 ≤ s.amplitude (x.quantize s n) :=
  (amplitude_quantize_zero s n).ge.trans (quantize_mono h)

theorem amplitude_quantize_nonpos (h : le (t := .floating p) x (p.ofInt 0) = true) :
    s.amplitude (x.quantize s n) ≤ 0 :=
  (quantize_mono h).trans (amplitude_quantize_zero s n).le

end Sample

namespace Format
variable {w : Width} {o : ByteOrder} {chunk : List UInt8}

def samples (s : Signedness) (w : Width) (o : ByteOrder) : Set Int :=
  {a | ∃ chunk : List UInt8, chunk.length = w.bytes ∧ centred s w o chunk = a}

theorem isGreatest_centred (hc : chunk.length = w.bytes)
    (h : centred s w o chunk = 2 ^ (w.bits - 1) - 1) :
    IsGreatest (samples s w o) (centred s w o chunk) := by
  refine ⟨⟨chunk, hc, rfl⟩, ?_⟩
  rintro - ⟨other, -, rfl⟩
  rw [h]
  exact Int.le_sub_one_of_lt (s.amplitude_lt (width_pos w) _)

theorem isLeast_centred (hc : chunk.length = w.bytes)
    (h : centred s w o chunk = -2 ^ (w.bits - 1)) :
    IsLeast (samples s w o) (centred s w o chunk) := by
  refine ⟨⟨chunk, hc, rfl⟩, ?_⟩
  rintro - ⟨other, -, rfl⟩
  rw [h]
  exact s.le_amplitude _

theorem scaled_top (hw : w.bits ≤ n.bits) (hn : n.bits = w.bits ∨ n.bits = 32) :
    scaled n.bits w.bits n.top = if w = .w64 then 2 ^ 63 - 2048 else 2 ^ (w.bits - 1) - 1 := by
  revert hw hn
  cases w <;> cases n <;> decide

/-- What is beyond an end is stored as the end and does not come out at the other one; what is not
keeps its sign. -/
theorem write_clamped {bytes : List UInt8} (hb : w.bytes ≤ bytes.length)
    (x : Sample (.floating p)) :
    ∃ chunk, (integer s w o).write bytes x = (.ok (), chunk ++ bytes.drop w.bytes) ∧
      chunk.length = w.bytes ∧
      (Sample.isNaN x = true ∨ Sample.le (t := .floating p) (p.ofInt 1) x = true →
        (w ≠ .w64 → IsGreatest (samples s w o) (centred s w o chunk)) ∧
        (w = .w64 → centred s w o chunk = 2 ^ 63 - 2048)) ∧
      (Sample.le (t := .floating p) x (p.ofInt (-1)) = true →
        IsLeast (samples s w o) (centred s w o chunk)) ∧
      (Sample.le (t := .floating p) (p.ofInt 0) x = true → 0 ≤ centred s w o chunk) ∧
      (Sample.le (t := .floating p) x (p.ofInt 0) = true → centred s w o chunk ≤ 0) := by
  have hl : ((integer s w o).encode x).length = w.bytes := length_encode ..
  obtain ⟨n, hw, hn, hc⟩ := exists_centred_encode (t := s) (v := w) (q := o) x
  refine ⟨(integer s w o).encode x, write_of_le (integer s w o) hb x, hl, fun h => ?_, fun h => ?_,
    fun h => ?_, fun h => ?_⟩
  · have htop := hc.trans (by rw [Sample.amplitude_quantize_of_one_le h, scaled_top hw hn])
    exact ⟨fun h64 => isGreatest_centred hl (by rw [htop, if_neg h64]),
      fun h64 => by rw [htop, if_pos h64]⟩
  · apply isLeast_centred hl
    rw [hc, Sample.amplitude_quantize_of_le_neg_one h, scaled_least hw (width_pos w)]
  · rw [hc, ← scaled_zero n.bits w.bits]
    exact scaled_mono _ _ (Sample.amplitude_quantize_nonneg h)
  · rw [hc, ← scaled_zero n.bits w.bits]
    exact scaled_mono _ _ (Sample.amplitude_quantize_nonpos h)

theorem write_clamped_infinity :
    Width.w24.bytes ≤ [1, 2, 3, 4].length ∧
      Sample.le (t := .f32) (Precision.single.ofInt 1) 0x7f800000#32 = true ∧
      ∃ chunk, (integer .unsigned .w24 .little).write (t := .f32) [1, 2, 3, 4] 0x7f800000#32 =
          (.ok (), chunk ++ [4]) ∧
        chunk.length = 3 ∧
        IsGreatest (samples .unsigned .w24 .little) (centred .unsigned .w24 .little chunk) := by
  have hb : Width.w24.bytes ≤ ([1, 2, 3, 4] : List UInt8).length := by decide
  have hle : Sample.le (t := .f32) (Precision.single.ofInt 1) 0x7f800000#32 = true := by
    decide +kernel
  obtain ⟨chunk, hw, hl, htop, -⟩ := write_clamped (p := .single) (s := .unsigned) (o := .little)
    hb 0x7f800000#32
  exact ⟨hb, hle, chunk, hw, hl, (htop (.inr hle)).1 (by decide)⟩

end Format
end RawPcm
