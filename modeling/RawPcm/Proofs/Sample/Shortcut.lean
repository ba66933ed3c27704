import RawPcm.Proofs.Sample.Fraction

/-! The short way through single precision makes no difference up to 16 bits. -/
namespace RawPcm
namespace Precision
variable {p : Precision} {bits : Nat} {a : Int}

theorem bound_of_le_digits (h : bits ≤ p.digits) : p.bound bits = 1 - 1 / 2 ^ (bits - 1) := by
  rw [bound_eq, Nat.min_eq_left (Nat.sub_le_sub_right h 1)]

theorem roundAway_congr {x y : BitVec double.bits} {c : ℚ} (hx : double.Denotes x c)
    (hy : double.Denotes y c) (hlo : -2 ^ 63 ≤ c) (hhi : c ≤ 2 ^ 63 - 1) :
    roundAway x = roundAway y := by
  rw [roundAway_eq hx hlo hhi, roundAway_eq hy hlo hhi]

theorem quantize_single (h : bits ≤ single.digits) (x : BitVec single.bits) :
    single.quantize bits x = double.quantize bits (single.cast .double x) := by
  have h64 : bits ≤ 64 := h.trans (by decide)
  have hbound : double.bound bits = single.bound bits := by
    rw [bound_of_le_digits h, bound_of_le_digits (h.trans (by decide))]
  obtain ⟨y, hy, hq⟩ := quantize_eq_roundAway h64 x
  obtain ⟨z, hz, hw⟩ := quantize_eq_roundAway h64 (single.cast .double x)
  rw [clamped_cast (by decide), hbound] at hz
  have hb := single.le_bound bits
  have hpos := two_pow_pos (bits - 1)
  have hlarge : (2 : ℚ) ^ (bits - 1) ≤ 2 ^ 23 :=
    pow_le_pow_right₀ (by norm_num) (Nat.sub_le_sub_right h 1)
  have hlo := mul_le_mul_of_nonneg_right (le_clamped hb x) hpos.le
  have hhi := mul_le_mul_of_nonneg_right
    ((clamped_le hb x).trans (single.bound_lt_one bits).le) hpos.le
  rw [hq, hw]
  exact roundAway_congr hy hz (by linarith) (by linarith)

theorem denotes_dequantize (h : bits ≤ p.digits) (h0 : 0 < bits) (ha : a.natAbs ≤ 2 ^ (bits - 1)) :
    p.Denotes (p.dequantize bits a) (a / 2 ^ (bits - 1)) := by
  have hle : 2 ^ (bits - 1) ≤ 2 ^ p.digits :=
    Nat.pow_le_pow_right (by decide) ((Nat.sub_le ..).trans h)
  have h64 : p.digits ≤ 64 := by cases p <;> decide
  exact denotes_div (Sample.represents_fraction h h0 ha) (two_pow_pos _).ne'
    (denotes_ofInt (represents_int (ha.trans hle)))
    (denotes_two_pow ((Nat.sub_le ..).trans (h.trans h64)))

end Precision

namespace Sample
open Precision
variable {s : Signedness} {n : WordSize}

theorem dequantize_single (h : n.bits ≤ 16) {a : Int} (ha : a.natAbs ≤ 2 ^ (n.bits - 1)) :
    single.dequantize n.bits a = double.cast .single (double.dequantize n.bits a) := by
  by_cases h0 : a = 0
  · subst a
    cases n <;> decide +kernel
  · have hs : single.Denotes (single.dequantize n.bits a) (a / 2 ^ (n.bits - 1)) :=
      Precision.denotes_dequantize (h.trans (by decide)) n.bits_pos ha
    have hd : double.Denotes (double.dequantize n.bits a) (a / 2 ^ (n.bits - 1)) :=
      Precision.denotes_dequantize (h.trans (by decide)) n.bits_pos ha
    have hne : (a / 2 ^ (n.bits - 1) : ℚ) ≠ 0 :=
      div_ne_zero (by exact_mod_cast h0) (two_pow_pos _).ne'
    exact hs.injective (denotes_cast hs.represents hd) hne

theorem quantize_by {p q : Precision} (h : quantizingPrecision p n.bits = q)
    (x : Sample (.floating p)) : x.quantize s n =
      Signedness.signed.recode s (BitVec.ofInt n.bits (q.quantize n.bits (p.cast q x))) := by
  subst h
  rfl

theorem dequantize_by {p q : Precision} (h : dequantizingPrecision n.bits p = q)
    (y : Sample (.integer s n)) :
    y.dequantize p = q.cast p (q.dequantize n.bits (s.amplitude y)) := by
  subst h
  rw [← Signedness.amplitude_recode n.bits_pos s .signed y]
  rfl

/-- Up to 16 bits the two precisions quantize alike, whatever the number, and divide alike: an
integer sample of such a size and one of single precision are converted into one another as if by way
of double precision. -/
theorem shortcut_changes_nothing (n : WordSize) (h : n.bits ≤ 16) :
    (∀ x : BitVec single.bits,
      single.quantize n.bits x = double.quantize n.bits (single.cast .double x)) ∧
    (∀ s (y : Sample (.integer s n)), single.dequantize n.bits (s.amplitude y) =
      double.cast .single (double.dequantize n.bits (s.amplitude y))) ∧
    ∀ s, (∀ x : Sample .f32,
        convert (.integer s n) x = convert (s := .f64) (.integer s n) (convert .f64 x)) ∧
      ∀ y : Sample (.integer s n), convert .f32 y = convert (s := .f64) .f32 (convert .f64 y) := by
  have hq : ∀ x : BitVec single.bits,
      single.quantize n.bits x = double.quantize n.bits (single.cast .double x) :=
    quantize_single (h.trans (by decide))
  have hd : ∀ s (y : Sample (.integer s n)), single.dequantize n.bits (s.amplitude y) =
      double.cast .single (double.dequantize n.bits (s.amplitude y)) :=
    fun s y => dequantize_single h (s.natAbs_amplitude_le n.bits_pos y)
  refine ⟨hq, hd, fun s => ⟨fun x => ?_, fun y => ?_⟩⟩
  · calc quantize x s n
      _ = Signedness.signed.recode s (BitVec.ofInt n.bits (single.quantize n.bits x)) :=
        quantize_by (quantizingPrecision_single (h.trans (by decide))) x
      _ = Signedness.signed.recode s
          (BitVec.ofInt n.bits (double.quantize n.bits (single.cast .double x))) := by rw [hq]
      _ = quantize (p := .double) (single.cast .double x) s n :=
        (quantize_by (p := .double) (quantizingPrecision_double _) _).symm
  · calc dequantize y .single
      _ = single.dequantize n.bits (s.amplitude y) :=
        dequantize_by (dequantizingPrecision_single (h.trans (by decide))) y
      _ = double.cast .single (double.dequantize n.bits (s.amplitude y)) := hd s y
      _ = double.cast .single (dequantize y .double) := by
        rw [dequantize_by (dequantizingPrecision_double _) y]
        rfl

theorem shortcut_changes_nothing_at_half_a_step :
    WordSize.w16.bits ≤ 16 ∧
    double.quantize 16 (single.cast .double 0x37800000) = 1 ∧
    double.quantize 16 (single.cast .double 0x7fc00000) = 32767 ∧
    double.quantize 16 (single.cast .double 0x00000001) = 0 ∧
    convert (s := .f64) .f32 (convert (s := .integer .unsigned .w16) .f64 0xc001#16) =
      0x3f000200#32 := by
  have h : WordSize.w16.bits ≤ 16 := by decide
  obtain ⟨hq, -, hc⟩ := shortcut_changes_nothing .w16 h
  refine ⟨h, (hq _).symm.trans ?_, (hq _).symm.trans ?_, (hq _).symm.trans ?_,
    ((hc .unsigned).2 _).symm.trans ?_⟩ <;> decide +kernel

end Sample
end RawPcm
