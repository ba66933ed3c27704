import RawPcm.Proofs.Sample.Amplitude

/-! Integer samples with and without a sign differ in the leading bit and in nothing else. -/
namespace RawPcm

theorem topBit_eq_twoPow (n : Nat) : topBit n = BitVec.twoPow n (n - 1) := by
  apply BitVec.eq_of_toNat_eq
  rw [topBit, BitVec.toNat_ofNat, BitVec.toNat_twoPow]

namespace Signedness

theorem recode_of_ne {s t : Signedness} (h : s ≠ t) {n : Nat} (x : BitVec n) :
    s.recode t x = x ^^^ BitVec.twoPow n (n - 1) := by
  rw [recode, if_neg h, topBit_eq_twoPow]

theorem recode_recode {n : Nat} (h : 0 < n) (s t u : Signedness) (x : BitVec n) :
    t.recode u (s.recode t x) = s.recode u x := by
  apply u.amplitude_injective
  rw [amplitude_recode h, amplitude_recode h, amplitude_recode h]

end Signedness

namespace Sample
variable {s : SampleType} {n : WordSize}

theorem convert_recoded (t u : Signedness) (x : Sample s) :
    convert (.integer u n) x = t.recode u (convert (.integer t n) x) := by
  cases s with
  | integer s m =>
    apply u.amplitude_injective
    rw [Signedness.amplitude_recode n.bits_pos, amplitude_convert_integer,
      amplitude_convert_integer]
  | floating p => exact (Signedness.recode_recode n.bits_pos .signed t u _).symm

theorem convert_recode (t u : Signedness) (v : SampleType) (x : Sample (.integer t n)) :
    convert (s := .integer u n) v (t.recode u x) = convert v x := by
  cases v with
  | integer v m =>
    apply v.amplitude_injective
    rw [amplitude_convert_integer, amplitude_convert_integer,
      Signedness.amplitude_recode n.bits_pos]
  | floating q =>
    simp only [convert, dequantize]
    rw [Signedness.recode_recode n.bits_pos]

/-- Offset binary is two's complement with the leading bit flipped, on either side of a conversion
and whatever type of value stands on the other side. -/
theorem convert_flipped (n : WordSize) :
    (∀ (s : SampleType) (x : Sample s), convert (.integer .unsigned n) x =
      convert (.integer .signed n) x ^^^ BitVec.twoPow n.bits (n.bits - 1)) ∧
    ∀ (t : SampleType) (x : Sample (.integer .signed n)),
      convert (s := .integer .unsigned n) t (x ^^^ BitVec.twoPow n.bits (n.bits - 1)) =
        convert t x := by
  have hne : Signedness.signed ≠ .unsigned := by decide
  constructor
  · intro s x
    rw [convert_recoded .signed .unsigned x, Signedness.recode_of_ne hne]
  · intro t x
    rw [← Signedness.recode_of_ne hne, convert_recode]

/-- A NaN is the greatest sample with a sign and without one. -/
example : convert (s := .f32) .i8 0x7fc00000#32 = 0x7f#8 ∧
    convert (s := .f32) .u8 0x7fc00000#32 = 0xff#8 := by decide +kernel

end Sample
end RawPcm
