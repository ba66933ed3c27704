import RawPcm.Proofs.Codec.Amplitude
import RawPcm.Proofs.Sample.Fraction

/-! A sample that is no NaN comes back from a precision that has a digit for each of its bits. -/
namespace RawPcm
variable {p : Precision}

/-- Samples that fit: integers of up to 24 bits in single precision and of up to 32 bits in double
precision, and floating point numbers that are not wider. -/
def Precision.Carries (p : Precision) : Format → Prop
  | .integer _ w _ => w.bits ≤ p.digits
  | .floating q _ => q.digits ≤ p.digits

instance (p : Precision) : (f : Format) → Decidable (p.Carries f)
  | .integer _ w _ => inferInstanceAs (Decidable (w.bits ≤ p.digits))
  | .floating q _ => inferInstanceAs (Decidable (q.digits ≤ p.digits))

namespace Format

def isNaN : Format → List UInt8 → Bool
  | integer _ _ _, _ => false
  | floating q o, chunk => (q.datum (BitVec.ofNat q.bits (o.load chunk))).isNaN

section Integer
variable {s : Signedness} {w : Width} {o : ByteOrder} (hw : w.bits ≤ p.digits) {chunk : List UInt8}
  (h : chunk.length = w.bytes)
include hw h

theorem denotes_convert_staged :
    p.Denotes (Sample.convert (.floating p) ((integer s w o).staged chunk))
      (centred s w o chunk / 2 ^ (w.bits - 1)) := by
  have ha := amplitude_staged (s := s) (o := o) h
  have hn : (centred s w o chunk).natAbs ≤ 2 ^ (w.bits - 1) :=
    s.natAbs_amplitude_le (width_pos w) _
  rw [scaled_up width_le_staging] at ha
  have hle := width_le_staging (s := s) (w := w) (o := o)
  generalize (integer s w o).staged chunk = x at ha ⊢
  cases w <;> exact Sample.denotes_dequantize hle hw (width_pos _) hn ha

theorem convert_of_denotes {x : Sample (.floating p)}
    (hx : p.Denotes x (centred s w o chunk / 2 ^ (w.bits - 1))) :
    Sample.convert (integer s w o).staging x = (integer s w o).staged chunk := by
  have ha := amplitude_staged (s := s) (o := o) h
  have hlo : -2 ^ (w.bits - 1) ≤ centred s w o chunk := s.le_amplitude _
  have hhi : centred s w o chunk < 2 ^ (w.bits - 1) := s.amplitude_lt (width_pos w) _
  rw [scaled_up width_le_staging] at ha
  have hle := width_le_staging (s := s) (w := w) (o := o)
  generalize (integer s w o).staged chunk = y at ha ⊢
  apply s.amplitude_injective
  rw [ha]
  cases w <;> exact Sample.amplitude_quantize hle hw (width_pos _) hlo hhi hx

theorem convert_staged_integer :
    Sample.convert (integer s w o).staging
      (Sample.convert (.floating p) ((integer s w o).staged chunk)) =
        (integer s w o).staged chunk :=
  convert_of_denotes hw h (denotes_convert_staged hw h)

end Integer

theorem staged_floating {q : Precision} {o : ByteOrder} {chunk : List UInt8}
    (h : chunk.length = (floating q o).size) :
    (floating q o).staged chunk = BitVec.ofNat q.bits (o.load chunk) := by
  have hs : (floating q o).stage - (floating q o).size = 0 := by
    cases q <;> cases o <;> rfl
  have ht := toNat_staged _ h
  rw [hs, Nat.mul_zero, Nat.pow_zero, Nat.mul_one] at ht
  have hl : o.load chunk < 2 ^ q.bits := ht ▸ ((floating q o).staged chunk).isLt
  exact BitVec.eq_of_toNat_eq (ht.trans (Nat.mod_eq_of_lt hl).symm)

theorem convert_staged_floating {q : Precision} {o : ByteOrder} (hq : q.digits ≤ p.digits)
    {chunk : List UInt8} (h : chunk.length = (floating q o).size)
    (hn : (floating q o).isNaN chunk = false) :
    Sample.convert (floating q o).staging
      (Sample.convert (.floating p) ((floating q o).staged chunk)) =
        (floating q o).staged chunk := by
  rw [staged_floating h]
  exact Precision.cast_cast hq hn

/-- Decoding and encoding lose nothing of a sample that fits. -/
theorem encode_decode_floating {f : Format} (hf : p.Carries f) {chunk : List UInt8}
    (h : chunk.length = f.size) (hn : f.isNaN chunk = false) :
    f.encode (f.decode (.floating p) chunk) = chunk := by
  rw [encode_eq, decode_eq]
  cases f with
  | integer s w o => rw [convert_staged_integer hf h, unstaged_staged _ h]
  | floating q o => rw [convert_staged_floating hf h hn, unstaged_staged _ h]

end Format
end RawPcm
