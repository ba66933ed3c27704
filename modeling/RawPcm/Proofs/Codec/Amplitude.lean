import RawPcm.Proofs.Codec.Chunks
import RawPcm.Proofs.Codec.Staging

/-! Encoded integer samples as amplitudes: decoding and encoding scale them from one width to the
other. -/
namespace RawPcm

/-- The number in the bytes of a sample, counted from silence. -/
def centred (s : Signedness) (w : Width) (o : ByteOrder) (chunk : List UInt8) : Int :=
  s.amplitude (BitVec.ofNat w.bits (o.load chunk))

namespace Format
variable {s : Signedness} {w : Width} {o : ByteOrder}

theorem load_lt_two_pow {chunk : List UInt8} (h : chunk.length = w.bytes) :
    o.load chunk < 2 ^ w.bits := by
  have hl := o.load_lt chunk
  rwa [h, show 256 = 2 ^ 8 from rfl, ← Nat.pow_mul, ← w.bits_eq_bytes_mul] at hl

theorem centred_injective {a b : List UInt8} (ha : a.length = w.bytes) (hb : b.length = w.bytes)
    (h : centred s w o a = centred s w o b) : a = b := by
  have hn := congrArg BitVec.toNat (s.amplitude_injective h)
  rw [BitVec.toNat_ofNat, BitVec.toNat_ofNat, Nat.mod_eq_of_lt (load_lt_two_pow ha),
    Nat.mod_eq_of_lt (load_lt_two_pow hb)] at hn
  exact o.load_injective (ha.trans hb.symm) hn

theorem width_le_staging : w.bits ≤ (integer s w o).staging.bits := by
  have := (integer s w o).size_le_stage
  rw [← eight_mul_stage, w.bits_eq_bytes_mul]
  exact Nat.mul_le_mul_left 8 this

theorem staging_sub_width :
    8 * ((integer s w o).stage - (integer s w o).size) = (integer s w o).staging.bits - w.bits := by
  rw [Nat.mul_sub, eight_mul_stage, w.bits_eq_bytes_mul]
  rfl

theorem staged_eq_rescale {chunk : List UInt8} (h : chunk.length = w.bytes) :
    (integer s w o).staged chunk = rescale _ s s (BitVec.ofNat w.bits (o.load chunk)) := by
  apply BitVec.eq_of_toNat_eq
  rw [toNat_staged _ h, staging_sub_width, toNat_rescale_up width_le_staging, BitVec.toNat_ofNat,
    Nat.mod_eq_of_lt (load_lt_two_pow h)]
  rfl

theorem ofNat_load_unstaged (x : Sample (integer s w o).staging) :
    BitVec.ofNat w.bits (o.load ((integer s w o).unstaged x)) = rescale w.bits s s x := by
  apply BitVec.eq_of_toNat_eq
  have hl := (integer s w o).load_unstaged x
  rw [staging_sub_width] at hl
  have hr := toNat_rescale_down (width_le_staging (s := s) (w := w) (o := o)) s x
  rw [BitVec.toNat_ofNat, hr]
  exact (Nat.mod_eq_of_lt (load_lt_two_pow (length_unstaged _ x))).trans hl

theorem staging_pos (f : Format) : 0 < f.staging.bits := by
  have := f.size_pos
  have := f.size_le_stage
  rw [← f.eight_mul_stage]
  omega

theorem width_pos (w : Width) : 0 < w.bits := by
  have := w.bytes_pos
  rw [w.bits_eq_bytes_mul]
  omega

theorem width_le (w : Width) : w.bits ≤ WordSize.w64.bits := by
  cases w <;> decide

theorem amplitude_staged {chunk : List UInt8} (h : chunk.length = w.bytes) :
    s.amplitude ((integer s w o).staged chunk) =
      scaled w.bits (integer s w o).staging.bits (centred s w o chunk) := by
  rw [staged_eq_rescale h, Signedness.amplitude_rescale (width_pos w) (staging_pos _)]
  rfl

theorem centred_unstaged (x : Sample (integer s w o).staging) :
    centred s w o ((integer s w o).unstaged x) =
      scaled (integer s w o).staging.bits w.bits (s.amplitude x) := by
  rw [centred, ofNat_load_unstaged, Signedness.amplitude_rescale (staging_pos _) (width_pos w)]

/-- Whatever holds the sample on the way, only the two ends matter. -/
theorem amplitude_decode {chunk : List UInt8} (h : chunk.length = w.bytes) (t : Signedness)
    (n : WordSize) :
    t.amplitude ((integer s w o).decode (.integer t n) chunk) =
      scaled w.bits n.bits (centred s w o chunk) := by
  have hw := width_le_staging (s := s) (w := w) (o := o)
  have hc : (integer s w o).decode (.integer t n) chunk =
      rescale n.bits s t ((integer s w o).staged chunk) := by
    cases w <;> rfl
  rw [hc, Signedness.amplitude_rescale (staging_pos _) n.bits_pos, amplitude_staged h,
    scaled_scaled (by omega)]

theorem centred_encode {t : Signedness} {n : WordSize} (x : Sample (.integer t n)) :
    centred s w o ((integer s w o).encode x) = scaled n.bits w.bits (t.amplitude x) := by
  have hw := width_le_staging (s := s) (w := w) (o := o)
  have hc : (integer s w o).encode x =
      (integer s w o).unstaged (rescale (integer s w o).staging.bits t s x) := by
    cases w <;> rfl
  rw [hc, centred_unstaged, Signedness.amplitude_rescale n.bits_pos (staging_pos _),
    scaled_scaled (by omega)]

theorem centred_encode_decode {t u : Signedness} {v : Width} {q : ByteOrder} {n : WordSize}
    (h : min w.bits v.bits ≤ n.bits) {chunk : List UInt8} (hc : chunk.length = w.bytes) :
    centred t v q ((integer t v q).encode ((integer s w o).decode (.integer u n) chunk)) =
      scaled w.bits v.bits (centred s w o chunk) := by
  rw [centred_encode, amplitude_decode hc, scaled_scaled h]

theorem encode_decode_integer {u : Signedness} {n : WordSize}
    (h : w.bits ≤ n.bits) {chunk : List UInt8} (hc : chunk.length = w.bytes) :
    (integer s w o).encode ((integer s w o).decode (.integer u n) chunk) = chunk := by
  have he : ((integer s w o).encode ((integer s w o).decode (.integer u n) chunk)).length =
      w.bytes := length_encode ..
  apply centred_injective (s := s) (o := o) he hc
  rw [centred_encode_decode (by omega) hc, scaled_self]

theorem map_centred_encodeAll {t u : Signedness} {v : Width} {q : ByteOrder} {n : WordSize}
    (h : min w.bits v.bits ≤ n.bits) (bytes : List UInt8) :
    ((integer t v q).chunks ((integer t v q).encodeAll
        ((integer s w o).decodeAll (.integer u n) bytes))).map (centred t v q) =
      ((integer s w o).chunks bytes).map fun chunk =>
        scaled w.bits v.bits (centred s w o chunk) := by
  rw [chunks_encodeAll, List.map_map, decodeAll, List.map_map]
  apply List.map_congr_left
  intro chunk hc
  exact centred_encode_decode h ((integer s w o).length_of_mem_chunks hc)

end Format
end RawPcm
