import Mathlib.Data.List.Forall2
import RawPcm.Proofs.Codec.Floating

/-! Integer samples by way of floating point numbers come out as by way of integers, or one step
higher where bits are lost. -/
namespace RawPcm.Format
variable {s t : Signedness} {w v : Width} {o q : ByteOrder} {p : Precision}

theorem exists_centred_encode (x : Sample (.floating p)) : ∃ n : WordSize, v.bits ≤ n.bits ∧
    (n.bits = v.bits ∨ n.bits = 32) ∧
    centred t v q ((integer t v q).encode x) = scaled n.bits v.bits (t.amplitude (x.quantize t n)) := by
  have hn : ∃ n : WordSize, n.bits = (integer t v q).staging.bits ∧
      (n.bits = v.bits ∨ n.bits = 32) ∧
      t.amplitude (Sample.convert (integer t v q).staging x) = t.amplitude (x.quantize t n) := by
    cases v with
    | w8 => exact ⟨.w8, rfl, .inl rfl, rfl⟩
    | w16 => exact ⟨.w16, rfl, .inl rfl, rfl⟩
    | w24 => exact ⟨.w32, rfl, .inr rfl, rfl⟩
    | w32 => exact ⟨.w32, rfl, .inl rfl, rfl⟩
    | w64 => exact ⟨.w64, rfl, .inl rfl, rfl⟩
  obtain ⟨n, hb, hv, ha⟩ := hn
  refine ⟨n, hb ▸ width_le_staging, hv, ?_⟩
  rw [encode_eq, centred_unstaged, ha, hb]

variable (h32 : w.bits ≤ 32) (hp : w.bits ≤ p.digits) {chunk : List UInt8}
  (hc : chunk.length = w.bytes)
include h32 hp hc

/-- Without bits to be lost nothing is rounded, and where bits are lost it is down or up. -/
theorem centred_encode_decode_floating :
    (w.bits ≤ v.bits → centred t v q ((integer t v q).encode
        ((integer s w o).decode (.floating p) chunk)) = scaled w.bits v.bits (centred s w o chunk)) ∧
      (centred t v q ((integer t v q).encode ((integer s w o).decode (.floating p) chunk)) =
          scaled w.bits v.bits (centred s w o chunk) ∨
        centred t v q ((integer t v q).encode ((integer s w o).decode (.floating p) chunk)) =
          scaled w.bits v.bits (centred s w o chunk) + 1) := by
  have hlo : -2 ^ (w.bits - 1) ≤ centred s w o chunk := s.le_amplitude _
  have hhi : centred s w o chunk < 2 ^ (w.bits - 1) := s.amplitude_lt (width_pos w) _
  have hx := denotes_convert_staged (s := s) (o := o) hp hc
  rw [← decode_eq] at hx
  generalize (integer s w o).decode (.floating p) chunk = x at hx ⊢
  obtain ⟨n, hv, hn, he⟩ := exists_centred_encode (t := t) (v := v) (q := q) x
  rw [he]
  rcases Nat.lt_or_ge n.bits w.bits with hw | hw
  · obtain ⟨hdown, hup⟩ := Sample.amplitude_quantize_narrow (s := t) hw h32 hp hlo hhi hx
    rw [← hn.resolve_right (by omega), scaled_self, scaled_down (Nat.le_of_lt hw)]
    exact ⟨fun h => absurd h (by omega), by omega⟩
  · have ha := Sample.amplitude_quantize (s := t) hw hp (width_pos w) hlo hhi hx
    rw [ha, ← scaled_up hw, scaled_scaled (by omega)]
    exact ⟨fun _ => rfl, .inl rfl⟩

theorem encode_decode_eq (h : w.bits ≤ v.bits) :
    (integer t v q).encode ((integer s w o).decode (.floating p) chunk) =
      (integer t v q).encode ((integer s w o).decode .i64 chunk) := by
  have hw := width_le w
  apply centred_injective (s := t) (w := v) (o := q) (length_encode ..) (length_encode ..)
  rw [(centred_encode_decode_floating h32 hp hc).1 h, centred_encode_decode (by omega) hc]

omit hc in
theorem encodeAll_decodeAll_floating (bytes : List UInt8) :
    (w.bits ≤ v.bits → (integer t v q).encodeAll ((integer s w o).decodeAll (.floating p) bytes) =
        (integer t v q).encodeAll ((integer s w o).decodeAll .i64 bytes)) ∧
      List.Forall₂ (fun a b => centred t v q a = centred t v q b ∨
          centred t v q a = centred t v q b + 1)
        ((integer t v q).chunks
          ((integer t v q).encodeAll ((integer s w o).decodeAll (.floating p) bytes)))
        ((integer t v q).chunks
          ((integer t v q).encodeAll ((integer s w o).decodeAll .i64 bytes))) := by
  have hw := width_le w
  constructor
  · intro h
    simp only [encodeAll, decodeAll, List.flatMap_map]
    exact List.flatMap_congr fun chunk hm =>
      encode_decode_eq h32 hp ((integer s w o).length_of_mem_chunks hm) h
  · simp only [chunks_encodeAll, decodeAll, List.forall₂_map_left_iff, List.forall₂_map_right_iff,
      List.forall₂_same]
    intro chunk hm
    have hc : chunk.length = w.bytes := (integer s w o).length_of_mem_chunks hm
    rw [centred_encode_decode (n := .w64) (by omega) hc]
    exact (centred_encode_decode_floating h32 hp hc).2

end RawPcm.Format
