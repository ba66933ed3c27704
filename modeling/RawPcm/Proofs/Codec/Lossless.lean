import RawPcm.Proofs.Codec.Floating
import RawPcm.File.Via

/-! Samples come back from a format that can hold them, either way through the default type. -/
namespace RawPcm.Format
variable {s t : Signedness} {w v : Width} {o q : ByteOrder} {p : Precision}

/-- Formats that can hold the samples of another one: integers that are not narrower, and floating
point numbers with enough digits. -/
def CanHold : (target source : Format) → Prop
  | integer _ v _, integer _ w _ => w.bits ≤ v.bits
  | integer _ _ _, floating _ _ => False
  | floating p _, f => p.Carries f

instance : (g f : Format) → Decidable (g.CanHold f)
  | integer _ v _, integer _ w _ => inferInstanceAs (Decidable (w.bits ≤ v.bits))
  | integer _ _ _, floating _ _ => inferInstanceAs (Decidable False)
  | floating p _, f => inferInstanceAs (Decidable (p.Carries f))

/-- By way of integers of 64 bits only the width of the target is left to count. -/
theorem restore_integer (h : w.bits ≤ v.bits) {chunk : List UInt8} (hc : chunk.length = w.bytes) :
    (integer s w o).encode ((integer t v q).decode .i64
      ((integer t v q).encode ((integer s w o).decode .i64 chunk))) = chunk := by
  have hw := width_le w
  have hv := width_le v
  have hl : ((integer t v q).encode ((integer s w o).decode .i64 chunk)).length = v.bytes :=
    length_encode ..
  have he : ((integer s w o).encode ((integer t v q).decode .i64
      ((integer t v q).encode ((integer s w o).decode .i64 chunk)))).length = w.bytes :=
    length_encode ..
  apply centred_injective (s := s) (o := o) he hc
  rw [centred_encode_decode (by omega) hl, centred_encode_decode (by omega) hc,
    scaled_scaled (by omega), scaled_self]

theorem decode_encode_floating {u : SampleType} (x : Sample u) (t : SampleType) :
    (floating p q).decode t ((floating p q).encode x) =
      Sample.convert t (Sample.convert (.floating p) x : Sample (.floating p)) := by
  have hs : (floating p q).stage = (floating p q).size := by
    cases p <;> cases q <;> rfl
  rw [decode_eq, encode_eq, staged_unstaged hs]
  rfl

theorem restore_fraction (h : w.bits ≤ p.digits) {chunk : List UInt8} (hc : chunk.length = w.bytes) :
    (integer s w o).encode ((floating p q).decode .f64
      ((floating p q).encode ((integer s w o).decode .f64 chunk))) = chunk := by
  have hd : w.bits ≤ Precision.double.digits := h.trans (by cases p <;> decide)
  have hn : (centred s w o chunk).natAbs ≤ 2 ^ (w.bits - 1) :=
    s.natAbs_amplitude_le (width_pos w) _
  have hp := Sample.represents_fraction h (width_pos w) hn
  have hx := denotes_convert_staged (s := s) (o := o) hd hc
  have hy : p.Denotes (Sample.convert (.floating p) ((integer s w o).decode .f64 chunk)) _ :=
    Precision.denotes_cast hp hx
  have hz : Precision.double.Denotes (Sample.convert .f64
      (Sample.convert (.floating p) ((integer s w o).decode .f64 chunk))) _ :=
    Precision.denotes_cast hp.widen hy
  rw [decode_encode_floating, encode_eq, convert_of_denotes hd hc hz, unstaged_staged _ hc]

theorem restore_floating {r : Precision} (h : r.digits ≤ p.digits) {chunk : List UInt8}
    (hc : chunk.length = (floating r o).size) (hn : (floating r o).isNaN chunk = false) :
    (floating r o).encode ((floating p q).decode .f64
      ((floating p q).encode ((floating r o).decode .f64 chunk))) = chunk := by
  rw [decode_encode_floating, encode_eq, decode_eq]
  have hr : Sample.convert (floating r o).staging (Sample.convert .f64 (Sample.convert (.floating p)
      (Sample.convert .f64 ((floating r o).staged chunk)))) = (floating r o).staged chunk := by
    rw [staged_floating hc]
    exact Precision.cast_cast h hn
  rw [hr, unstaged_staged _ hc]

theorem restore {f g : Format} (h : g.CanHold f) {chunk : List UInt8} (hc : chunk.length = f.size)
    (hn : f.isNaN chunk = false) :
    f.encode (g.decode (Via.default g f).sampleType
      (g.encode (f.decode (Via.default f g).sampleType chunk))) = chunk := by
  cases f with
  | integer s w o =>
    cases g with
    | integer t v q => cases s <;> cases t <;> exact restore_integer h hc
    | floating p q => cases s <;> exact restore_fraction h hc
  | floating r o =>
    cases g with
    | integer t v q => exact absurd h id
    | floating p q => exact restore_floating h hc hn

theorem encodeAll_restore {f g : Format} (h : g.CanHold f) {bytes : List UInt8}
    (hn : ∀ chunk ∈ f.chunks bytes, f.isNaN chunk = false) :
    f.encodeAll (g.decodeAll (Via.default g f).sampleType
      (g.encodeAll (f.decodeAll (Via.default f g).sampleType bytes))) =
        bytes.take (bytes.length / f.size * f.size) := by
  rw [decodeAll, chunks_encodeAll, decodeAll, List.map_map, List.map_map, encodeAll,
    List.flatMap_map]
  exact f.flatMap_chunks fun chunk hm => restore h (f.length_of_mem_chunks hm) (hn chunk hm)

end RawPcm.Format
