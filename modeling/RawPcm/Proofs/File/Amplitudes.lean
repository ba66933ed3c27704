import RawPcm.Proofs.Codec.Amplitude
import RawPcm.Proofs.File.Conversion

/-! A conversion between integer formats by way of integers shifts the amplitudes. -/
namespace RawPcm.Conversion

/-- Each whole sample comes out with its amplitude shifted from one width to the other: exactly if
the target is not narrower, and rounded down if it is. -/
theorem run_shifts_amplitudes (s t : Signedness) (w v : Width) (o q : ByteOrder)
    (chunkSamples memory : Nat) (strict : Bool) (r : Reader) (hr : r.Steady)
    (hs : strict = false ∨ r.rest.length % w.bytes = 0)
    (hf : (⟨.integer s w o, .integer t v q, chunkSamples, strict⟩ : Conversion).Fits memory .i64) :
    ∃ p, (⟨.integer s w o, .integer t v q, chunkSamples, strict⟩ : Conversion).run memory .i64 r
          .unlimited = .ok (.ok ⟨r.rest.length / w.bytes, r.rest.length % w.bytes⟩, p) ∧
      p.writer.written.length = r.rest.length / w.bytes * v.bytes ∧
      ((Format.integer t v q).chunks p.writer.written).map (centred t v q) =
        ((Format.integer s w o).chunks r.rest).map fun chunk =>
          scaled w.bits v.bits (centred s w o chunk) := by
  obtain ⟨p, hp, hw⟩ := run_of_fits hf hr hs
  refine ⟨p, hp, ?_, ?_⟩
  · rw [hw, Format.length_encodeAll, Format.length_decodeAll]
    rfl
  · rw [hw]
    exact Format.map_centred_encodeAll (Nat.le_trans (Nat.min_le_left ..) (Format.width_le w)) r.rest

theorem run_two_amplitudes_and_a_byte :
    ∃ p, (⟨.integer .signed .w24 .big, .integer .unsigned .w16 .little, 1, false⟩ : Conversion).run
        ordinaryMemory .i64 (.mk [.upTo 2] [0xff, 0xff, 0x80, 0x7f, 0xff, 0xff, 0x01]) .unlimited =
          .ok (.ok ⟨2, 1⟩, p) ∧
      p.writer.written.length = 4 ∧
      ((Format.integer .unsigned .w16 .little).chunks p.writer.written).map
        (centred .unsigned .w16 .little) = [-1, 32767] := by
  obtain ⟨p, hp, hl, hc⟩ := run_shifts_amplitudes .signed .unsigned .w24 .w16 .big .little 1
    ordinaryMemory false (.mk [.upTo 2] [0xff, 0xff, 0x80, 0x7f, 0xff, 0xff, 0x01])
    (by simp [Reader.Steady, Piece.Steady]) (.inl rfl) (by decide)
  exact ⟨p, hp, hl, hc.trans (by decide +kernel)⟩

end RawPcm.Conversion
