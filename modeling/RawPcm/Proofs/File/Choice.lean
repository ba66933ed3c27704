import RawPcm.Proofs.Codec.Choice
import RawPcm.Proofs.File.Conversion

/-! Conversions between integer formats come out alike by way of either type of value, but for a
step where bits are lost. -/
namespace RawPcm.Conversion

/-- Rounding goes up where integers are cut, but never past the upper end. -/
theorem run_by_either_way (s t : Signedness) (w v : Width) (o q : ByteOrder)
    (chunkSamples memory : Nat) (strict : Bool) (r : Reader) (hw : w.bits ≤ 32) (hr : r.Steady)
    (hs : strict = false ∨ r.rest.length % w.bytes = 0)
    (hf : (⟨.integer s w o, .integer t v q, chunkSamples, strict⟩ : Conversion).Fits memory .i64) :
    ∃ p p', (⟨.integer s w o, .integer t v q, chunkSamples, strict⟩ : Conversion).run memory .f64 r
          .unlimited = .ok (.ok ⟨r.rest.length / w.bytes, r.rest.length % w.bytes⟩, p) ∧
      (⟨.integer s w o, .integer t v q, chunkSamples, strict⟩ : Conversion).run memory .i64 r
          .unlimited = .ok (.ok ⟨r.rest.length / w.bytes, r.rest.length % w.bytes⟩, p') ∧
      p.writer.written.length = p'.writer.written.length ∧
      (w.bits ≤ v.bits → p.writer.written = p'.writer.written) ∧
      List.Forall₂ (fun a b => centred t v q a = centred t v q b ∨
          centred t v q a = centred t v q b + 1)
        ((Format.integer t v q).chunks p.writer.written)
        ((Format.integer t v q).chunks p'.writer.written) := by
  have hf' : (⟨.integer s w o, .integer t v q, chunkSamples, strict⟩ : Conversion).Fits memory
      .f64 := hf
  have hd : w.bits ≤ Precision.double.digits := hw.trans (by decide)
  obtain ⟨p, hp, hpw⟩ := run_of_fits hf' hr hs
  obtain ⟨p', hp', hpw'⟩ := run_of_fits hf hr hs
  obtain ⟨hsame, hnear⟩ := Format.encodeAll_decodeAll_floating (s := s) (t := t) (v := v) (o := o)
    (q := q) hw hd r.rest
  refine ⟨p, p', hp, hp', ?_, ?_, ?_⟩
  · rw [hpw, hpw', Format.length_encodeAll, Format.length_encodeAll, Format.length_decodeAll,
      Format.length_decodeAll]
  · rw [hpw, hpw']
    exact hsame
  · rw [hpw, hpw']
    exact hnear

theorem run_by_either_way_full_scale_and_halves :
    (∃ p p', (⟨.integer .unsigned .w32 .big, .integer .signed .w64 .little, 1, true⟩ :
          Conversion).run ordinaryMemory .f64 (.mk [] [0xff, 0xff, 0xff, 0xff, 0, 0, 0, 0])
            .unlimited = .ok (.ok ⟨2, 0⟩, p) ∧
      (⟨.integer .unsigned .w32 .big, .integer .signed .w64 .little, 1, true⟩ :
          Conversion).run ordinaryMemory .i64 (.mk [] [0xff, 0xff, 0xff, 0xff, 0, 0, 0, 0])
            .unlimited = .ok (.ok ⟨2, 0⟩, p') ∧
      p.writer.written = p'.writer.written) ∧
    ∃ p p', (⟨.integer .signed .w16 .big, .integer .unsigned .w8 .big, 2, false⟩ :
          Conversion).run ordinaryMemory .f64 (.mk [.upTo 1] [0x7f, 0xff, 0, 0x80, 0xff, 0x80, 1])
            .unlimited = .ok (.ok ⟨3, 1⟩, p) ∧
      (⟨.integer .signed .w16 .big, .integer .unsigned .w8 .big, 2, false⟩ :
          Conversion).run ordinaryMemory .i64 (.mk [.upTo 1] [0x7f, 0xff, 0, 0x80, 0xff, 0x80, 1])
            .unlimited = .ok (.ok ⟨3, 1⟩, p') ∧
      p.writer.written.length = p'.writer.written.length ∧
      List.Forall₂ (fun a b => centred .unsigned .w8 .big a = centred .unsigned .w8 .big b ∨
          centred .unsigned .w8 .big a = centred .unsigned .w8 .big b + 1)
        ((Format.integer .unsigned .w8 .big).chunks p.writer.written)
        ((Format.integer .unsigned .w8 .big).chunks p'.writer.written) := by
  obtain ⟨p, p', hp, hp', -, hsame, -⟩ := run_by_either_way .unsigned .signed .w32 .w64 .big .little
    1 ordinaryMemory true (.mk [] [0xff, 0xff, 0xff, 0xff, 0, 0, 0, 0]) (by decide)
    (by simp [Reader.Steady]) (.inr rfl) (by decide)
  obtain ⟨q, q', hq, hq', hl, -, hnear⟩ := run_by_either_way .signed .unsigned .w16 .w8 .big .big 2
    ordinaryMemory false (.mk [.upTo 1] [0x7f, 0xff, 0, 0x80, 0xff, 0x80, 1]) (by decide)
    (by simp [Reader.Steady, Piece.Steady]) (.inl rfl) (by decide)
  exact ⟨⟨p, p', hp, hp', hsame (by decide)⟩, q, q', hq, hq', hl, hnear⟩

end RawPcm.Conversion
