import RawPcm.Proofs.Codec.Lossless
import RawPcm.Proofs.File.Conversion

/-! Two conversions, the second of which takes back what the first one has written. -/
namespace RawPcm.Conversion

def usual (c : Conversion) : Via := .default c.source c.target

/-- Neither the sizes of the chunks nor the pieces in which bytes come matter, as long as memory has
room for the chunks. -/
theorem run_there_and_back (there back : Conversion) (hsource : back.source = there.target)
    (htarget : back.target = there.source) (hold : there.target.CanHold there.source) (memory : Nat)
    (r : Reader) (hr : r.Steady)
    (hs : there.strict = false ∨ r.rest.length % there.source.size = 0)
    (hn : ∀ chunk ∈ there.source.chunks r.rest, there.source.isNaN chunk = false) :
    if there.Fits memory there.usual then
      ∃ p, there.run memory there.usual r .unlimited =
          .ok (.ok ⟨r.rest.length / there.source.size, r.rest.length % there.source.size⟩, p) ∧
        ∀ r' : Reader, r'.Steady → r'.rest = p.writer.written →
          if back.Fits memory back.usual then
            ∃ q, back.run memory back.usual r' .unlimited =
                .ok (.ok ⟨r.rest.length / there.source.size, 0⟩, q) ∧
              q.writer.written =
                r.rest.take (r.rest.length / there.source.size * there.source.size)
          else ∃ e, back.run memory back.usual r' .unlimited = .error e
    else ∃ e, there.run memory there.usual r .unlimited = .error e := by
  by_cases hf : there.Fits memory there.usual
  case neg => simpa only [if_neg hf] using run_of_not_fits hf r .unlimited
  obtain ⟨p, hp, hw⟩ := run_of_fits hf hr hs
  rw [if_pos hf]
  refine ⟨p, hp, fun r' hr' hrest => ?_⟩
  by_cases hb : back.Fits memory back.usual
  case neg => simpa only [if_neg hb] using run_of_not_fits hb r' .unlimited
  have hl : r'.rest.length = r.rest.length / there.source.size * back.source.size := by
    rw [hrest, hw, Format.length_encodeAll, Format.length_decodeAll, hsource]
  have hm : r'.rest.length % back.source.size = 0 := by rw [hl, Nat.mul_mod_left]
  obtain ⟨q, hq, hv⟩ := run_of_fits hb hr' (.inr hm)
  rw [hm, hl, Nat.mul_div_cancel _ back.source.size_pos] at hq
  rw [if_pos hb]
  refine ⟨q, hq, ?_⟩
  rw [hv, hrest, hw, usual, hsource, htarget]
  exact Format.encodeAll_restore hold hn

theorem run_there_and_back_in_pieces :
    ∃ p, (⟨.integer .signed .w24 .big, .floating .single .little, 1, false⟩ : Conversion).run
        ordinaryMemory .f64 (.mk [.upTo 2] [0x12, 0x34, 0x56, 0x80, 0, 0, 0x99]) .unlimited =
          .ok (.ok ⟨2, 1⟩, p) ∧
      ∃ (hl : p.writer.written.length < sizeLimit) (q : Progress),
        (⟨.floating .single .little, .integer .signed .w24 .big, 3, true⟩ : Conversion).run
          ordinaryMemory .f64 ⟨[.interrupted, .upTo 5], p.writer.written, hl⟩ .unlimited =
            .ok (.ok ⟨2, 0⟩, q) ∧
        q.writer.written = [0x12, 0x34, 0x56, 0x80, 0, 0] := by
  have hsteady : (Reader.mk [.upTo 2] [0x12, 0x34, 0x56, 0x80, 0, 0, 0x99]).Steady := by
    simp [Reader.Steady, Piece.Steady]
  have h := run_there_and_back
    ⟨.integer .signed .w24 .big, .floating .single .little, 1, false⟩
    ⟨.floating .single .little, .integer .signed .w24 .big, 3, true⟩ rfl rfl (by decide)
    ordinaryMemory _ hsteady (.inl rfl) (by decide)
  rw [if_pos (by decide)] at h
  obtain ⟨p, hp, hback⟩ := h
  -- What has been written is short enough to be read.
  have hfits : (⟨.integer .signed .w24 .big, .floating .single .little, 1, false⟩ :
      Conversion).Fits ordinaryMemory .f64 := by decide
  obtain ⟨p', hp', hw⟩ := run_of_fits hfits hsteady (.inl rfl)
  obtain rfl : p = p' := by simpa using hp.symm.trans hp'
  have hl : p.writer.written.length < sizeLimit := by
    rw [hw, Format.length_encodeAll, Format.length_decodeAll]
    decide
  have hb := hback ⟨[.interrupted, .upTo 5], p.writer.written, hl⟩
    (by simp [Reader.Steady, Piece.Steady]) rfl
  rw [if_pos (by decide)] at hb
  exact ⟨p, hp, hl, hb⟩

end RawPcm.Conversion
