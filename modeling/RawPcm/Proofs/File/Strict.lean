import RawPcm.Proofs.File.Conversion

/-! Conversions that refuse a part of a sample at the end stop in front of the last chunk. -/
namespace RawPcm.Conversion
variable {t : SampleType}

theorem absorb_put_refused {c : Conversion} {w : Workspace t} {bytes : List UInt8}
    (hl : bytes.length ≤ w.input.size) (hs : c.strict = true)
    (hm : bytes.length % c.source.size ≠ 0) (p : Progress) :
    c.absorb bytes.length { w with input := w.input.put bytes } p =
      .ok (.error (.samples (.trailing ⟨bytes.length, c.source.size⟩)), p) := by
  have hi : (w.input.put bytes).front bytes.length = bytes := by
    rw [Scratch.front_put hl (Nat.le_refl _), List.take_length]
  have hsp : c.samples bytes = .error ⟨bytes.length, c.source.size⟩ := by
    simp [samples, hs, Span.exact, hm]
  simp only [absorb, hi, hsp]

theorem advance_of_refused {c : Conversion} {w : Workspace t} {r r' : Reader} {filled : Nat}
    {input : Scratch UInt8} (h : r.fill w.input = .ok (filled, input, r')) (hf : filled ≠ 0)
    {e : ConversionError} {p p' : Progress}
    (ha : c.absorb filled { w with input } p = .ok (.error e, p')) :
    c.advance r w p = .ok (.error e, p') := by
  rw [advance_eq_of_fill h, if_neg hf, ha]

/-- All full chunks are converted before the one that is not full is refused. -/
theorem advance_of_trailing {c : Conversion} {w : Workspace t} (hw : c.Equipped w) {r : Reader}
    (hr : r.Steady) (hs : c.strict = true) (hm : r.rest.length % c.source.size ≠ 0) {p : Progress}
    (hp : Ready p r.rest.length) :
    ∃ p', c.advance r w p = .ok (.error (.samples (.trailing
          ⟨r.rest.length % w.input.size, c.source.size⟩)), p') ∧
      c.Adds t (r.rest.take (r.rest.length / w.input.size * w.input.size)) p p' := by
  obtain ⟨w', r', p', ha, hw', hr', hrest, hadd, -⟩ := advance_of_fulls hw hr hp
  have hl : r'.rest.length = r.rest.length % w.input.size := by rw [hrest, length_drop_div_mul]
  have hlt : r'.rest.length < w'.input.size := by rw [hrest]; exact hw.length_drop_lt hw' _
  have hm' : r'.rest.length % c.source.size ≠ 0 := by
    rwa [hl, hw.input, Nat.mod_mul_left_mod]
  have h0 : r'.rest.length ≠ 0 := fun h0 => hm' (by rw [h0, Nat.zero_mod])
  obtain ⟨_, hf, -, -⟩ := Reader.fill_of_steady hr' w'.input
  rw [Nat.min_eq_right (Nat.le_of_lt hlt), List.take_of_length_le (Nat.le_of_lt hlt)] at hf
  refine ⟨p', ?_, hadd⟩
  rw [ha, ← hl]
  exact advance_of_refused hf h0 (absorb_put_refused (Nat.le_of_lt hlt) hs hm' p')

theorem runThrough_of_trailing {c : Conversion} {memory : Nat} (h : c.HasRoom memory t)
    {r : Reader} (hr : r.Steady) (hs : c.strict = true)
    (hm : r.rest.length % c.source.size ≠ 0) :
    ∃ p, c.runThrough memory t r .unlimited = .ok (.error (.samples (.trailing
          ⟨r.rest.length % (c.chunk * c.source.size), c.source.size⟩)), p) ∧
      p.writer.written = (c.source.firstChunks
          (r.rest.length / (c.chunk * c.source.size) * c.chunk) r.rest).flatMap fun chunk =>
        c.target.encode (c.source.decode t chunk) := by
  obtain ⟨w, hw, he⟩ := workspace_of_hasRoom h
  obtain ⟨p, ha, hadd⟩ := advance_of_trailing he hr hs hm (ready_start r)
  have hle : r.rest.length / (c.chunk * c.source.size) * c.chunk * c.source.size ≤
      r.rest.length := by
    rw [Nat.mul_assoc]
    exact Nat.div_mul_le_self ..
  refine ⟨p, by simp only [runThrough, hw, ha, he.input], ?_⟩
  rw [hadd.written, he.input, ← Nat.mul_assoc, Format.decodeAll, Format.chunks_take _ hle,
    Format.encodeAll, List.flatMap_map]
  rfl

/-- The remainder of the last chunk is that of all bytes, whatever the size of a chunk. -/
theorem runThrough_strict (c : Conversion) (memory : Nat) (t : SampleType) (r : Reader)
    (hs : c.strict = true) (hr : r.Steady) (hf : c.HasRoom memory t) :
    if c.source.size ∣ r.rest.length then
      ∃ p q, c.runThrough memory t r .unlimited =
          .ok (.ok ⟨r.rest.length / c.source.size, 0⟩, p) ∧
        { c with strict := false }.runThrough memory t r .unlimited =
          .ok (.ok ⟨r.rest.length / c.source.size, 0⟩, q) ∧
        p.writer.written = q.writer.written
    else
      ∃ e p, c.runThrough memory t r .unlimited = .ok (.error (.samples (.trailing e)), p) ∧
        e.trailing = .ok (r.rest.length % c.source.size) ∧ e.size = c.source.size ∧
        p.writer.written = (c.source.firstChunks
            (r.rest.length / (c.chunk * c.source.size) * c.chunk) r.rest).flatMap fun chunk =>
          c.target.encode (c.source.decode t chunk) := by
  split
  case isTrue hd =>
    have hm : r.rest.length % c.source.size = 0 := Nat.mod_eq_zero_of_dvd hd
    obtain ⟨p, hp, hw⟩ := runThrough_of_hasRoom hf hr (.inr hm)
    obtain ⟨q, hq, hv⟩ :=
      runThrough_of_hasRoom (c := { c with strict := false }) hf hr (.inl rfl)
    rw [hm] at hp hq
    exact ⟨p, q, hp, hq, hw.trans hv.symm⟩
  case isFalse hd =>
    have hm : r.rest.length % c.source.size ≠ 0 := fun h0 => hd (Nat.dvd_of_mod_eq_zero h0)
    obtain ⟨p, hp, hw⟩ := runThrough_of_trailing hf hr hs hm
    refine ⟨_, p, hp, ?_, rfl, hw⟩
    rw [TrailingBytes.trailing, Size.mod, if_neg (Nat.ne_of_gt c.source.size_pos),
      Nat.mod_mul_left_mod]

theorem runThrough_strict_three_samples_and_a_byte :
    (∃ e p, (⟨.integer .signed .w16 .big, .integer .unsigned .w8 .little, 2, true⟩ :
          Conversion).runThrough ordinaryMemory .i32
            (.mk [.upTo 3] [0x12, 0, 0x34, 0, 0x56, 0, 0x99]) .unlimited =
          .ok (.error (.samples (.trailing e)), p) ∧
      e.trailing = .ok 1 ∧ e.size = 2 ∧ p.writer.written = [0x92, 0xb4]) ∧
    ∃ p q, (⟨.integer .signed .w16 .big, .integer .unsigned .w8 .little, 2, true⟩ :
          Conversion).runThrough ordinaryMemory .i32
            (.mk [.interrupted] [0x12, 0, 0x34, 0, 0x56, 0]) .unlimited = .ok (.ok ⟨3, 0⟩, p) ∧
      (⟨.integer .signed .w16 .big, .integer .unsigned .w8 .little, 2, false⟩ :
          Conversion).runThrough ordinaryMemory .i32
            (.mk [.interrupted] [0x12, 0, 0x34, 0, 0x56, 0]) .unlimited = .ok (.ok ⟨3, 0⟩, q) ∧
      p.writer.written = q.writer.written := by
  have hragged := runThrough_strict
    ⟨.integer .signed .w16 .big, .integer .unsigned .w8 .little, 2, true⟩ ordinaryMemory .i32
    (.mk [.upTo 3] [0x12, 0, 0x34, 0, 0x56, 0, 0x99]) rfl (by simp [Reader.Steady, Piece.Steady])
    (by decide)
  have hwhole := runThrough_strict
    ⟨.integer .signed .w16 .big, .integer .unsigned .w8 .little, 2, true⟩ ordinaryMemory .i32
    (.mk [.interrupted] [0x12, 0, 0x34, 0, 0x56, 0]) rfl (by simp [Reader.Steady, Piece.Steady])
    (by decide)
  rw [if_neg (by decide)] at hragged
  rw [if_pos (by decide)] at hwhole
  obtain ⟨e, p, hp, ht, hs, hw⟩ := hragged
  exact ⟨⟨e, p, hp, ht, hs, hw.trans (by decide +kernel)⟩, hwhole⟩

end RawPcm.Conversion
