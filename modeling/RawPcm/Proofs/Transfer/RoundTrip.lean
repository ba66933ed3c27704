import RawPcm.Proofs.Codec.Floating
import RawPcm.Proofs.Transfer.Bounded

/-! Bytes that are read as values and written again come back if the values can hold them. -/
namespace RawPcm
variable {t : SampleType}

theorem readInto_writeInto (f : Format) {bytes buf : List UInt8} {out : List (Sample t)}
    (hb : bytes.length < sizeLimit) (ho : bytes.length / f.size ≤ out.length)
    (hr : bytes.length / f.size * f.size ≤ buf.length) (hl : buf.length < sizeLimit) :
    readInto bytes f out = .ok (.ok (bytes.length / f.size,
        f.decodeAll t bytes ++ out.drop (bytes.length / f.size))) ∧
      writeInto (f.decodeAll t bytes) f buf = .ok (.ok (bytes.length / f.size,
        (f.chunks bytes).flatMap (fun chunk => f.encode (f.decode t chunk)) ++
          buf.drop (bytes.length / f.size * f.size))) := by
  have hn := f.length_decodeAll (t := t) bytes
  have hm : bytes.length / f.size ≤ buf.length / f.size :=
    (Nat.le_div_iff_mul_le f.size_pos).mpr hr
  constructor
  · rw [readInto_eq hb, Nat.min_eq_left ho, List.take_of_length_le (by omega)]
  · rw [writeInto_eq _ f hl, hn, Nat.min_eq_left hm, List.take_of_length_le (by omega),
      Format.encodeAll, Format.decodeAll, List.flatMap_map]

/-- Reading as integers that are wide enough and writing in the same format changes nothing. -/
theorem write_read_integer (s u : Signedness) (w : Width) (o : ByteOrder) (n : WordSize)
    (h : w.bits ≤ n.bits) (bytes buf : List UInt8) (out : List (Sample (.integer u n)))
    (hb : bytes.length < sizeLimit) (ho : bytes.length / w.bytes ≤ out.length)
    (hr : bytes.length / w.bytes * w.bytes ≤ buf.length) (hl : buf.length < sizeLimit) :
    ∃ xs, xs.length = bytes.length / w.bytes ∧
      readInto bytes (.integer s w o) out =
        .ok (.ok (bytes.length / w.bytes, xs ++ out.drop (bytes.length / w.bytes))) ∧
      writeInto xs (.integer s w o) buf = .ok (.ok (bytes.length / w.bytes,
        bytes.take (bytes.length / w.bytes * w.bytes) ++
          buf.drop (bytes.length / w.bytes * w.bytes))) := by
  obtain ⟨hrd, hwr⟩ := readInto_writeInto (.integer s w o) hb ho hr hl
  refine ⟨_, Format.length_decodeAll .., hrd, ?_⟩
  rw [hwr, Format.flatMap_chunks]
  · rfl
  · intro chunk hm
    exact Format.encode_decode_integer h (Format.length_of_mem_chunks _ hm)

theorem write_read_two_samples_and_a_byte :
    ∃ xs : List (Sample .u32), xs.length = 2 ∧
      readInto [0x80, 0x00, 0x00, 0xff, 0xff, 0xfe, 0x55] (.integer .signed .w24 .big)
        [1, 2, (3 : Sample .u32)] = .ok (.ok (2, xs ++ [3])) ∧
      writeInto xs (.integer .signed .w24 .big) [9, 9, 9, 9, 9, 9, 9, 9] =
        .ok (.ok (2, [0x80, 0x00, 0x00, 0xff, 0xff, 0xfe, 9, 9])) :=
  write_read_integer .signed .unsigned .w24 .big .w32 (by decide)
    [0x80, 0x00, 0x00, 0xff, 0xff, 0xfe, 0x55] [9, 9, 9, 9, 9, 9, 9, 9] [1, 2, 3] (by decide)
    (by decide) (by decide) (by decide)

/-- Reading as floating point numbers with enough digits and writing in the same format changes
nothing but NaNs. -/
theorem write_read_floating (f : Format) (p : Precision) (hf : p.Carries f) (bytes buf : List UInt8)
    (out : List (Sample (.floating p))) (hb : bytes.length < sizeLimit)
    (ho : bytes.length / f.size ≤ out.length) (hr : bytes.length / f.size * f.size ≤ buf.length)
    (hl : buf.length < sizeLimit) :
    ∃ (xs : List (Sample (.floating p))) (back : List UInt8),
      xs.length = bytes.length / f.size ∧
      readInto bytes f out =
        .ok (.ok (bytes.length / f.size, xs ++ out.drop (bytes.length / f.size))) ∧
      writeInto xs f buf = .ok (.ok (bytes.length / f.size,
        back ++ buf.drop (bytes.length / f.size * f.size))) ∧
      back.length = bytes.length / f.size * f.size ∧
      (∀ (i : Nat) (chunk : List UInt8), (f.chunks bytes)[i]? = some chunk → f.isNaN chunk = false →
        (f.chunks back)[i]? = some chunk) ∧
      ((∀ chunk ∈ f.chunks bytes, f.isNaN chunk = false) →
        back = bytes.take (bytes.length / f.size * f.size)) := by
  obtain ⟨hrd, hwr⟩ := readInto_writeInto f hb ho hr hl
  have hback : (f.chunks bytes).flatMap (fun chunk => f.encode (f.decode (.floating p) chunk)) =
      f.encodeAll (f.decodeAll (.floating p) bytes) := by
    rw [Format.encodeAll, Format.decodeAll, List.flatMap_map]
  have hsame {chunk : List UInt8} (hc : chunk ∈ f.chunks bytes) (hn : f.isNaN chunk = false) :
      f.encode (f.decode (.floating p) chunk) = chunk :=
    Format.encode_decode_floating hf (f.length_of_mem_chunks hc) hn
  refine ⟨_, _, f.length_decodeAll bytes, hrd, hwr, ?_, ?_, ?_⟩
  · rw [hback, Format.length_encodeAll, Format.length_decodeAll]
  · intro i chunk hi hn
    rw [hback, Format.chunks_encodeAll, Format.decodeAll, List.map_map, List.getElem?_map, hi]
    exact congrArg some (hsame (List.mem_of_getElem? hi) hn)
  · intro hn
    exact f.flatMap_chunks fun chunk hm => hsame hm (hn chunk hm)

theorem write_read_full_scale_and_a_byte :
    ∃ (xs : List (Sample .f32)) (back : List UInt8), xs.length = 2 ∧
      readInto [0x80, 0x00, 0x00, 0x7f, 0xff, 0xff, 0x55] (.integer .signed .w24 .big)
        [1, 2, (3 : Sample .f32)] = .ok (.ok (2, xs ++ [3])) ∧
      writeInto xs (.integer .signed .w24 .big) [9, 9, 9, 9, 9, 9, 9] = .ok (.ok (2, back ++ [9])) ∧
      back = [0x80, 0x00, 0x00, 0x7f, 0xff, 0xff] := by
  obtain ⟨xs, back, hn, hr, hw, -, -, he⟩ := write_read_floating (.integer .signed .w24 .big)
    .single (by decide) [0x80, 0x00, 0x00, 0x7f, 0xff, 0xff, 0x55] [9, 9, 9, 9, 9, 9, 9] [1, 2, 3]
    (by decide) (by decide) (by decide) (by decide)
  exact ⟨xs, back, hn, hr, hw, he fun _ _ => rfl⟩

end RawPcm
