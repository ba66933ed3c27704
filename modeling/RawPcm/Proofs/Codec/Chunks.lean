import RawPcm.Codec

/-! Bytes taken sample by sample. A cut between two samples cuts the row of pieces. -/
namespace RawPcm.Format
variable (f : Format) {t : SampleType}

theorem length_firstChunks (count : Nat) (bytes : List UInt8) :
    (f.firstChunks count bytes).length = count := by
  induction count generalizing bytes with
  | zero => rfl
  | succ count ih => simp [firstChunks, ih]

theorem length_chunks (bytes : List UInt8) : (f.chunks bytes).length = bytes.length / f.size :=
  f.length_firstChunks _ bytes

theorem length_decodeAll (bytes : List UInt8) :
    (f.decodeAll t bytes).length = bytes.length / f.size := by
  simp [decodeAll, length_chunks]

theorem length_encodeAll (xs : List (Sample t)) : (f.encodeAll xs).length = xs.length * f.size := by
  induction xs with
  | nil => simp [encodeAll]
  | cons x xs ih =>
    have h : (f.encodeAll (x :: xs)).length = f.size + (f.encodeAll xs).length := by
      simp [encodeAll, length_encode]
    rw [h, ih, List.length_cons, Nat.succ_mul, Nat.add_comm]

theorem encodeAll_append (xs ys : List (Sample t)) :
    f.encodeAll (xs ++ ys) = f.encodeAll xs ++ f.encodeAll ys := List.flatMap_append

theorem firstChunks_append (count : Nat) {bytes : List UInt8} (more : List UInt8)
    (h : count * f.size ≤ bytes.length) :
    f.firstChunks count (bytes ++ more) = f.firstChunks count bytes := by
  induction count generalizing bytes with
  | zero => rfl
  | succ count ih =>
    rw [Nat.succ_mul] at h
    have hd : count * f.size ≤ (bytes.drop f.size).length := by
      rw [List.length_drop]
      omega
    simp only [firstChunks, List.take_append_of_le_length (show f.size ≤ bytes.length by omega),
      List.drop_append_of_le_length (show f.size ≤ bytes.length by omega), ih hd]

theorem firstChunks_add (m n : Nat) (bytes : List UInt8) :
    f.firstChunks (m + n) bytes =
      f.firstChunks m bytes ++ f.firstChunks n (bytes.drop (m * f.size)) := by
  induction m generalizing bytes with
  | zero => simp [firstChunks]
  | succ m ih =>
    rw [Nat.succ_add]
    simp only [firstChunks, List.cons_append, List.drop_drop, ih, Nat.succ_mul]
    rw [Nat.add_comm f.size]

theorem firstChunks_succ (count : Nat) (bytes : List UInt8) :
    f.firstChunks (count + 1) bytes =
      f.firstChunks count bytes ++ [(bytes.drop (count * f.size)).take f.size] :=
  f.firstChunks_add count 1 bytes

theorem flatten_firstChunks (count : Nat) (bytes : List UInt8) :
    (f.firstChunks count bytes).flatten = bytes.take (count * f.size) := by
  induction count generalizing bytes with
  | zero => simp [firstChunks]
  | succ count ih =>
    rw [firstChunks, List.flatten_cons, ih, Nat.succ_mul, Nat.add_comm, List.take_add]

theorem length_of_mem_firstChunks {count : Nat} {bytes chunk : List UInt8}
    (h : count * f.size ≤ bytes.length) (hc : chunk ∈ f.firstChunks count bytes) :
    chunk.length = f.size := by
  induction count generalizing bytes with
  | zero => simp [firstChunks] at hc
  | succ count ih =>
    rw [Nat.succ_mul] at h
    rcases List.mem_cons.mp hc with rfl | hc
    · rw [List.length_take]
      omega
    · exact ih (by rw [List.length_drop]; omega) hc

theorem length_of_mem_chunks {bytes chunk : List UInt8} (h : chunk ∈ f.chunks bytes) :
    chunk.length = f.size :=
  f.length_of_mem_firstChunks (Nat.div_mul_le_self ..) h

theorem getElem?_firstChunks {count i : Nat} (h : i < count) (bytes : List UInt8) :
    (f.firstChunks count bytes)[i]? = some ((bytes.drop (i * f.size)).take f.size) := by
  induction count generalizing i bytes with
  | zero => exact absurd h (Nat.not_lt_zero i)
  | succ count ih =>
    cases i with
    | zero => simp [firstChunks]
    | succ i =>
      rw [firstChunks, List.getElem?_cons_succ, ih (Nat.lt_of_succ_lt_succ h), List.drop_drop,
        Nat.succ_mul, Nat.add_comm]

theorem chunks_of_lt {bytes : List UInt8} (h : bytes.length < f.size) : f.chunks bytes = [] := by
  rw [chunks, Nat.div_eq_of_lt h, firstChunks]

theorem chunks_of_le {bytes : List UInt8} (h : f.size ≤ bytes.length) :
    f.chunks bytes = bytes.take f.size :: f.chunks (bytes.drop f.size) := by
  rw [chunks, Nat.div_eq_sub_div f.size_pos h, firstChunks, chunks, List.length_drop]

theorem flatten_chunks (bytes : List UInt8) :
    (f.chunks bytes).flatten = bytes.take (bytes.length / f.size * f.size) :=
  f.flatten_firstChunks _ bytes

theorem flatMap_chunks {bytes : List UInt8} {g : List UInt8 → List UInt8}
    (h : ∀ chunk ∈ f.chunks bytes, g chunk = chunk) :
    (f.chunks bytes).flatMap g = bytes.take (bytes.length / f.size * f.size) := by
  have hm : (f.chunks bytes).map g = (f.chunks bytes).map id := List.map_congr_left h
  rw [List.flatMap_def, hm, List.map_id, flatten_chunks]

/-- Bytes that are cut between two samples. -/
theorem chunks_append {bytes : List UInt8} {count : Nat} (h : bytes.length = count * f.size)
    (more : List UInt8) : f.chunks (bytes ++ more) = f.chunks bytes ++ f.chunks more := by
  have hs := f.size_pos
  have hb : bytes.length / f.size = count := by rw [h, Nat.mul_div_cancel _ hs]
  have hm : (bytes ++ more).length / f.size = count + more.length / f.size := by
    rw [List.length_append, h, Nat.add_comm, Nat.add_mul_div_right _ _ hs, Nat.add_comm]
  simp only [chunks, hm, hb, firstChunks_add, f.firstChunks_append count more (Nat.le_of_eq h.symm)]
  rw [← h, List.drop_left]

theorem decodeAll_append {bytes : List UInt8} {count : Nat} (h : bytes.length = count * f.size)
    (more : List UInt8) :
    f.decodeAll t (bytes ++ more) = f.decodeAll t bytes ++ f.decodeAll t more := by
  simp [decodeAll, f.chunks_append h]

/-- Pieces of the size of a sample are found again in what they are put together to. -/
theorem chunks_flatten {pieces : List (List UInt8)} (h : ∀ piece ∈ pieces, piece.length = f.size) :
    f.chunks pieces.flatten = pieces := by
  induction pieces with
  | nil => simp [chunks, firstChunks]
  | cons piece pieces ih =>
    have hp : piece.length = f.size := h piece (List.mem_cons_self ..)
    have hc : f.chunks piece = [piece] := by
      rw [chunks, hp, Nat.div_self f.size_pos, firstChunks,
        List.take_of_length_le (Nat.le_of_eq hp)]
      rfl
    rw [List.flatten_cons, f.chunks_append (hp.trans (Nat.one_mul _).symm), hc,
      ih fun q hq => h q (List.mem_cons_of_mem piece hq)]
    rfl

theorem chunks_take {count : Nat} {bytes : List UInt8} (h : count * f.size ≤ bytes.length) :
    f.chunks (bytes.take (count * f.size)) = f.firstChunks count bytes := by
  rw [← flatten_firstChunks]
  exact f.chunks_flatten fun _ hp => f.length_of_mem_firstChunks h hp

theorem chunks_encodeAll (xs : List (Sample t)) : f.chunks (f.encodeAll xs) = xs.map f.encode := by
  rw [encodeAll, List.flatMap_def]
  apply f.chunks_flatten
  intro piece hp
  obtain ⟨x, -, rfl⟩ := List.mem_map.mp hp
  exact f.length_encode x

theorem decode_take (t : SampleType) (bytes : List UInt8) :
    f.decode t (bytes.take f.size) = f.decode t bytes := by
  simp [decode, ByteOrder.raise, List.take_take]

theorem read_encode_append (x : Sample t) (u : SampleType) (rest : List UInt8) :
    f.read u (f.encode x ++ rest) = .ok (f.decode u (f.encode x)) := by
  have hl := f.length_encode x
  rw [read_eq, if_neg (by rw [List.length_append]; omega), ← f.decode_take, List.take_left' hl]

theorem read_congr {a b : List UInt8} (h : a.take f.size = b.take f.size) :
    f.read t a = f.read t b := by
  have hl := congrArg List.length h
  rw [List.length_take, List.length_take] at hl
  rw [read_eq, read_eq, ← f.decode_take t a, ← f.decode_take t b, h]
  congr 1
  exact propext (by omega)

theorem decodeAll_of_lt {bytes : List UInt8} (h : bytes.length < f.size) :
    f.decodeAll t bytes = [] := by
  rw [decodeAll, f.chunks_of_lt h, List.map_nil]

theorem decodeAll_nil : f.decodeAll t [] = [] := f.decodeAll_of_lt f.size_pos

theorem decodeAll_of_le {bytes : List UInt8} (h : f.size ≤ bytes.length) :
    f.decodeAll t bytes = f.decode t bytes :: f.decodeAll t (bytes.drop f.size) := by
  rw [decodeAll, f.chunks_of_le h, List.map_cons, decode_take, decodeAll]

theorem decodeAll_drop (count : Nat) (bytes : List UInt8) :
    f.decodeAll t (bytes.drop (count * f.size)) = (f.decodeAll t bytes).drop count := by
  induction count generalizing bytes with
  | zero => simp
  | succ count ih =>
    rw [Nat.succ_mul, Nat.add_comm, ← List.drop_drop, ih]
    rcases Nat.lt_or_ge bytes.length f.size with hl | hl
    · rw [List.drop_of_length_le (Nat.le_of_lt hl), f.decodeAll_of_lt hl,
        List.drop_nil, f.decodeAll_nil, List.drop_nil]
    · rw [f.decodeAll_of_le hl, List.drop_succ_cons]

theorem read_eq_getElem_decodeAll (bytes : List UInt8) {i : Nat}
    (h : i < (f.decodeAll t bytes).length) :
    f.read t ((bytes.drop (i * f.size)).take f.size) = .ok (f.decodeAll t bytes)[i] := by
  have hn := h
  rw [length_decodeAll] at hn
  have hc := f.getElem?_firstChunks hn bytes
  have hl : ¬ ((bytes.drop (i * f.size)).take f.size).length < f.size :=
    Nat.not_lt_of_le (Nat.le_of_eq (f.length_of_mem_chunks (List.mem_of_getElem? hc)).symm)
  have hx : (f.decodeAll t bytes)[i]? = some (f.decode t ((bytes.drop (i * f.size)).take f.size)) := by
    rw [decodeAll, List.getElem?_map, chunks, hc, Option.map_some]
  rw [read_eq, if_neg hl, (List.getElem?_eq_some_iff.mp hx).2]

end RawPcm.Format
