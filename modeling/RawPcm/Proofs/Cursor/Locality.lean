import RawPcm.Proofs.Transfer.Encoding

/-! A write replaces the bytes of one sample or nothing. Writes a sample apart know nothing of each
other. -/
namespace RawPcm
variable {t u : SampleType}

/-- A buffer with some bytes put over those from an offset on. -/
def overwrite (bytes : List UInt8) (offset : Nat) (piece : List UInt8) : List UInt8 :=
  bytes.take offset ++ (piece ++ bytes.drop (offset + piece.length))

section Overwrite
variable {bytes piece : List UInt8} {offset : Nat}

theorem length_overwrite (h : offset + piece.length ≤ bytes.length) :
    (overwrite bytes offset piece).length = bytes.length := by
  simp only [overwrite, List.length_append, List.length_take, List.length_drop]
  omega

theorem getElem?_overwrite (h : offset + piece.length ≤ bytes.length) (i : Nat) :
    (overwrite bytes offset piece)[i]? =
      if offset ≤ i ∧ i < offset + piece.length then piece[i - offset]? else bytes[i]? := by
  have ht : (bytes.take offset).length = offset := List.length_take_of_le (by omega)
  rcases Nat.lt_or_ge i offset with hi | hi
  · rw [overwrite, List.getElem?_append_left (by omega), List.getElem?_take_of_lt hi,
      if_neg (by omega)]
  · rw [overwrite, List.getElem?_append_right (by omega), ht]
    rcases Nat.lt_or_ge i (offset + piece.length) with hp | hp
    · rw [List.getElem?_append_left (by omega), if_pos ⟨hi, hp⟩]
    · rw [List.getElem?_append_right (by omega), List.getElem?_drop, if_neg (by omega)]
      congr 1
      omega

theorem drop_overwrite (h : offset + piece.length ≤ bytes.length) :
    (overwrite bytes offset piece).drop offset =
      piece ++ bytes.drop (offset + piece.length) :=
  List.drop_left' (List.length_take_of_le (by omega))

theorem take_drop_overwrite (h : offset + piece.length ≤ bytes.length) {j n : Nat}
    (hj : offset + piece.length ≤ j ∨ j + n ≤ offset) :
    ((overwrite bytes offset piece).drop j).take n = (bytes.drop j).take n := by
  apply List.ext_getElem?
  intro i
  rcases Nat.lt_or_ge i n with hi | hi
  · rw [List.getElem?_take_of_lt hi, List.getElem?_take_of_lt hi, List.getElem?_drop,
      List.getElem?_drop, getElem?_overwrite h, if_neg (by omega)]
  · rw [List.getElem?_take_eq_none hi, List.getElem?_take_eq_none hi]

theorem overwrite_comm {other : List UInt8} {j : Nat} (h : offset + piece.length ≤ bytes.length)
    (ho : j + other.length ≤ bytes.length)
    (hj : offset + piece.length ≤ j ∨ j + other.length ≤ offset) :
    overwrite (overwrite bytes offset piece) j other =
      overwrite (overwrite bytes j other) offset piece := by
  apply List.ext_getElem?
  intro i
  rw [getElem?_overwrite (by rwa [length_overwrite h]), getElem?_overwrite h,
    getElem?_overwrite (by rwa [length_overwrite ho]), getElem?_overwrite ho]
  -- A place that the first piece covers is not covered by the other.
  by_cases hi : offset ≤ i ∧ i < offset + piece.length
  · rw [if_pos hi, if_pos hi, if_neg (by omega)]
  · rw [if_neg hi, if_neg hi]

end Overwrite

namespace WriteCursor
variable {c : WriteCursor}

theorem bytes_filled (c : WriteCursor) (x : Sample t) :
    (c.filled [x]).bytes = overwrite c.bytes c.offset (c.format.encode x) := by
  rw [bytes_filled_singleton, overwrite, Format.length_encode]

theorem set_of_lt (h : c.bytes.length < c.offset + c.format.size) (x : Sample t) :
    c.set x = (.error .outOfBounds, c) := by
  have hl : (c.bytes.drop c.offset).length < c.format.size := by
    rw [List.length_drop]
    have := c.format.size_pos
    omega
  simp only [set, Format.write_eq, if_pos hl, List.take_append_drop]

theorem exists_setSlot_of_lt (h : c.bytes.length < c.offset + c.format.size) (x : Sample t) :
    ∃ e, c.setSlot x = (.error e, c) := by
  by_cases hs : c.offset + c.format.size < sizeLimit
  · exact ⟨.outOfBounds, by simp [setSlot, slot, Size.add, hs, Nat.not_le_of_lt h]⟩
  · exact ⟨.arithmetic, by simp [setSlot, slot, Size.add, hs]⟩

section Fits
variable (h : c.offset + c.format.size ≤ c.bytes.length)
include h

theorem set_eq_overwrite (x : Sample t) :
    c.set x = (.ok (), { c with bytes := overwrite c.bytes c.offset (c.format.encode x) }) := by
  rw [set_of_le h, bytes_filled]

theorem setSlot_eq_overwrite (hc : c.bytes.length < sizeLimit) (x : Sample t) :
    c.setSlot x =
      (.ok (), { c with bytes := overwrite c.bytes c.offset (c.format.encode x) }) := by
  rw [fills_setSlot c x hc h, bytes_filled]

theorem getSlot_eq_get (hc : c.bytes.length < sizeLimit) (u : SampleType) :
    c.getSlot u = c.get u := by
  have hs : Size.add c.offset c.format.size = .ok (c.offset + c.format.size) :=
    if_pos (Nat.lt_of_le_of_lt h hc)
  simp only [getSlot, slot, hs, if_pos h]
  exact c.format.read_congr (by rw [List.take_take, Nat.min_self])

theorem get_overwrite (x : Sample t) (u : SampleType) :
    get { c with bytes := overwrite c.bytes c.offset (c.format.encode x) } u =
      .ok (c.format.decode u (c.format.encode x)) := by
  simp only [get]
  rw [drop_overwrite (by rwa [Format.length_encode]), Format.read_encode_append]

theorem getSlot_overwrite (hc : c.bytes.length < sizeLimit) (x : Sample t) (u : SampleType) :
    getSlot { c with bytes := overwrite c.bytes c.offset (c.format.encode x) } u =
      .ok (c.format.decode u (c.format.encode x)) := by
  have hl : (overwrite c.bytes c.offset (c.format.encode x)).length = c.bytes.length :=
    length_overwrite (by rwa [Format.length_encode])
  rw [getSlot_eq_get (by rwa [hl]) (by rwa [hl]), get_overwrite h]

end Fits

theorem setSlot_agrees (hc : c.bytes.length < sizeLimit) (x : Sample t) :
    (c.setSlot x).2 = (c.set x).2 ∧ ((c.setSlot x).1 = .ok () ↔ (c.set x).1 = .ok ()) := by
  by_cases h : c.offset + c.format.size ≤ c.bytes.length
  · rw [setSlot_eq_overwrite h hc, set_eq_overwrite h]
    exact ⟨rfl, Iff.rfl⟩
  · obtain ⟨e, he⟩ := exists_setSlot_of_lt (Nat.lt_of_not_le h) x
    rw [he, set_of_lt (Nat.lt_of_not_le h)]
    exact ⟨rfl, nofun, nofun⟩

/-- A buffer after a value has been set at a position, or has failed to be. -/
def written (f : Format) (offset : Nat) (x : Sample t) (bytes : List UInt8) : List UInt8 :=
  (set ⟨bytes, offset, f⟩ x).2.bytes

theorem written_eq (f : Format) (offset : Nat) (x : Sample t) (bytes : List UInt8) :
    written f offset x bytes = if offset + f.size ≤ bytes.length then
      overwrite bytes offset (f.encode x) else bytes := by
  rw [written]
  split
  case isTrue h => rw [set_eq_overwrite (c := ⟨bytes, offset, f⟩) h]
  case isFalse h => rw [set_of_lt (c := ⟨bytes, offset, f⟩) (Nat.lt_of_not_le h)]

theorem length_written (f : Format) (offset : Nat) (x : Sample t) (bytes : List UInt8) :
    (written f offset x bytes).length = bytes.length := by
  rw [written_eq]
  split
  case isTrue h => exact length_overwrite (by rwa [f.length_encode])
  case isFalse => rfl

/-- Two positions so far apart that the sample at each ends before the other begins. -/
def Apart (f : Format) (offset : Nat) (g : Format) (j : Nat) : Prop :=
  offset + f.size ≤ j ∨ j + g.size ≤ offset

section Apart
variable {f g : Format} {offset j : Nat} (h : Apart f offset g j)
include h

theorem written_comm (x : Sample t) (y : Sample u) (bytes : List UInt8) :
    written g j y (written f offset x bytes) = written f offset x (written g j y bytes) := by
  rw [written_eq g, length_written, written_eq f offset x (written g j y bytes), length_written,
    written_eq f, written_eq g]
  by_cases hf : offset + f.size ≤ bytes.length
  · by_cases hg : j + g.size ≤ bytes.length
    · rw [if_pos hf, if_pos hg, if_pos hg, if_pos hf]
      apply overwrite_comm <;> simpa only [Format.length_encode]
    · simp only [if_neg hg]
  · simp only [if_neg hf]

theorem get_written (x : Sample t) (bytes : List UInt8) (u : SampleType) :
    get ⟨written f offset x bytes, j, g⟩ u = get ⟨bytes, j, g⟩ u := by
  apply g.read_congr
  rw [written_eq]
  split
  case isTrue hf => exact take_drop_overwrite (by rwa [f.length_encode]) (by rwa [f.length_encode])
  case isFalse => rfl

end Apart

/-- A value that does not fit leaves the buffer as it was, and so does one that fits behind and in
front of its own bytes. -/
theorem set_stays_local (f : Format) (offset : Nat) (x : Sample t) (bytes : List UInt8)
    (hb : bytes.length < sizeLimit) :
    let c : WriteCursor := ⟨bytes, offset, f⟩
    (c.setSlot x).2 = (c.set x).2 ∧ ((c.setSlot x).1 = .ok () ↔ (c.set x).1 = .ok ()) ∧
      (if offset + f.size ≤ bytes.length then
        ∃ out, c.set x = (.ok (), ⟨out, offset, f⟩) ∧ out.length = bytes.length ∧
          (out.drop offset).take f.size = f.encode x ∧
          (∀ i, i < offset ∨ offset + f.size ≤ i → out[i]? = bytes[i]?) ∧
          ∀ u, ∃ y, f.read u (f.encode x) = .ok y ∧ get ⟨out, offset, f⟩ u = .ok y ∧
            getSlot ⟨out, offset, f⟩ u = .ok y ∧
            (toCursor ⟨out, offset, f⟩).get u = .ok y ∧
            ∀ label, Cursor.get ⟨⟨label, out⟩, offset, f⟩ u = .ok y
      else (∃ e, c.set x = (.error e, c)) ∧ (∃ e, c.setSlot x = (.error e, c)) ∧
        written f offset x bytes = bytes) ∧
      ∀ {u : SampleType} (g : Format) (j : Nat) (y : Sample u) (s : Nat),
        f.size ≤ s → g.size ≤ s → offset + s ≤ j ∨ j + s ≤ offset →
        written g j y (written f offset x bytes) = written f offset x (written g j y bytes) ∧
          ∀ v, get ⟨written f offset x bytes, j, g⟩ v = get ⟨bytes, j, g⟩ v ∧
            get ⟨written g j y bytes, offset, f⟩ v = get ⟨bytes, offset, f⟩ v := by
  intro c
  obtain ⟨hstate, hanswer⟩ := setSlot_agrees (c := c) hb x
  refine ⟨hstate, hanswer, ?_, ?_⟩
  · split
    case isTrue h =>
      have hl : offset + (f.encode x).length ≤ bytes.length := by rwa [f.length_encode]
      refine ⟨overwrite bytes offset (f.encode x), set_eq_overwrite (c := c) h x,
        length_overwrite hl, ?_, ?_, ?_⟩
      · rw [drop_overwrite hl, List.take_left' (f.length_encode x)]
      · intro i hi
        rw [getElem?_overwrite hl, if_neg (by rw [f.length_encode]; omega)]
      · intro u
        have hr := f.read_encode_append x u []
        rw [List.append_nil] at hr
        have hg := get_overwrite (c := c) h x u
        exact ⟨_, hr, hg, getSlot_overwrite (c := c) h hb x u, hg, fun _ => hg⟩
    case isFalse h =>
      have hlt := Nat.lt_of_not_le h
      refine ⟨⟨_, set_of_lt (c := c) hlt x⟩, exists_setSlot_of_lt (c := c) hlt x, ?_⟩
      rw [written_eq, if_neg h]
  · intro u g j y s hf hg hj
    have ha : Apart f offset g j := by
      simp only [Apart]
      omega
    exact ⟨written_comm ha x y bytes,
      fun v => ⟨get_written ha x bytes v, get_written (Or.symm ha) y bytes v⟩⟩

theorem set_stays_local_of_16_and_24_bits :
    (∃ out, set ⟨[9, 9, 9, 9], 1, .integer .signed .w16 .big⟩ (0x0102 : Sample .i16) =
        (.ok (), ⟨out, 1, .integer .signed .w16 .big⟩) ∧ out[0]? = some 9 ∧ out[3]? = some 9 ∧
        get ⟨out, 1, .integer .signed .w16 .big⟩ .i16 = .ok 0x0102) ∧
      written (.integer .signed .w24 .little) 2 (0x0102 : Sample .i16) [9, 9, 9, 9] =
        [9, 9, 9, 9] ∧
      written (.integer .signed .w24 .little) 3 (0x0102 : Sample .i16)
          (written (.integer .signed .w16 .big) 0 (0x0304 : Sample .i16) [9, 9, 9, 9, 9, 9]) =
        written (.integer .signed .w16 .big) 0 (0x0304 : Sample .i16)
          (written (.integer .signed .w24 .little) 3 (0x0102 : Sample .i16) [9, 9, 9, 9, 9, 9]) := by
  refine ⟨?_, ?_, ?_⟩
  · have h := (set_stays_local (.integer .signed .w16 .big) 1 (0x0102 : Sample .i16)
      [9, 9, 9, 9] (by decide)).2.2.1
    rw [if_pos (by decide)] at h
    obtain ⟨out, hs, -, -, hout, hget⟩ := h
    obtain ⟨y, hr, hy, -⟩ := hget .i16
    have he : Format.read (.integer .signed .w16 .big) .i16
        (Format.encode (.integer .signed .w16 .big) (0x0102 : Sample .i16)) = .ok 0x0102 := rfl
    exact ⟨out, hs, hout 0 (by decide), hout 3 (by decide), hy.trans (hr.symm.trans he)⟩
  · have h := (set_stays_local (.integer .signed .w24 .little) 2 (0x0102 : Sample .i16)
      [9, 9, 9, 9] (by decide)).2.2.1
    rw [if_neg (by decide)] at h
    exact h.2.2
  · exact ((set_stays_local (.integer .signed .w16 .big) 0 (0x0304 : Sample .i16)
      [9, 9, 9, 9, 9, 9] (by decide)).2.2.2 (.integer .signed .w24 .little) 3
      (0x0102 : Sample .i16) 3 (by decide) (by decide) (by decide)).1

end WriteCursor
end RawPcm
