import RawPcm.Proofs.Transfer.Complete

/-! All ways to put values down as bytes leave the same buffer. -/
namespace RawPcm
variable {t : SampleType}

namespace WriteCursor

def putEach (put : WriteCursor → Sample t → Except Fault Unit × WriteCursor) :
    List (Sample t) → WriteCursor → Except Fault Unit × WriteCursor
  | [], c => (.ok (), c)
  | x :: xs, c =>
    match put c x with
    | (.error e, c) => (.error e, c)
    | (.ok (), c) =>
      match c.advance with
      | (.error e, c) => (.error e, c)
      | (.ok (), c) => putEach put xs c

/-- A way to put a value down that succeeds where the buffer has the bytes for it. -/
def Fills (put : WriteCursor → Sample t → Except Fault Unit × WriteCursor) : Prop :=
  ∀ (c : WriteCursor) (x : Sample t), c.bytes.length < sizeLimit →
    c.offset + c.format.size ≤ c.bytes.length →
      put c x = (.ok (), { c with bytes := (c.filled [x]).bytes })

theorem fills_set : Fills (set (t := t)) := fun _ x _ h => set_of_le h x

theorem fills_setSlot : Fills (setSlot (t := t)) := by
  intro c x hc h
  have hs : Size.add c.offset c.format.size = .ok (c.offset + c.format.size) :=
    if_pos (Nat.lt_of_le_of_lt h hc)
  have hl : ((c.bytes.drop c.offset).take c.format.size).length = c.format.size := by
    rw [List.length_take, List.length_drop]
    omega
  have hd : ((c.bytes.drop c.offset).take c.format.size).drop c.format.size = [] :=
    List.drop_of_length_le (Nat.le_of_eq hl)
  simp only [setSlot, slot, hs, if_pos h, Format.write_of_le _ (Nat.le_of_eq hl.symm), hd,
    List.append_nil, bytes_filled_singleton, List.append_assoc]

theorem putEach_eq {put : WriteCursor → Sample t → Except Fault Unit × WriteCursor}
    (hput : Fills put) {xs : List (Sample t)} {c : WriteCursor} (hc : c.bytes.length < sizeLimit)
    (h : xs.length ≤ c.remaining) : putEach put xs c = (.ok (), c.filled xs) := by
  induction xs generalizing c with
  | nil => rw [putEach, filled_nil]
  | cons x xs ih =>
    have h1 : [x].length ≤ c.remaining := Nat.le_trans (Nat.succ_le_succ (Nat.zero_le _)) h
    have hb := offset_add_size_le (Nat.ne_of_gt h1)
    have hr : xs.length ≤ (c.filled [x]).remaining := by
      rw [remaining_filled h1]
      exact Nat.le_sub_of_add_le h
    have hn := ih (by rwa [length_bytes_filled h1]) hr
    simp only [putEach, hput c x hc hb, advance_of_lt (Nat.lt_of_le_of_lt hb hc), hn,
      filled_append h1, List.singleton_append]

end WriteCursor

theorem Format.writeEach_eq (f : Format) (xs : List (Sample t)) (bytes : List UInt8) :
    f.writeEach xs bytes = .ok (min xs.length (bytes.length / f.size),
      f.encodeAll (xs.take (bytes.length / f.size)) ++
        bytes.drop (min xs.length (bytes.length / f.size) * f.size)) := by
  induction xs generalizing bytes with
  | nil => simp [writeEach, encodeAll]
  | cons x xs ih =>
    rcases Nat.lt_or_ge bytes.length f.size with hl | hl
    · simp [writeEach, hl, Nat.div_eq_of_lt hl, encodeAll]
    · have hw := f.write_of_le hl x
      have hx := f.length_encode x
      have hn : bytes.length / f.size = (bytes.drop f.size).length / f.size + 1 := by
        rw [List.length_drop, Nat.div_eq_sub_div f.size_pos hl]
      simp only [writeEach, if_neg (Nat.not_lt_of_le hl), hw, List.drop_left' hx,
        List.take_left' hx, ih, hn, List.length_cons, Nat.add_min_add_right, List.take_succ_cons,
        encodeAll, List.flatMap_cons, List.append_assoc, List.drop_drop, Nat.succ_mul,
        Nat.add_comm f.size]

/-- A transfer of all values that breaks off has put down as many as fit, as the others do. -/
theorem encodings_agree (f : Format) (xs : List (Sample t)) (bytes : List UInt8) (offset : Nat)
    (hb : bytes.length < sizeLimit) :
    let room := (bytes.length - offset) / f.size
    let count := min xs.length room
    let out := bytes.take offset ++ (xs.take count).flatMap f.encode ++
      bytes.drop (offset + count * f.size)
    let stop : WriteCursor := ⟨out, offset + count * f.size, f⟩
    copyBounded (.values xs) (.cursor ⟨bytes, offset, f⟩) =
        (.ok (), ⟨.values (xs.drop count), .cursor stop, none⟩) ∧
      copy (.values xs) (.cursor ⟨bytes, offset, f⟩) =
        (.ok (), ⟨.values (xs.drop (count + 1)), .cursor stop,
          if xs.length ≤ room then none else some (.bufferFull f)⟩) ∧
      WriteCursor.putEach WriteCursor.set (xs.take count) ⟨bytes, offset, f⟩ = (.ok (), stop) ∧
      WriteCursor.putEach WriteCursor.setSlot (xs.take count) ⟨bytes, offset, f⟩ = (.ok (), stop) ∧
      (offset = 0 → writeInto xs f bytes = .ok (.ok (count, out)) ∧
        f.writeEach xs bytes = .ok (count, out)) ∧
      (Format.writers t)[f.index]? = some f.write := by
  intro room count out stop
  have hk : (xs.take count).length = count := List.length_take_of_le (Nat.min_le_left ..)
  have hs : (⟨bytes, offset, f⟩ : WriteCursor).filled (xs.take count) = stop := by
    simp only [WriteCursor.filled, hk]
    rfl
  have hr : (xs.take count).length ≤ (⟨bytes, offset, f⟩ : WriteCursor).remaining := by
    rw [hk]
    exact Nat.min_le_right ..
  have ha : (Sink.cursor ⟨bytes, offset, f⟩ : Sink t).accepted xs.length = count := rfl
  have hd : (Sink.cursor ⟨bytes, offset, f⟩ : Sink t).filled (xs.take count) = .cursor stop :=
    congrArg Sink.cursor hs
  refine ⟨?_, ?_, ?_, ?_, ?_, f.writers_index t⟩
  · rw [copyBounded_values xs (d := .cursor ⟨bytes, offset, f⟩) hb, ha, hd]
  · have hle : xs.length ≤ count ↔ xs.length ≤ room := by omega
    rw [copy_eq (s := .values xs) trivial (Source.holds_values xs)
      (d := .cursor ⟨bytes, offset, f⟩) hb, Source.after_values, ha, hd]
    simp only [hle]
    rfl
  · rw [WriteCursor.putEach_eq WriteCursor.fills_set hb hr, hs]
  · rw [WriteCursor.putEach_eq WriteCursor.fills_setSlot hb hr, hs]
  · rintro rfl
    have hout : out = f.encodeAll (xs.take (bytes.length / f.size)) ++
        bytes.drop (min xs.length (bytes.length / f.size) * f.size) := by
      have ht : xs.take (bytes.length / f.size) = xs.take count := by
        rw [List.take_eq_take_min, Nat.min_comm]
        rfl
      rw [ht, ← Nat.zero_add (_ * _)]
      rfl
    rw [hout, writeInto_eq xs f hb, f.writeEach_eq xs bytes]
    exact ⟨rfl, rfl⟩

theorem encodings_of_two_values_and_one_too_many :
    copy (.values [1, 2, (3 : Sample .i16)])
        (.cursor ⟨[9, 9, 9, 9, 9, 9], 1, .integer .signed .w16 .big⟩) =
      (.ok (), ⟨.values [], .cursor ⟨[9, 0, 1, 0, 2, 9], 5, .integer .signed .w16 .big⟩,
        some (.bufferFull (.integer .signed .w16 .big))⟩) ∧
    WriteCursor.putEach WriteCursor.setSlot [1, (2 : Sample .i16)]
        ⟨[9, 9, 9, 9, 9, 9], 1, .integer .signed .w16 .big⟩ =
      (.ok (), ⟨[9, 0, 1, 0, 2, 9], 5, .integer .signed .w16 .big⟩) := by
  obtain ⟨-, hc, -, hs, -⟩ := encodings_agree (.integer .signed .w16 .big)
    [1, 2, (3 : Sample .i16)] [9, 9, 9, 9, 9, 9] 1 (by decide)
  exact ⟨hc, hs⟩

end RawPcm
