import RawPcm.Proofs.Codec.Chunks
import RawPcm.Transfer.Operand

/-! A source as the values that it gives one after the other. -/
namespace RawPcm
variable {t : SampleType}

namespace Source

/-- The values that a source gives before it has none. -/
inductive Holds : Source t → List (Sample t) → Prop
  | nil {s : Source t} (h : s.pull = (.ok none, s)) : Holds s []
  | cons {s s' : Source t} {x : Sample t} {xs : List (Sample t)}
      (h : s.pull = (.ok (some x), s')) (hs : Holds s' xs) : Holds s (x :: xs)

def after : Source t → (count : Nat) → Source t
  | s, 0 => s
  | s, count + 1 => s.pull.2.after count

theorem Holds.unique {s : Source t} {xs ys : List (Sample t)} (hx : s.Holds xs) (hy : s.Holds ys) :
    xs = ys := by
  induction hx generalizing ys with
  | nil h =>
    cases hy with
    | nil _ => rfl
    | cons h' _ => simp [h] at h'
  | cons h _ ih =>
    cases hy with
    | nil h' => simp [h] at h'
    | cons h' hs' =>
      rw [h] at h'
      cases h'
      rw [ih hs']

theorem Holds.after {s : Source t} {xs : List (Sample t)} (h : s.Holds xs) (count : Nat) :
    (s.after count).Holds (xs.drop count) := by
  induction count generalizing s xs with
  | zero => exact h
  | succ count ih =>
    cases h with
    | nil h => simpa [Source.after, h] using ih (.nil h)
    | cons h hs => simpa [Source.after, h] using ih hs

theorem holds_values (xs : List (Sample t)) : (values xs).Holds xs := by
  induction xs with
  | nil => exact .nil rfl
  | cons x xs ih => exact .cons rfl ih

theorem after_values (xs : List (Sample t)) (count : Nat) :
    (values xs).after count = values (xs.drop count) := by
  induction count generalizing xs with
  | zero => rfl
  | succ count ih =>
    cases xs with
    | nil => simpa [after, pull] using ih []
    | cons x xs => simpa [after, pull] using ih xs

end Source

namespace Span
variable {s : Span} {n : Nat}

theorem next_of_remaining (hr : s.remaining = .ok (n + 1))
    (h : s.front.offset + s.front.format.size ≤ s.front.buffer.bytes.length)
    (hb : s.front.buffer.bytes.length < sizeLimit) :
    s.next t = (.ok (some (s.front.format.decode t (s.front.buffer.bytes.drop s.front.offset))),
      { s with front := { s.front with offset := s.front.offset + s.front.format.size } }) := by
  simp only [next, hr, Cursor.get_of_le h, Cursor.advance_of_lt (Nat.lt_of_le_of_lt h hb)]

theorem nextBack_of_remaining (hr : s.remaining = .ok (n + 1))
    (hs : s.back.format.size ≤ s.back.offset)
    (h : s.back.offset ≤ s.back.buffer.bytes.length) :
    let back := { s.back with offset := s.back.offset - s.back.format.size }
    s.nextBack t = (.ok (some (back.format.decode t (back.buffer.bytes.drop back.offset))),
      { s with back }) := by
  intro back
  have hg : back.get t = .ok (back.format.decode t (back.buffer.bytes.drop back.offset)) := by
    apply Cursor.get_of_le
    simp only [back]
    omega
  simp only [nextBack, hr, Cursor.retreat_of_le hs]
  rw [hg]

end Span

/-- The samples from an offset on, `count` of them. -/
def Span.ofCount (buffer : Buffer) (format : Format) (offset count : Nat) : Span :=
  ⟨⟨buffer, offset, format⟩, ⟨buffer, offset + count * format.size, format⟩⟩

theorem Span.whole_eq (buffer : Buffer) (format : Format) :
    whole buffer format = ofCount buffer format 0 (buffer.bytes.length / format.size) := by
  have h := Nat.div_add_mod buffer.bytes.length format.size
  rw [Nat.mul_comm] at h
  have hn : buffer.bytes.length - buffer.bytes.length % format.size =
      0 + buffer.bytes.length / format.size * format.size := by omega
  simp only [whole, ofCount, Cursor.start, hn]

theorem Span.remaining_ofCount (b : Buffer) (f : Format) (offset count : Nat) :
    (ofCount b f offset count).remaining = .ok count := by
  simp [remaining, ofCount, Size.sub, Span.format, Nat.mul_div_cancel _ f.size_pos]

theorem Span.next_ofCount {b : Buffer} (hb : b.bytes.length < sizeLimit) (f : Format)
    {offset count : Nat} (h : offset + (count + 1) * f.size ≤ b.bytes.length) :
    (ofCount b f offset (count + 1)).next t =
      (.ok (some (f.decode t (b.bytes.drop offset))), ofCount b f (offset + f.size) count) := by
  have he : offset + (count + 1) * f.size = offset + f.size + count * f.size := by
    rw [Nat.succ_mul]
    omega
  have hs : offset + f.size ≤ b.bytes.length := by omega
  rw [next_of_remaining (remaining_ofCount ..) hs hb]
  simp only [ofCount, he]

theorem Span.next_ofCount_zero (b : Buffer) (f : Format) (offset : Nat) :
    (ofCount b f offset 0).next t = (.ok none, ofCount b f offset 0) := by
  unfold next
  rw [remaining_ofCount]

namespace Source

theorem holds_ofCount {b : Buffer} (hb : b.bytes.length < sizeLimit) (f : Format)
    (offset count : Nat) (h : offset + count * f.size ≤ b.bytes.length) :
    (span (.ofCount b f offset count) : Source t).Holds
      ((f.firstChunks count (b.bytes.drop offset)).map (f.decode t)) := by
  induction count generalizing offset with
  | zero => exact .nil (by simp [pull, Span.next_ofCount_zero])
  | succ count ih =>
    have hs := h
    rw [Nat.succ_mul] at hs
    rw [Format.firstChunks, List.map_cons, List.drop_drop, f.decode_take]
    refine .cons ?_ (ih (offset + f.size) (by omega))
    simp [pull, Span.next_ofCount hb f h]

theorem holds_whole {b : Buffer} (hb : b.bytes.length < sizeLimit) (f : Format) :
    (span (.whole b f) : Source t).Holds (f.decodeAll t b.bytes) := by
  rw [Span.whole_eq]
  exact holds_ofCount hb f 0 _ (by rw [Nat.zero_add]; exact Nat.div_mul_le_self ..)

end Source

theorem Stream.fetch_of_lt {f : Format} {bytes : List UInt8} (h : bytes.length < f.size) :
    fetch f t bytes = (none, []) := by
  have hl : (bytes.take f.size).length < f.size := by
    rw [List.length_take]
    omega
  simp only [fetch, if_pos hl]

theorem Stream.fetch_of_le {f : Format} {bytes : List UInt8} (h : f.size ≤ bytes.length) :
    fetch f t bytes = (some (f.decode t bytes), bytes.drop f.size) := by
  have hl : ¬ (bytes.take f.size).length < f.size := by
    rw [List.length_take]
    omega
  simp only [fetch, if_neg hl, Format.decode_take]

namespace Source

theorem holds_start (f : Format) (bytes : List UInt8) :
    (stream (.start t bytes f)).Holds (f.decodeAll t bytes) := by
  induction hn : bytes.length using Nat.strongRecOn generalizing bytes with
  | ind n ih =>
    subst hn
    rcases Nat.lt_or_ge bytes.length f.size with hl | hl
    · rw [f.decodeAll_of_lt hl]
      exact .nil (by simp [pull, Stream.start, Stream.fetch_of_lt hl, Stream.next])
    · have hs := f.size_pos
      have hd := ih (bytes.drop f.size).length (by rw [List.length_drop]; omega) _ rfl
      rw [f.decodeAll_of_le hl]
      refine .cons ?_ hd
      simp [pull, Stream.start, Stream.fetch_of_le hl, Stream.next]

theorem holds_stream (s : Stream t) :
    (stream s).Holds (s.current.elim [] fun x => x :: s.format.decodeAll t s.rest) := by
  obtain ⟨rest, f, current⟩ := s
  cases current with
  | none => exact .nil rfl
  | some x => exact .cons rfl (holds_start f rest)

end Source

/-- What the checks of `Span.between` let through, over one buffer and in one format. -/
structure Span.Sound (s : Span) : Prop where
  buffer : s.back.buffer = s.front.buffer
  format : s.back.format = s.front.format
  accepted : between s.front s.back = .ok s
  addressable : s.front.buffer.bytes.length < sizeLimit

theorem Span.sound_ofCount {b : Buffer} (hb : b.bytes.length < sizeLimit) {f : Format}
    {offset count : Nat} (h : offset + count * f.size ≤ b.bytes.length) :
    (ofCount b f offset count).Sound where
  buffer := rfl
  format := rfl
  accepted := by
    refine between_eq_ok_iff.mpr ⟨rfl, rfl, Nat.le_add_right .., h, ?_⟩
    simp only [ofCount, Nat.add_sub_cancel_left]
    exact Nat.dvd_mul_left ..
  addressable := hb

theorem Span.sound_whole {b : Buffer} (hb : b.bytes.length < sizeLimit) (f : Format) :
    (whole b f).Sound := by
  rw [whole_eq]
  exact sound_ofCount hb (by rw [Nat.zero_add]; exact Nat.div_mul_le_self ..)

theorem Span.Sound.exists_ofCount {s : Span} (h : s.Sound) :
    ∃ b f offset count, s = ofCount b f offset count ∧
      offset + count * f.size ≤ b.bytes.length ∧ b.bytes.length < sizeLimit := by
  obtain ⟨⟨b, i, f⟩, ⟨b', j, f'⟩⟩ := s
  obtain ⟨hb, hf, ha, hlt⟩ := h
  simp only at hb hf hlt
  subst hb hf
  obtain ⟨-, -, hle, hin, n, hn⟩ := between_eq_ok_iff.mp ha
  rw [Nat.mul_comm] at hn
  simp only at hle hin hn
  have hj : j = i + n * f'.size := by omega
  exact ⟨b', f', i, n, by rw [ofCount, ← hj], by omega, hlt⟩

namespace Source

/-- A source that can be used to its end. -/
def Sound : Source t → Prop
  | values _ | stream _ => True
  | span s => s.Sound

theorem Sound.bind {s : Source t} (h : s.Sound) : s.bind = .ok s := by
  cases s with
  | values xs => rfl
  | span s =>
    obtain ⟨b, f, offset, count, rfl, -⟩ := Span.Sound.exists_ofCount h
    simp [bind_span, Span.bind, Span.format, Span.ofCount, Cursor.bind, Format.bind, Except.map]
  | stream s => exact bind_stream s

theorem Sound.pull {s : Source t} (h : s.Sound) : s.pull.2.Sound := by
  cases s with
  | values xs => cases xs <;> trivial
  | span s =>
    obtain ⟨b, f, offset, count, rfl, hc, hb⟩ := Span.Sound.exists_ofCount h
    cases count with
    | zero => simpa [Source.pull, Span.next_ofCount_zero] using h
    | succ count =>
      simp only [Source.pull, Span.next_ofCount hb f hc]
      rw [Nat.succ_mul] at hc
      exact Span.sound_ofCount hb (by omega)
  | stream s => trivial

theorem Sound.after {s : Source t} (h : s.Sound) (count : Nat) : (s.after count).Sound := by
  induction count generalizing s with
  | zero => exact h
  | succ count ih => exact ih h.pull

theorem Sound.exists_holds {s : Source t} (h : s.Sound) :
    ∃ xs, s.Holds xs ∧ xs.length < s.bound := by
  cases s with
  | values xs => exact ⟨xs, holds_values xs, Nat.lt_succ_self _⟩
  | span s =>
    obtain ⟨b, f, offset, count, rfl, hc, hb⟩ := Span.Sound.exists_ofCount h
    refine ⟨_, holds_ofCount hb f offset count hc, ?_⟩
    have hle := Nat.le_mul_of_pos_right count f.size_pos
    rw [List.length_map, Format.length_firstChunks, bound, Span.ofCount]
    simp only
    omega
  | stream s =>
    refine ⟨_, holds_stream s, ?_⟩
    obtain ⟨rest, f, current⟩ := s
    cases current with
    | none => simp [bound]
    | some x =>
      have hle := Nat.div_le_self rest.length f.size
      simp only [Option.elim, List.length_cons, Format.length_decodeAll, bound]
      omega

theorem Sound.length_lt_bound {s : Source t} (h : s.Sound) {xs : List (Sample t)}
    (hx : s.Holds xs) : xs.length < s.bound := by
  obtain ⟨ys, hy, hl⟩ := h.exists_holds
  rwa [hx.unique hy]

end Source

end RawPcm
