import RawPcm.Proofs.Codec.Chunks
import RawPcm.Transfer.Operand

/-! A sink as what becomes of it when values are pushed. -/
namespace RawPcm
variable {t : SampleType}

namespace WriteCursor
variable {c : WriteCursor}

/-- The position behind values written from a position on, with their bytes in place. -/
def filled (c : WriteCursor) (xs : List (Sample t)) : WriteCursor :=
  let stop := c.offset + xs.length * c.format.size
  { c with
    bytes := c.bytes.take c.offset ++ c.format.encodeAll xs ++ c.bytes.drop stop
    offset := stop }

theorem filled_nil (c : WriteCursor) : c.filled ([] : List (Sample t)) = c := by
  simp [filled, Format.encodeAll]

theorem bytes_filled_singleton (c : WriteCursor) (x : Sample t) :
    (c.filled [x]).bytes =
      c.bytes.take c.offset ++ (c.format.encode x ++ c.bytes.drop (c.offset + c.format.size)) := by
  simp [filled, Format.encodeAll]

theorem offset_add_le {count : Nat} (h : count ≤ c.remaining) (h0 : 0 < count) :
    c.offset + count * c.format.size ≤ c.bytes.length := by
  have hp := Nat.mul_pos h0 c.format.size_pos
  rw [remaining, Nat.le_div_iff_mul_le c.format.size_pos] at h
  omega

theorem offset_add_size_le (h : c.remaining ≠ 0) :
    c.offset + c.format.size ≤ c.bytes.length := by
  simpa using offset_add_le (Nat.one_le_iff_ne_zero.mpr h) Nat.one_pos

theorem set_of_le (h : c.offset + c.format.size ≤ c.bytes.length) (x : Sample t) :
    c.set x = (.ok (), { c with bytes := (c.filled [x]).bytes }) := by
  have hl : c.format.size ≤ (c.bytes.drop c.offset).length := by
    rw [List.length_drop]
    omega
  simp only [set, Format.write_of_le _ hl, List.drop_drop, bytes_filled_singleton]

theorem advance_of_lt (h : c.offset + c.format.size < sizeLimit) (x : Sample t) :
    ({ c with bytes := (c.filled [x]).bytes } : WriteCursor).advance = (.ok (), c.filled [x]) := by
  simp [advance, Size.add, h, filled]

theorem push_of_remaining_ne_zero (hc : c.bytes.length < sizeLimit) (h : c.remaining ≠ 0)
    (x : Sample t) : c.push x = (.ok (), c.filled [x]) := by
  have hb := offset_add_size_le h
  simp only [push, if_neg h, set_of_le hb, advance_of_lt (Nat.lt_of_le_of_lt hb hc)]

section Room
variable {xs : List (Sample t)} (h : xs.length ≤ c.remaining)
include h

theorem length_bytes_filled : (c.filled xs).bytes.length = c.bytes.length := by
  cases xs with
  | nil => rw [filled_nil]
  | cons x xs =>
    have hb := offset_add_le h (Nat.succ_pos _)
    simp only [filled, List.length_append, List.length_take, List.length_drop,
      Format.length_encodeAll]
    omega

theorem remaining_filled : (c.filled xs).remaining = c.remaining - xs.length := by
  rw [remaining, length_bytes_filled h]
  simp only [filled]
  rw [← Nat.sub_sub, Nat.mul_comm, Nat.sub_mul_div, remaining]

theorem filled_append (ys : List (Sample t)) : (c.filled xs).filled ys = c.filled (xs ++ ys) := by
  cases xs with
  | nil => rw [filled_nil, List.nil_append]
  | cons x xs =>
    have hb := offset_add_le h (Nat.succ_pos _)
    generalize x :: xs = xs at hb ⊢
    have ht : (c.bytes.take c.offset ++ c.format.encodeAll xs).length =
        c.offset + xs.length * c.format.size := by
      rw [List.length_append, List.length_take, Format.length_encodeAll]
      omega
    have hs : c.offset + (xs ++ ys).length * c.format.size =
        c.offset + xs.length * c.format.size + ys.length * c.format.size := by
      rw [List.length_append, Nat.add_mul, Nat.add_assoc]
    simp only [filled, hs, List.take_left' ht, Format.encodeAll_append]
    rw [← List.drop_drop, List.drop_left' ht, List.drop_drop]
    simp only [List.append_assoc]

end Room
end WriteCursor

namespace Sink
variable {d : Sink t}

def filled : Sink t → List (Sample t) → Sink t
  | slice before free, xs => slice (before ++ xs) (free.drop xs.length)
  | list ys, xs => list (ys ++ xs)
  | cursor c, xs => cursor (c.filled xs)

/-- How many of a number of values a sink has room for. -/
def accepted : Sink t → (count : Nat) → Nat
  | list _, count => count
  | d, count => min count d.capacity

def room : Sink t → Option Nat
  | list _ => none
  | d => some d.capacity

/-- Offsets into the buffer behind a sink fit into 64 bits. -/
def Addressable : Sink t → Prop
  | cursor c => c.bytes.length < sizeLimit
  | _ => True

def refusal : Sink t → Fault
  | slice _ _ | list _ => .sliceFull
  | cursor c => .bufferFull c.format

theorem filled_nil (d : Sink t) : d.filled [] = d := by
  cases d with
  | slice before free => simp [filled]
  | list xs => simp [filled]
  | cursor c => simp [filled, WriteCursor.filled_nil]

theorem accepted_eq (d : Sink t) (count : Nat) :
    d.accepted count = d.room.elim count (min count) := by
  cases d <;> rfl

theorem accepted_le (d : Sink t) (count : Nat) : d.accepted count ≤ count := by
  cases d with
  | slice before free => exact Nat.min_le_left ..
  | list xs => exact Nat.le_refl _
  | cursor c => exact Nat.min_le_left ..

theorem accepted_zero (d : Sink t) : d.accepted 0 = 0 :=
  Nat.le_zero.mp (d.accepted_le 0)

theorem accepted_of_capacity_eq_zero (h : d.capacity = 0) (count : Nat) : d.accepted count = 0 := by
  cases d with
  | slice before free => simp [accepted, h]
  | list xs => simp [capacity, sizeLimit] at h
  | cursor c => simp [accepted, h]

theorem push_of_capacity_ne_zero (ha : d.Addressable) (h : d.capacity ≠ 0) (x : Sample t) :
    d.push x = (.ok (), d.filled [x]) := by
  cases d with
  | slice before free =>
    cases free with
    | nil => simp [capacity] at h
    | cons y free => simp [push, filled]
  | list xs => rfl
  | cursor c => simp [push, filled, WriteCursor.push_of_remaining_ne_zero ha h]

theorem push_of_capacity_eq_zero (h : d.capacity = 0) (x : Sample t) :
    d.push x = (.error d.refusal, d) := by
  cases d with
  | slice before free =>
    rw [List.length_eq_zero_iff.mp h]
    rfl
  | list xs => simp [capacity, sizeLimit] at h
  | cursor c =>
    have hr : c.remaining = 0 := h
    simp [push, WriteCursor.push, hr, refusal]

theorem refusal_filled (d : Sink t) (xs : List (Sample t)) : (d.filled xs).refusal = d.refusal := by
  cases d <;> rfl

section Room
variable {xs : List (Sample t)} (h : xs.length ≤ d.accepted xs.length)
include h

theorem filled_append (ys : List (Sample t)) : (d.filled xs).filled ys = d.filled (xs ++ ys) := by
  cases d with
  | slice before free => simp [filled]
  | list zs => simp [filled]
  | cursor c =>
    have hc : xs.length ≤ c.remaining := Nat.le_trans h (Nat.min_le_right ..)
    simp [filled, WriteCursor.filled_append hc]

theorem Addressable.filled (ha : d.Addressable) : (d.filled xs).Addressable := by
  cases d with
  | slice before free => trivial
  | list zs => trivial
  | cursor c =>
    have hc : xs.length ≤ c.remaining := Nat.le_trans h (Nat.min_le_right ..)
    show (c.filled xs).bytes.length < sizeLimit
    rw [WriteCursor.length_bytes_filled hc]
    exact ha

theorem room_filled : (d.filled xs).room = d.room.map (· - xs.length) := by
  cases d with
  | slice before free => simp [filled, room, capacity]
  | list zs => rfl
  | cursor c =>
    have hc : xs.length ≤ c.remaining := Nat.le_trans h (Nat.min_le_right ..)
    simp [filled, room, capacity, WriteCursor.remaining_filled hc]

theorem accepted_add (count : Nat) :
    d.accepted (xs.length + count) = xs.length + (d.filled xs).accepted count := by
  rw [accepted_eq] at h
  rw [accepted_eq, accepted_eq, room_filled (by rwa [accepted_eq])]
  cases hr : d.room with
  | none => rfl
  | some room =>
    simp only [hr, Option.elim_some, Option.map_some] at h ⊢
    omega

end Room

theorem one_le_accepted (h : d.capacity ≠ 0) (x : Sample t) :
    [x].length ≤ d.accepted [x].length := by
  have h1 := Nat.one_le_iff_ne_zero.mpr h
  cases d with
  | slice before free => exact Nat.le_min.mpr ⟨Nat.le_refl _, h1⟩
  | list xs => exact Nat.le_refl _
  | cursor c => exact Nat.le_min.mpr ⟨Nat.le_refl _, h1⟩

theorem accepted_succ (h : d.capacity ≠ 0) (x : Sample t) (count : Nat) :
    d.accepted (count + 1) = (d.filled [x]).accepted count + 1 := by
  rw [Nat.add_comm count, Nat.add_comm _ 1]
  exact accepted_add (one_le_accepted h x) count

theorem filled_cons (h : d.capacity ≠ 0) (x : Sample t) (xs : List (Sample t)) :
    (d.filled [x]).filled xs = d.filled (x :: xs) :=
  filled_append (one_le_accepted h x) xs

end Sink
end RawPcm
