import Mathlib.Algebra.BigOperators.Ring.Finset
import RawPcm.Proofs.Codec.Staging

/-! Bytes in a word by their places: each counts by the power of 256 of its place. -/
namespace RawPcm

theorem ofDigits_append (as bs : List UInt8) :
    ofDigits (as ++ bs) = ofDigits as + 256 ^ as.length * ofDigits bs := by
  induction as with
  | nil => simp [ofDigits]
  | cons a as ih =>
    rw [List.cons_append, ofDigits, ih, ofDigits, List.length_cons, Nat.pow_succ, Nat.mul_add,
      Nat.mul_comm (256 ^ as.length) 256, Nat.mul_assoc, Nat.add_assoc]

namespace ByteOrder

theorem load_big_cons (b : UInt8) (bs : List UInt8) :
    big.load (b :: bs) = b.toNat * 256 ^ bs.length + big.load bs := by
  rw [load, load, List.reverse_cons, ofDigits_append, List.length_reverse, Nat.add_comm,
    Nat.mul_comm]
  rfl

theorem load_big_eq_sum (bs : List UInt8) :
    big.load bs =
      ∑ i ∈ Finset.range bs.length, (bs.getD i 0).toNat * 256 ^ (bs.length - 1 - i) := by
  induction bs with
  | nil => rfl
  | cons b bs ih =>
    rw [load_big_cons, ih, List.length_cons, Finset.sum_range_succ', Nat.add_comm]
    congr 1
    apply Finset.sum_congr rfl
    intro i _
    rw [List.getD_cons_succ, show bs.length + 1 - 1 - (i + 1) = bs.length - 1 - i by omega]

section Words
variable {width stage : Nat} (hw : width ≤ stage) (hs : stage ≤ 8)
include hw hs

theorem toNat_raise_big {bytes : List UInt8} (hb : width ≤ bytes.length) :
    (big.raise width stage bytes).toNat =
      ∑ i ∈ Finset.range width, (bytes.getD i 0).toNat * 256 ^ (stage - 1 - i) := by
  have hp : (2 : Nat) ^ (8 * (stage - width)) = 256 ^ (stage - width) := Nat.pow_mul 2 8 _
  rw [toNat_raise _ hw hs, load_big_eq_sum, List.length_take_of_le hb, hp, Finset.sum_mul]
  apply Finset.sum_congr rfl
  intro i hi
  have hi := Finset.mem_range.mp hi
  have he : stage - 1 - i = width - 1 - i + (stage - width) := by omega
  rw [he, Nat.pow_add, Nat.mul_assoc, List.getD_eq_getElem?_getD, List.getElem?_take_of_lt hi,
    List.getD_eq_getElem?_getD]

theorem raise_lower (o : ByteOrder) (word : BitVec 64) (rest : List UInt8) :
    (o.raise width stage (o.lower width stage word ++ rest)).toNat =
      word.toNat % 2 ^ (8 * stage) / 2 ^ (8 * (stage - width)) * 2 ^ (8 * (stage - width)) := by
  rw [toNat_raise o hw hs, List.take_left' (o.length_lower ..), load_lower o hw hs]

theorem lower_raise (o : ByteOrder) {bytes : List UInt8} (hb : width ≤ bytes.length) :
    o.lower width stage (o.raise width stage bytes) = bytes.take width := by
  have hl : (o.lower width stage (o.raise width stage bytes)).length =
      (bytes.take width).length := by
    rw [length_lower, List.length_take_of_le hb]
  apply o.load_injective hl
  rw [load_lower o hw hs, Nat.mod_eq_of_lt (o.toNat_raise_lt hw hs bytes), toNat_raise o hw hs,
    Nat.mul_div_cancel _ (Nat.two_pow_pos _)]

end Words

theorem raise_little {width : Nat} (stage : Nat) {bytes : List UInt8} (hb : width ≤ bytes.length) :
    little.raise width stage bytes =
      big.raise width stage ((bytes.take width).reverse ++ bytes.drop width) := by
  have hl : (bytes.take width).reverse.length = width := by
    rw [List.length_reverse, List.length_take_of_le hb]
  rw [raise, raise, List.take_left' hl, load, load, List.reverse_reverse]

end ByteOrder

section Words
variable {width stage : Nat} {bytes : List UInt8} (o : ByteOrder)

theorem loadBits_of_lt (h : bytes.length < width) :
    loadBits bytes width stage o = .error .outOfBounds := if_pos h

theorem storeBits_of_lt (hw : 1 ≤ stage) (hs : stage ≤ 8) (h : bytes.length < width)
    (word : BitVec 64) : storeBits bytes word width stage o = (.error .outOfBounds, bytes) := by
  rw [storeBits, if_neg (by omega), if_pos h]

variable (hw : 1 ≤ width) (hws : width ≤ stage) (hs : stage ≤ 8) (hb : width ≤ bytes.length)
include hw hws hs hb

theorem loadBits_of_le : loadBits bytes width stage o = .ok (o.raise width stage bytes) := by
  rw [loadBits, if_neg (by omega), if_neg (by omega), if_neg (by omega)]

theorem storeBits_of_le (word : BitVec 64) : storeBits bytes word width stage o =
    (.ok (), o.lower width stage word ++ bytes.drop width) := by
  rw [storeBits, if_neg (by omega), if_neg (by omega), if_neg (by omega)]

end Words

/-- A word holds the bytes at its upper end, below what exceeds the stage and above zeros. Stored in
whatever buffer, a word that was loaded makes the same bytes again. -/
theorem loadBits_storeBits {width stage : Nat} (hw : 1 ≤ width) (hws : width ≤ stage)
    (hs : stage ≤ 8) (bytes : List UInt8) :
    if width ≤ bytes.length then
      (∃ word, loadBits bytes width stage .big = .ok word ∧ word.toNat =
        ∑ i ∈ Finset.range width, (bytes.getD i 0).toNat * 256 ^ (stage - 1 - i)) ∧
      loadBits bytes width stage .little =
        loadBits ((bytes.take width).reverse ++ bytes.drop width) width stage .big ∧
      ∀ o,
        (∀ word, ∃ out back, storeBits bytes word width stage o = (.ok (), out) ∧
          out.length = bytes.length ∧ out.drop width = bytes.drop width ∧
          loadBits out width stage o = .ok back ∧ back.toNat =
            word.toNat % 2 ^ (8 * stage) / 2 ^ (8 * (stage - width)) *
              2 ^ (8 * (stage - width))) ∧
        ∃ word, loadBits bytes width stage o = .ok word ∧
          ∀ other : List UInt8, width ≤ other.length →
            storeBits other word width stage o = (.ok (), bytes.take width ++ other.drop width)
    else ∀ o, loadBits bytes width stage o = .error .outOfBounds ∧
      ∀ word, storeBits bytes word width stage o = (.error .outOfBounds, bytes) := by
  split
  case isTrue hb =>
    have hrev : width ≤ ((bytes.take width).reverse ++ bytes.drop width).length := by
      rw [List.length_append, List.length_reverse, List.length_take_of_le hb]
      exact Nat.le_add_right ..
    refine ⟨⟨_, loadBits_of_le .big hw hws hs hb, ByteOrder.toNat_raise_big hws hs hb⟩, ?_, ?_⟩
    · rw [loadBits_of_le .little hw hws hs hb, loadBits_of_le .big hw hws hs hrev,
        ByteOrder.raise_little stage hb]
    · refine fun o => ⟨fun word => ?_, _, loadBits_of_le o hw hws hs hb, fun other ho => ?_⟩
      · have hl := o.length_lower width stage word
        have hout : (o.lower width stage word ++ bytes.drop width).length = bytes.length := by
          rw [List.length_append, hl, List.length_drop]
          omega
        exact ⟨_, _, storeBits_of_le o hw hws hs hb word, hout, List.drop_left' hl,
          loadBits_of_le o hw hws hs (hout ▸ hb), ByteOrder.raise_lower hws hs o word _⟩
      · rw [storeBits_of_le o hw hws hs ho, ByteOrder.lower_raise hws hs o hb]
  case isFalse hb =>
    intro o
    have hlt := Nat.lt_of_not_le hb
    exact ⟨loadBits_of_lt o hlt, storeBits_of_lt o (Nat.le_trans hw hws) hs hlt⟩

theorem loadBits_storeBits_of_24_in_32_bits :
    (∃ word, loadBits [0xab, 0xcd, 0xef] 3 4 .big = .ok word ∧ word.toNat = 0xabcdef00) ∧
      ∃ word, loadBits [0xab, 0xcd, 0xef] 3 4 .little = .ok word ∧
        storeBits [1, 2, 3, 4] word 3 4 .little = (.ok (), [0xab, 0xcd, 0xef, 4]) := by
  have h := loadBits_storeBits (show 1 ≤ 3 by decide) (show 3 ≤ 4 by decide) (by decide)
    [0xab, 0xcd, 0xef]
  rw [if_pos (by decide)] at h
  obtain ⟨⟨word, hl, hn⟩, -, ho⟩ := h
  refine ⟨⟨word, hl, hn.trans rfl⟩, ?_⟩
  obtain ⟨word, hl, hs⟩ := (ho .little).2
  exact ⟨word, hl, hs [1, 2, 3, 4] (by decide)⟩

end RawPcm
