import RawPcm.Codec
import RawPcm.Proofs.Sample.Amplitude

/-! Encoded samples at the upper end of the values that hold them. -/
namespace RawPcm
namespace ByteOrder
variable {width stage : Nat}

theorem load_injective (o : ByteOrder) {a b : List UInt8} (hl : a.length = b.length)
    (h : o.load a = o.load b) : a = b := by
  have ha := o.store_load a
  rw [hl, h, o.store_load b] at ha
  exact ha.symm

theorem load_take_lt (o : ByteOrder) (width : Nat) (bytes : List UInt8) :
    o.load (bytes.take width) < 2 ^ (8 * width) := by
  have h := o.load_lt (bytes.take width)
  have hw : 256 ^ (bytes.take width).length ≤ 256 ^ width :=
    Nat.pow_le_pow_right (by decide) (List.length_take_le ..)
  rw [Nat.pow_mul]
  exact Nat.lt_of_lt_of_le h hw

theorem toNat_raise (o : ByteOrder) (hw : width ≤ stage) (hs : stage ≤ 8) (bytes : List UInt8) :
    (o.raise width stage bytes).toNat =
      o.load (bytes.take width) * 2 ^ (8 * (stage - width)) := by
  have hl := o.load_take_lt width bytes
  have h64 := Nat.pow_sub_mul_pow 2 (by omega : 8 * width ≤ 64)
  have hm := Nat.mul_lt_mul_of_pos_left hl (Nat.two_pow_pos (64 - 8 * width))
  rw [h64, Nat.mul_comm] at hm
  have hlt : o.load (bytes.take width) < 2 ^ 64 :=
    Nat.lt_of_lt_of_le hl (Nat.pow_le_pow_right (by decide) (by omega))
  have he : 64 - 8 * width = 8 * (stage - width) + (64 - 8 * stage) := by omega
  rw [raise, BitVec.toNat_ushiftRight, BitVec.toNat_shiftLeft, BitVec.toNat_ofNat,
    Nat.mod_eq_of_lt hlt, Nat.shiftLeft_eq, Nat.mod_eq_of_lt hm,
    Nat.shiftRight_eq_div_pow, he, Nat.pow_add, ← Nat.mul_assoc,
    Nat.mul_div_cancel _ (Nat.two_pow_pos _)]

theorem toNat_raise_lt (o : ByteOrder) (hw : width ≤ stage) (hs : stage ≤ 8)
    (bytes : List UInt8) : (o.raise width stage bytes).toNat < 2 ^ (8 * stage) := by
  have hlt := Nat.mul_lt_mul_of_pos_right (o.load_take_lt width bytes)
    (Nat.two_pow_pos (8 * (stage - width)))
  rwa [← Nat.pow_add, show 8 * width + 8 * (stage - width) = 8 * stage by omega,
    ← toNat_raise o hw hs] at hlt

theorem load_lower (o : ByteOrder) (hw : width ≤ stage) (hs : stage ≤ 8) (word : BitVec 64) :
    o.load (o.lower width stage word) =
      word.toNat % 2 ^ (8 * stage) / 2 ^ (8 * (stage - width)) := by
  have h64 : 2 ^ 64 = 2 ^ (8 * stage) * 2 ^ (64 - 8 * stage) := by
    rw [Nat.mul_comm, Nat.pow_sub_mul_pow 2 (by omega)]
  have he : 64 - 8 * width = (64 - 8 * stage) + 8 * (stage - width) := by omega
  have hlt : word.toNat % 2 ^ (8 * stage) / 2 ^ (8 * (stage - width)) < 256 ^ width := by
    have hp : (256 : Nat) ^ width = 2 ^ (8 * width) := (Nat.pow_mul 2 8 width).symm
    rw [Nat.div_lt_iff_lt_mul (Nat.two_pow_pos _), hp, ← Nat.pow_add,
      show 8 * width + 8 * (stage - width) = 8 * stage by omega]
    exact Nat.mod_lt _ (Nat.two_pow_pos _)
  rw [lower, load_store, BitVec.toNat_ushiftRight, BitVec.toNat_shiftLeft, Nat.shiftLeft_eq, h64,
    Nat.mul_mod_mul_right, Nat.shiftRight_eq_div_pow, he, Nat.pow_add,
    ← Nat.div_div_eq_div_mul, Nat.mul_div_cancel _ (Nat.two_pow_pos _), Nat.mod_eq_of_lt hlt]

end ByteOrder

namespace Format

def staged (f : Format) (chunk : List UInt8) : Sample f.staging :=
  Sample.ofBits f.staging (f.order.raise f.size f.stage chunk)

def unstaged (f : Format) (x : Sample f.staging) : List UInt8 :=
  f.order.lower f.size f.stage x.toBits

theorem decode_eq (f : Format) (t : SampleType) (chunk : List UInt8) :
    f.decode t chunk = Sample.convert t (f.staged chunk) := rfl

theorem encode_eq (f : Format) {t : SampleType} (x : Sample t) :
    f.encode x = f.unstaged (Sample.convert f.staging x) := rfl

theorem eight_mul_stage (f : Format) : 8 * f.stage = f.staging.bits := by
  cases f with
  | integer s w o => cases w <;> simp [stage, staging, SampleType.bits, WordSize.bits]
  | floating p o => cases p <;> simp [stage, staging, SampleType.bits, Precision.bits]

theorem size_le_stage (f : Format) : f.size ≤ f.stage := by
  cases f with
  | integer s w o =>
    cases w <;> simp [size, width, Width.bytes, stage, staging, SampleType.bits, WordSize.bits]
  | floating p o =>
    cases p <;>
      simp [size, width, Precision.width, Width.bytes, stage, staging, SampleType.bits,
        Precision.bits]

theorem stage_le (f : Format) : f.stage ≤ 8 := by
  cases f with
  | integer s w o => cases w <;> simp [stage, staging, SampleType.bits, WordSize.bits]
  | floating p o => cases p <;> simp [stage, staging, SampleType.bits, Precision.bits]

theorem toNat_staged (f : Format) {chunk : List UInt8} (h : chunk.length = f.size) :
    (f.staged chunk).toNat = f.order.load chunk * 2 ^ (8 * (f.stage - f.size)) := by
  have ht : chunk.take f.size = chunk := List.take_of_length_le (Nat.le_of_eq h)
  have hlt := f.order.toNat_raise_lt f.size_le_stage f.stage_le chunk
  rw [f.eight_mul_stage] at hlt
  rw [staged, Sample.ofBits, BitVec.toNat_setWidth, Nat.mod_eq_of_lt hlt,
    f.order.toNat_raise f.size_le_stage f.stage_le, ht]

theorem load_unstaged (f : Format) (x : Sample f.staging) :
    f.order.load (f.unstaged x) = x.toNat / 2 ^ (8 * (f.stage - f.size)) := by
  have hx : x.toNat < 2 ^ (8 * f.stage) := by
    rw [f.eight_mul_stage]
    exact x.isLt
  have h64 : x.toNat < 2 ^ 64 :=
    Nat.lt_of_lt_of_le hx (Nat.pow_le_pow_right (by decide) (by have := f.stage_le; omega))
  have hb : x.toBits.toNat = x.toNat := by
    rw [Sample.toBits, BitVec.toNat_setWidth, Nat.mod_eq_of_lt h64]
  rw [unstaged, ByteOrder.load_lower _ f.size_le_stage f.stage_le, hb, Nat.mod_eq_of_lt hx]

theorem length_unstaged (f : Format) (x : Sample f.staging) : (f.unstaged x).length = f.size :=
  ByteOrder.length_lower ..

theorem unstaged_staged (f : Format) {chunk : List UInt8} (h : chunk.length = f.size) :
    f.unstaged (f.staged chunk) = chunk := by
  apply f.order.load_injective ((f.length_unstaged _).trans h.symm)
  rw [load_unstaged, toNat_staged f h, Nat.mul_div_cancel _ (Nat.two_pow_pos _)]

theorem staged_unstaged {f : Format} (h : f.stage = f.size) (x : Sample f.staging) :
    f.staged (f.unstaged x) = x := by
  apply BitVec.eq_of_toNat_eq
  rw [toNat_staged f (f.length_unstaged x), load_unstaged, h, Nat.sub_self, Nat.mul_zero,
    Nat.pow_zero, Nat.div_one, Nat.mul_one]

end Format
end RawPcm
