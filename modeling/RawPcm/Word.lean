import RawPcm.Fault

/-! Bytes and words. A sample is held at the top of a word, with zeros below. -/
namespace RawPcm

/-- The number whose digits to the base 256 are given, the last one first. -/
def ofDigits : List UInt8 → Nat
  | [] => 0
  | b :: bs => b.toNat + 256 * ofDigits bs

def digits : (count n : Nat) → List UInt8
  | 0, _ => []
  | count + 1, n => UInt8.ofNat n :: digits count (n / 256)

theorem length_digits (count n : Nat) : (digits count n).length = count := by
  induction count generalizing n with
  | zero => rfl
  | succ count ih => simp [digits, ih]

theorem ofDigits_lt (bs : List UInt8) : ofDigits bs < 256 ^ bs.length := by
  induction bs with
  | nil => decide
  | cons b bs ih =>
    have := b.toNat_lt
    simp only [ofDigits, List.length_cons, Nat.pow_succ]
    omega

theorem ofDigits_digits (count n : Nat) : ofDigits (digits count n) = n % 256 ^ count := by
  induction count generalizing n with
  | zero => simp [digits, ofDigits, Nat.mod_one]
  | succ count ih =>
    rw [Nat.pow_succ, Nat.mul_comm, Nat.mod_mul]
    simp [digits, ofDigits, ih]

theorem digits_ofDigits (bs : List UInt8) : digits bs.length (ofDigits bs) = bs := by
  induction bs with
  | nil => rfl
  | cons b bs ih =>
    have hb := b.toNat_lt
    have hq : (b.toNat + 256 * ofDigits bs) / 256 = ofDigits bs := by omega
    have hr : UInt8.ofNat (b.toNat + 256 * ofDigits bs) = b := by
      apply UInt8.toNat_inj.mp
      simp only [UInt8.toNat_ofNat']
      omega
    simp [digits, ofDigits, hq, hr, ih]

namespace ByteOrder

def load : ByteOrder → List UInt8 → Nat
  | little, bs => ofDigits bs
  | big, bs => ofDigits bs.reverse

def store : ByteOrder → (width n : Nat) → List UInt8
  | little, width, n => digits width n
  | big, width, n => (digits width n).reverse

/-- The first `width` bytes at the top of a value of `stage` bytes. -/
def raise (o : ByteOrder) (width stage : Nat) (bytes : List UInt8) : BitVec 64 :=
  (BitVec.ofNat 64 (o.load (bytes.take width)) <<< (64 - 8 * width)) >>> (64 - 8 * stage)

/-- The top `width` bytes of a value of `stage` bytes. -/
def lower (o : ByteOrder) (width stage : Nat) (word : BitVec 64) : List UInt8 :=
  o.store width ((word <<< (64 - 8 * stage)) >>> (64 - 8 * width)).toNat

theorem length_store (o : ByteOrder) (width n : Nat) : (o.store width n).length = width := by
  cases o <;> simp [store, length_digits]

theorem length_lower (o : ByteOrder) (width stage : Nat) (word : BitVec 64) :
    (o.lower width stage word).length = width := length_store ..

theorem load_store (o : ByteOrder) (width n : Nat) : o.load (o.store width n) = n % 256 ^ width := by
  cases o <;> simp [store, load, ofDigits_digits]

theorem store_load (o : ByteOrder) (bs : List UInt8) : o.store bs.length (o.load bs) = bs := by
  cases o with
  | little => exact digits_ofDigits bs
  | big =>
    have := digits_ofDigits bs.reverse
    rw [List.length_reverse] at this
    simp [store, load, this]

theorem load_lt (o : ByteOrder) (bs : List UInt8) : o.load bs < 256 ^ bs.length := by
  cases o with
  | little => exact ofDigits_lt bs
  | big => simpa [load] using ofDigits_lt bs.reverse

/-- A value has at most eight bytes; beyond that the two orders look at the wrong end of it. -/
def wide (o : ByteOrder) : Fault :=
  match o with
  | big => .outOfBounds
  | little => .arithmetic

end ByteOrder

def loadBits (bytes : List UInt8) (width stage : Nat) (o : ByteOrder) : Except Fault (BitVec 64) :=
  if bytes.length < width then .error .outOfBounds
  else if 8 < width then .error o.wide
  else if stage = 0 ∨ 8 < stage then .error .arithmetic
  else .ok (o.raise width stage bytes)

def storeBits (bytes : List UInt8) (word : BitVec 64) (width stage : Nat) (o : ByteOrder) :
    Except Fault Unit × List UInt8 :=
  if stage = 0 ∨ 8 < stage then (.error .arithmetic, bytes)
  else if bytes.length < width then (.error .outOfBounds, bytes)
  else if 8 < width then (.error o.wide, bytes)
  else (.ok (), o.lower width stage word ++ bytes.drop width)

end RawPcm
