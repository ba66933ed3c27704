import RawPcm.Sample.Basic

/-! Conversion between sample types. What lies outside the range of the target is held at its
nearest end. -/
namespace RawPcm

def topBit (n : Nat) : BitVec n := BitVec.ofNat n (2 ^ (n - 1))

/-- Two's complement and offset binary differ in the leading bit. -/
def Signedness.recode {n : Nat} (s t : Signedness) (x : BitVec n) : BitVec n :=
  if s = t then x else x ^^^ topBit n

def rescale {m : Nat} (n : Nat) (s t : Signedness) (x : BitVec m) : BitVec n :=
  let y := s.recode t x
  if n < m then (y >>> (m - n)).setWidth n else y.setWidth n <<< (n - m)

/-- Rounds to the nearest integer of 64 bits by way of a half in the direction of the sign. -/
def roundAway (x : BitVec Precision.double.bits) : Int :=
  let p := Precision.double
  let half := p.nearest false (2 ^ p.places) 2
  let lo := Signedness.signed.least 64
  let hi := Signedness.signed.greatest 64
  if p.lt (p.ofInt 0) x then p.truncate lo hi (p.add x half) else p.truncate lo hi (p.sub x half)

/-- The greatest number that `bits` bits hold, or the greatest below one if that is less. -/
def Precision.ceiling (p : Precision) (bits : Nat) : BitVec p.bits :=
  let step := p.div (p.ofInt 1) (p.ofInt (2 ^ (bits - 1)))
  p.sub (p.ofInt 1) (p.greatest step p.epsilon)

def Precision.quantize (p : Precision) (bits : Nat) (x : BitVec p.bits) : Int :=
  let held := p.greatest (p.least x (p.ceiling bits)) (p.ofInt (-1))
  let scaled := p.mul held (p.ofInt (2 ^ (bits - 1)))
  roundAway (p.cast .double scaled)

def Precision.dequantize (p : Precision) (bits : Nat) (amplitude : Int) : BitVec p.bits :=
  p.div (p.ofInt amplitude) (p.ofInt (2 ^ (bits - 1)))

/-- Targets of up to 23 bits are reached from single precision without widening. -/
def quantizingPrecision (source : Precision) (bits : Nat) : Precision :=
  if 23 < bits ∨ source = .double then .double else .single

/-- Sources of up to 23 bits are divided in single precision if that is the target. -/
def dequantizingPrecision (bits : Nat) (target : Precision) : Precision :=
  if 23 < bits ∨ target = .double then .double else .single

@[simp] theorem quantizingPrecision_double (bits : Nat) :
    quantizingPrecision .double bits = .double :=
  if_pos (.inr rfl)

@[simp] theorem dequantizingPrecision_double (bits : Nat) :
    dequantizingPrecision bits .double = .double :=
  if_pos (.inr rfl)

theorem quantizingPrecision_single {bits : Nat} (h : bits ≤ 23) :
    quantizingPrecision .single bits = .single :=
  if_neg (by simpa using h)

theorem dequantizingPrecision_single {bits : Nat} (h : bits ≤ 23) :
    dequantizingPrecision bits .single = .single :=
  if_neg (by simpa using h)

namespace Sample

def quantize {p : Precision} (x : Sample (.floating p)) (s : Signedness) (n : WordSize) :
    Sample (.integer s n) :=
  let w := quantizingPrecision p n.bits
  Signedness.signed.recode s (BitVec.ofInt n.bits (w.quantize n.bits (toFloating w x)))

def dequantize {s : Signedness} {n : WordSize} (x : Sample (.integer s n)) (p : Precision) :
    Sample (.floating p) :=
  let w := dequantizingPrecision n.bits p
  ofFloating w (w.dequantize n.bits (s.recode .signed x).toInt) (.floating p)

/-- The same sample in another type. Never fails: a NaN becomes the greatest integer. -/
def convert : {s : SampleType} → (t : SampleType) → Sample s → Sample t
  | .integer s _, .integer t n, x => rescale n.bits s t x
  | .floating _, .integer t n, x => quantize x t n
  | .integer _ _, .floating q, x => dequantize x q
  | .floating _, .floating q, x => ofFloating .double (toFloating .double x) (.floating q)

end Sample
end RawPcm
