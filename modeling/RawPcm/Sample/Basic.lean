import RawPcm.Format.Basic
import RawPcm.Floating.Arithmetic

/-! Sample values: bit patterns of a type. As a sample an integer is an amplitude around zero. -/
namespace RawPcm

inductive WordSize where
  | w8
  | w16
  | w32
  | w64
deriving DecidableEq

@[reducible] def WordSize.bits : WordSize → Nat
  | w8 => 8
  | w16 => 16
  | w32 => 32
  | w64 => 64

def WordSize.width : WordSize → Width
  | w8 => .w8
  | w16 => .w16
  | w32 => .w32
  | w64 => .w64

theorem WordSize.bits_pos (n : WordSize) : 0 < n.bits := by cases n <;> decide

namespace Signedness

def least (s : Signedness) (bits : Nat) : Int :=
  match s with
  | signed => -2 ^ (bits - 1)
  | unsigned => 0

def greatest (s : Signedness) (bits : Nat) : Int :=
  match s with
  | signed => 2 ^ (bits - 1) - 1
  | unsigned => 2 ^ bits - 1

def value {n : Nat} (s : Signedness) (x : BitVec n) : Int :=
  match s with
  | signed => x.toInt
  | unsigned => x.toNat

/-- The sample that a pattern stands for: silence is zero, with half of the range on either side. -/
def amplitude {n : Nat} (s : Signedness) (x : BitVec n) : Int :=
  match s with
  | signed => x.toInt
  | unsigned => (x.toNat : Int) - 2 ^ (n - 1)

end Signedness

inductive SampleType where
  | integer (sign : Signedness) (size : WordSize)
  | floating (precision : Precision)
deriving DecidableEq

namespace SampleType

@[match_pattern] abbrev i8 : SampleType := integer .signed .w8
@[match_pattern] abbrev i16 : SampleType := integer .signed .w16
@[match_pattern] abbrev i32 : SampleType := integer .signed .w32
@[match_pattern] abbrev i64 : SampleType := integer .signed .w64
@[match_pattern] abbrev u8 : SampleType := integer .unsigned .w8
@[match_pattern] abbrev u16 : SampleType := integer .unsigned .w16
@[match_pattern] abbrev u32 : SampleType := integer .unsigned .w32
@[match_pattern] abbrev u64 : SampleType := integer .unsigned .w64
@[match_pattern] abbrev f32 : SampleType := floating .single
@[match_pattern] abbrev f64 : SampleType := floating .double

@[reducible] def bits : SampleType → Nat
  | integer _ n => n.bits
  | floating p => p.bits

def bytes (t : SampleType) : Nat := t.bits / 8

def kind : SampleType → NumberKind
  | integer s _ => s.kind
  | floating _ => .floatingPoint

def native (host : ByteOrder) : SampleType → Format
  | integer s n => .integer s n.width host
  | floating p => .floating p host

end SampleType

abbrev Sample (t : SampleType) := BitVec t.bits

/-- The type of value that an encoded sample is held in. Samples of 24 bits are held in the upper
three bytes of 32. -/
def Format.staging : Format → SampleType
  | .integer s .w8 _ => .integer s .w8
  | .integer s .w16 _ => .integer s .w16
  | .integer s .w24 _ => .integer s .w32
  | .integer s .w32 _ => .integer s .w32
  | .integer s .w64 _ => .integer s .w64
  | .floating p _ => .floating p

namespace Sample

/-- The number itself, rounded to a given precision. -/
def toFloating (p : Precision) : {t : SampleType} → Sample t → BitVec p.bits
  | .integer s _, x => p.ofInt (s.value x)
  | .floating q, x => q.cast p x

/-- The number itself, cut to an integer of the type or rounded to its precision. -/
def ofFloating (p : Precision) (x : BitVec p.bits) : (t : SampleType) → Sample t
  | .integer s n => BitVec.ofInt n.bits (p.truncate (s.least n.bits) (s.greatest n.bits) x)
  | .floating q => p.cast q x

def ofBits (t : SampleType) (bits : BitVec 64) : Sample t := bits.setWidth _

def toBits {t : SampleType} (x : Sample t) : BitVec 64 := x.setWidth _

def isNaN : {t : SampleType} → Sample t → Bool
  | .integer _ _, _ => false
  | .floating p, x => (p.datum x).isNaN

def lt : {t : SampleType} → Sample t → Sample t → Bool
  | .integer s _, x, y => decide (s.value x < s.value y)
  | .floating p, x, y => p.lt x y

end Sample
end RawPcm
