/-! Binary floating point in two widths. Magnitude patterns are in the order of the numbers they
stand for. -/
namespace RawPcm

-- Powers with natural exponents are those of the core library, whatever other ones are in sight.
@[default_instance high]
instance (priority := high) natPower {α : Type} [NatPow α] : Pow α Nat := instPowNat

inductive Precision where
  | single
  | double
deriving DecidableEq

namespace Precision

@[reducible] def bits : Precision → Nat
  | single => 32
  | double => 64

def digits : Precision → Nat
  | single => 24
  | double => 53

/-- The least positive number is two to the power `-places`. -/
def places : Precision → Nat
  | single => 149
  | double => 1074

/-- The magnitude pattern of infinity; greater ones are NaNs. -/
def infinity (p : Precision) : Nat :=
  2 ^ (p.bits - 1) - 2 ^ (p.digits - 1)

/-- The multiple of the least positive number that a magnitude pattern below infinity stands for. -/
def units (p : Precision) (n : Nat) : Nat :=
  let lead := 2 ^ (p.digits - 1)
  if n < lead then n else (lead + n % lead) * 2 ^ (n / lead - 1)

end Precision

/-- What a bit pattern stands for. A finite number is counted in multiples of the least positive
number of its precision. -/
inductive Datum where
  | nan
  | infinite (negative : Bool)
  | finite (negative : Bool) (units : Nat)
deriving DecidableEq

namespace Datum

def isNaN : Datum → Bool
  | nan => true
  | _ => false

def signed (negative : Bool) (units : Nat) : Int :=
  if negative then -(units : Int) else units

def lt : Datum → Datum → Bool
  | nan, _ | _, nan => false
  | infinite a, infinite b => a && !b
  | infinite a, finite _ _ => a
  | finite _ _, infinite b => !b
  | finite a m, finite b n => decide (signed a m < signed b n)

end Datum

namespace Precision

def datum (p : Precision) (x : BitVec p.bits) : Datum :=
  let n := x.toNat % 2 ^ (p.bits - 1)
  if p.infinity < n then .nan
  else if n = p.infinity then .infinite x.msb
  else .finite x.msb (p.units n)

def pattern (p : Precision) (negative : Bool) (n : Nat) : BitVec p.bits :=
  BitVec.ofNat p.bits (if negative then 2 ^ (p.bits - 1) + n else n)

/-- The NaN of the given sign whose leading payload digit is set and whose other digits are given. -/
def nanWith (p : Precision) (negative : Bool) (payload : Nat) : BitVec p.bits :=
  p.pattern negative (p.infinity + (2 ^ (p.digits - 2) ||| payload))

def quietNaN (p : Precision) : BitVec p.bits := p.nanWith false 0

def infinityOf (p : Precision) (negative : Bool) : BitVec p.bits := p.pattern negative p.infinity

end Precision
end RawPcm
