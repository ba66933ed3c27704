import RawPcm.Rounding
import RawPcm.Floating.Precision

/-! Rounding an exact quotient to the nearest floating point number, a tie to the even pattern. -/
namespace RawPcm.Precision

/-- Digits that do not fit below the leading one. -/
def excess (p : Precision) (num den : Nat) : Nat :=
  (num / den).log2 + 1 - p.digits

/-- The magnitude pattern nearest to `num / den` multiples of the least positive number. -/
def nearestMagnitude (p : Precision) (num den : Nat) : Nat :=
  let e := p.excess num den
  min p.infinity (e * 2 ^ (p.digits - 1) + roundHalfEven num (den * 2 ^ e))

def nearest (p : Precision) (negative : Bool) (num den : Nat) : BitVec p.bits :=
  p.pattern negative (p.nearestMagnitude num den)

end RawPcm.Precision
