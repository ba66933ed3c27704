import RawPcm.Rounding
import RawPcm.Floating.Precision

/-! Numbers in decimal with a fixed number of places, correctly rounded, a tie to the even digit. -/
namespace RawPcm

def padLeft (width : Nat) (fill : Char) (text : String) : String :=
  String.ofList (List.replicate (width - text.length) fill ++ text.toList)

def padRight (width : Nat) (text : String) : String :=
  String.ofList (text.toList ++ List.replicate (width - text.length) ' ')

/-- A count of `10 ^ -places` as a decimal fraction. -/
def fractionText (places count : Nat) : String :=
  toString (count / 10 ^ places) ++ "." ++ padLeft places '0' (toString (count % 10 ^ places))

def signText (negative : Bool) : String := if negative then "-" else "+"

def Precision.decimalText (p : Precision) (places : Nat) (x : BitVec p.bits) : String :=
  match p.datum x with
  | .nan => "NaN"
  | .infinite negative => signText negative ++ "inf"
  | .finite negative n =>
    signText negative ++ fractionText places (roundHalfEven (n * 10 ^ places) (2 ^ p.places))

end RawPcm
