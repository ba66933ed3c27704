import RawPcm.Codec
import RawPcm.Decimal

/-! The samples of a file as text, one on a line. -/
namespace RawPcm

def hexDigit (n : Nat) : Char := (Nat.toDigits 16 n).headD '0'

def hexText (bytes : List UInt8) : String :=
  String.ofList (bytes.flatMap fun b => [hexDigit (b.toNat / 16), hexDigit (b.toNat % 16)])

namespace Listing

def line (f : Format) (index : Nat) (chunk : List UInt8) : String :=
  padLeft 6 ' ' (toString index) ++ "  " ++ padLeft 16 ' ' (hexText chunk) ++ "  " ++
    Precision.double.decimalText 9 (f.decode .f64 chunk)

def lines (bytes : List UInt8) (f : Format) (count : Nat) : List String :=
  ((f.chunks bytes).take count).mapIdx (line f)

def heading : String :=
  padLeft 5 ' ' "index" ++ "  " ++ padRight 6 "format" ++ "  " ++ padLeft 5 ' ' "bytes" ++ "  " ++
    "description"

def formatLine (f : Format) : String :=
  padLeft 5 ' ' (toString f.index) ++ "  " ++ padRight 6 f.text ++ "  " ++
    padLeft 5 ' ' (toString f.size) ++ "  " ++ f.kind.name ++ " " ++ f.width.text ++ "-bit " ++
    f.order.name ++ " endian"

def formats : List String := heading :: Format.catalogue.map formatLine

end Listing
end RawPcm
