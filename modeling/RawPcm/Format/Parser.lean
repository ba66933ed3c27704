import RawPcm.Format.Error
import RawPcm.Text.Number

/-! Reading a format name, with places in it counted in bytes. -/
namespace RawPcm

def NumberKind.ofCode? : Char → Option NumberKind
  | 's' => some .signedInteger
  | 'u' => some .unsignedInteger
  | 'f' => some .floatingPoint
  | _ => none

def ByteOrder.ofSuffix? (host : ByteOrder) : String → Option ByteOrder
  | "le" => some little
  | "be" => some big
  | "ne" => some host
  | _ => none

namespace Format

/-- One or two bytes, all of which are digits. -/
def isShortNumber (digits : String) : Bool :=
  digits != "" && digits.utf8ByteSize ≤ 2 && (Text.bytes digits).all Text.isDigitByte

def ofNumber (host : ByteOrder) (kind : NumberKind) (digits suffix : String) :
    Except FormatError Format :=
  if ¬ isShortNumber digits then .error .unparsable
  else match ByteOrder.ofSuffix? host suffix with
    | none => .error .unparsable
    | some order =>
      match size? digits with
      | none => .error .unparsable
      | some bits =>
        match ofBits kind bits order with
        | .error _ => .error .unparsable
        | .ok f => .ok f

/-- The last two bytes are the byte order, if a character begins there. -/
def ofRest (host : ByteOrder) (kind : NumberKind) (rest : String) :
    Except Fault (Except FormatError Format) :=
  match rest.utf8ByteSize with
  | 0 | 1 => .ok (.error .unparsable)
  | split + 2 =>
    if ¬ Text.isBoundary rest split then .ok (.error .unparsable)
    else match Text.splitAt rest split with
      | .error e => .error e
      | .ok (digits, suffix) => .ok (ofNumber host kind digits suffix)

def parse (host : ByteOrder) (text : String) : Except Fault (Except FormatError Format) :=
  match text.toList with
  | [] => .ok (.error .unparsable)
  | c :: rest =>
    match NumberKind.ofCode? c with
    | none => .ok (.error .unparsable)
    | some kind => ofRest host kind (String.ofList rest)

end Format
end RawPcm
