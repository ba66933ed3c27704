import RawPcm.Format.Basic

/-! The written forms of formats and of their parts. -/
namespace RawPcm

namespace NumberKind

def code : NumberKind → Char
  | signedInteger => 's'
  | unsignedInteger => 'u'
  | floatingPoint => 'f'

def name : NumberKind → String
  | signedInteger => "SignedInteger"
  | unsignedInteger => "UnsignedInteger"
  | floatingPoint => "FloatingPoint"

def shortName : NumberKind → String
  | signedInteger => "Signed"
  | unsignedInteger => "Unsigned"
  | floatingPoint => "Float"

end NumberKind

namespace Width

def digits : Width → List Char
  | w8 => ['8']
  | w16 => ['1', '6']
  | w24 => ['2', '4']
  | w32 => ['3', '2']
  | w64 => ['6', '4']

def text (w : Width) : String := String.ofList w.digits

def name (w : Width) : String := "B" ++ w.text

end Width

namespace ByteOrder

def suffix : ByteOrder → List Char
  | big => ['b', 'e']
  | little => ['l', 'e']

def name : ByteOrder → String
  | big => "Big"
  | little => "Little"

end ByteOrder

namespace Format

def chars (f : Format) : List Char :=
  f.kind.code :: (f.width.digits ++ f.order.suffix)

def text (f : Format) : String := String.ofList f.chars

def recordText (f : Format) : String :=
  "RuntimeFormat \x7b number: " ++ f.kind.name ++ ", bitwidth: " ++ f.width.name ++
    ", endian: " ++ f.order.name ++ ", index: " ++ toString f.index ++ " \x7d"

def tagText (f : Format) : String :=
  "Pcm<" ++ f.kind.shortName ++ ", " ++ f.width.name ++ ", " ++ f.order.name ++ ">"

end Format
end RawPcm
