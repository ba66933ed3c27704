import RawPcm.Fault

/-! Texts as the bytes that encode them. -/
namespace RawPcm.Text

def bytes (text : String) : List UInt8 := text.toByteArray.data.toList

/-- An offset in bytes is in front of a character or at the end. -/
def isBoundary (text : String) (offset : Nat) : Bool :=
  (String.Pos.Raw.mk offset).isValid text

def splitAt (text : String) (offset : Nat) : Except Fault (String × String) :=
  if h : (String.Pos.Raw.mk offset).IsValid text then
    .ok (⟨text.toByteArray.extract 0 offset, h.isValidUTF8_extract_zero⟩,
      ⟨text.toByteArray.extract offset text.utf8ByteSize, h.isValidUTF8_extract_utf8ByteSize⟩)
  else .error .insideCharacter

end RawPcm.Text
