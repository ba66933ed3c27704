import RawPcm.Format.Text

/-! Why a description names no supported format. -/
namespace RawPcm

inductive FormatError where
  /-- The parts are well formed but are not combined, such as floating point in sixteen bits. -/
  | unsupported (kind : NumberKind) (width : Width) (order : ByteOrder)
  | unsupportedWidth (bits : Nat)
  | unparsable
deriving DecidableEq

def FormatError.message : FormatError → String
  | unsupported kind width order =>
    "unsupported format: " ++ width.text ++ " bit " ++ kind.name ++ " (" ++ order.name ++ " endian)"
  | unsupportedWidth bits => "unsupported bit width: " ++ toString bits
  | unparsable => "unparsable format, expected eg. s16le, u8be or f32ne"

def Width.ofBits (bits : Nat) : Except FormatError Width :=
  match ofBits? bits with
  | some w => .ok w
  | none => .error (.unsupportedWidth bits)

namespace Format

def ofParts (kind : NumberKind) (width : Width) (order : ByteOrder) : Except FormatError Format :=
  match catalogue.find? fun f => f.kind = kind ∧ f.width = width ∧ f.order = order with
  | some f => .ok f
  | none => .error (.unsupported kind width order)

def ofBits (kind : NumberKind) (bits : Nat) (order : ByteOrder) : Except FormatError Format :=
  match Width.ofBits bits with
  | .error e => .error e
  | .ok w => ofParts kind w order

def native (host : ByteOrder) (kind : NumberKind) (width : Width) : Except FormatError Format :=
  ofParts kind width host

theorem ofParts_parts (f : Format) : ofParts f.kind f.width f.order = .ok f := by
  cases f with
  | integer s w o => cases s <;> cases w <;> cases o <;> rfl
  | floating p o => cases p <;> cases o <;> rfl

theorem parts_of_ofParts {k : NumberKind} {w : Width} {o : ByteOrder} {f : Format}
    (h : ofParts k w o = .ok f) : f.kind = k ∧ f.width = w ∧ f.order = o := by
  unfold ofParts at h
  split at h
  · rename_i g hg
    cases h
    simpa using List.find?_some hg
  · cases h

end Format
end RawPcm
