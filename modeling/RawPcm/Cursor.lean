import RawPcm.Codec
import RawPcm.Error

/-! A position for reading in a buffer of encoded samples. A move that fails leaves it as it was. -/
namespace RawPcm

/-- Bytes with an identity: buffers with different labels are different even if their bytes agree. -/
structure Buffer where
  label : Nat
  bytes : List UInt8
deriving DecidableEq

structure Cursor where
  buffer : Buffer
  offset : Nat
  format : Format
deriving DecidableEq

namespace Cursor

def start (buffer : Buffer) (format : Format) : Cursor := ⟨buffer, 0, format⟩

def get (c : Cursor) (t : SampleType) : Except Fault (Sample t) :=
  c.format.read t (c.buffer.bytes.drop c.offset)

def advance (c : Cursor) : Except Fault Unit × Cursor :=
  match Size.add c.offset c.format.size with
  | .error e => (.error e, c)
  | .ok offset => (.ok (), { c with offset })

def retreat (c : Cursor) : Except Fault Unit × Cursor :=
  if c.format.size ≤ c.offset then (.ok (), { c with offset := c.offset - c.format.size })
  else (.error .beforeStart, c)

def advanceBy (c : Cursor) (samples : Int) : Except Fault Unit × Cursor :=
  match Size.signed (samples * c.format.size) with
  | .error e => (.error e, c)
  | .ok delta =>
    let offset := c.offset + delta
    if 0 ≤ offset ∧ offset < sizeLimit then (.ok (), { c with offset := offset.toNat })
    else (.error .beforeStart, c)

def distanceTo (c d : Cursor) : Except Fault Int :=
  if c.buffer.label ≠ d.buffer.label then .error .unrelatedDistance
  else match Size.signed (Size.asSigned d.offset - Size.asSigned c.offset) with
    | .error e => .error e
    | .ok n => .ok (n.tdiv c.format.size)

/-- Number of whole samples in front of the position. -/
def index (c : Cursor) : Nat := c.offset / c.format.size

def same (c d : Cursor) : Except Fault Bool :=
  if c.format ≠ d.format then .error (.mixedComparison c.format d.format)
  else .ok (decide (c.buffer.label = d.buffer.label ∧ c.offset = d.offset))

def bind (c : Cursor) (expected : Format) : Except FormatMismatch Cursor :=
  match c.format.bind expected with
  | .error e => .error e
  | .ok () => .ok { c with format := expected }

theorem get_of_le {c : Cursor} {t : SampleType}
    (h : c.offset + c.format.size ≤ c.buffer.bytes.length) :
    c.get t = .ok (c.format.decode t (c.buffer.bytes.drop c.offset)) := by
  have hl : ¬ (c.buffer.bytes.drop c.offset).length < c.format.size := by
    rw [List.length_drop]
    omega
  rw [get, Format.read_eq, if_neg hl]

theorem advance_of_lt {c : Cursor} (h : c.offset + c.format.size < sizeLimit) :
    c.advance = (.ok (), { c with offset := c.offset + c.format.size }) := by
  rw [advance, Size.add, if_pos h]

theorem retreat_of_le {c : Cursor} (h : c.format.size ≤ c.offset) :
    c.retreat = (.ok (), { c with offset := c.offset - c.format.size }) := if_pos h

@[simp] theorem bind_format (c : Cursor) : c.bind c.format = .ok c := by
  simp [bind]

def recordText (c : Cursor) : String :=
  "Cursor \x7b offset: " ++ toString c.offset ++ ", len: " ++ toString c.buffer.bytes.length ++
    ", format: " ++ c.format.recordText ++ " \x7d"

end Cursor
end RawPcm
