import RawPcm.Cursor

/-! A position for reading and writing. A write touches the bytes of one sample. -/
namespace RawPcm

structure WriteCursor where
  bytes : List UInt8
  offset : Nat
  format : Format
deriving DecidableEq

namespace WriteCursor
variable {t : SampleType}

def toCursor (c : WriteCursor) : Cursor := ⟨⟨0, c.bytes⟩, c.offset, c.format⟩

def get (c : WriteCursor) (t : SampleType) : Except Fault (Sample t) :=
  c.format.read t (c.bytes.drop c.offset)

def set (c : WriteCursor) (x : Sample t) : Except Fault Unit × WriteCursor :=
  let (answer, rest) := c.format.write (c.bytes.drop c.offset) x
  (answer, { c with bytes := c.bytes.take c.offset ++ rest })

def slot (c : WriteCursor) : Except Fault (List UInt8) :=
  match Size.add c.offset c.format.size with
  | .error e => .error e
  | .ok stop =>
    if stop ≤ c.bytes.length then .ok ((c.bytes.drop c.offset).take c.format.size)
    else .error .outOfBounds

def getSlot (c : WriteCursor) (t : SampleType) : Except Fault (Sample t) :=
  match c.slot with
  | .error e => .error e
  | .ok bytes => c.format.read t bytes

def setSlot (c : WriteCursor) (x : Sample t) : Except Fault Unit × WriteCursor :=
  match c.slot with
  | .error e => (.error e, c)
  | .ok slot =>
    let (answer, slot) := c.format.write slot x
    let bytes := c.bytes.take c.offset ++ slot ++ c.bytes.drop (c.offset + c.format.size)
    (answer, { c with bytes })

def advance (c : WriteCursor) : Except Fault Unit × WriteCursor :=
  match Size.add c.offset c.format.size with
  | .error e => (.error e, c)
  | .ok offset => (.ok (), { c with offset })

def remaining (c : WriteCursor) : Nat := (c.bytes.length - c.offset) / c.format.size

def push (c : WriteCursor) (x : Sample t) : Except Fault Unit × WriteCursor :=
  if c.remaining = 0 then (.error (.bufferFull c.format), c)
  else match c.set x with
    | (.error e, c) => (.error e, c)
    | (.ok (), c) => c.advance

def bind (c : WriteCursor) (expected : Format) : Except FormatMismatch WriteCursor :=
  match c.format.bind expected with
  | .error e => .error e
  | .ok () => .ok { c with format := expected }

@[simp] theorem bind_format (c : WriteCursor) : c.bind c.format = .ok c := by
  simp [bind]

def recordText (c : WriteCursor) : String :=
  "CursorMut \x7b offset: " ++ toString c.offset ++ ", len: " ++ toString c.bytes.length ++
    ", format: " ++ c.format.recordText ++ " \x7d"

end WriteCursor
end RawPcm
