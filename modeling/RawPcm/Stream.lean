import RawPcm.Codec
import RawPcm.Error

/-! Samples from bytes that can be taken only once. A stream is one sample ahead. -/
namespace RawPcm

structure Stream (t : SampleType) where
  rest : List UInt8
  format : Format
  current : Option (Sample t)

namespace Stream
variable {t : SampleType}

/-- Takes one sample from the front of some bytes. Bytes that are too few are taken all the same. -/
def fetch (format : Format) (t : SampleType) (bytes : List UInt8) :
    Option (Sample t) × List UInt8 :=
  let chunk := bytes.take format.size
  if chunk.length < format.size then (none, [])
  else (some (format.decode t chunk), bytes.drop format.size)

def start (t : SampleType) (bytes : List UInt8) (format : Format) : Stream t :=
  let (current, rest) := fetch format t bytes
  ⟨rest, format, current⟩

def next (s : Stream t) : Option (Sample t) × Stream t :=
  match s.current with
  | none => (none, s)
  | some x =>
    let (current, rest) := fetch s.format t s.rest
    (some x, ⟨rest, s.format, current⟩)

def takeAll : (fuel : Nat) → Stream t → List (Sample t) × Stream t
  | 0, s => ([], s)
  | fuel + 1, s =>
    match s.next with
    | (none, s) => ([], s)
    | (some x, s) =>
      let (xs, s) := takeAll fuel s
      (x :: xs, s)

def collect (s : Stream t) : List (Sample t) × Stream t := takeAll (s.rest.length + 2) s

def toList (s : Stream t) : List (Sample t) := s.collect.1

def bind (s : Stream t) (expected : Format) : Except FormatMismatch (Stream t) :=
  match s.format.bind expected with
  | .error e => .error e
  | .ok () => .ok { s with format := expected }

end Stream
end RawPcm
