import RawPcm.Transfer.Operand

/-! Moving values from a source to a sink: all of them, as many as fit, or a given number. -/
namespace RawPcm

structure Transfer (t : SampleType) where
  source : Source t
  sink : Sink t
  fault : Option Fault

namespace Transfer
variable {t : SampleType}

def all : (fuel : Nat) → Source t → Sink t → Transfer t
  | 0, s, d => ⟨s, d, none⟩
  | fuel + 1, s, d =>
    match s.pull with
    | (.error e, s) => ⟨s, d, some e⟩
    | (.ok none, s) => ⟨s, d, none⟩
    | (.ok (some x), s) =>
      match d.push x with
      | (.error e, d) => ⟨s, d, some e⟩
      | (.ok (), d) => all fuel s d

def fitting : (fuel : Nat) → Source t → Sink t → Transfer t
  | 0, s, d => ⟨s, d, none⟩
  | fuel + 1, s, d =>
    if d.capacity = 0 then ⟨s, d, none⟩
    else match s.pull with
      | (.error e, s) => ⟨s, d, some e⟩
      | (.ok none, s) => ⟨s, d, none⟩
      | (.ok (some x), s) =>
        match d.push x with
        | (.error e, d) => ⟨s, d, some e⟩
        | (.ok (), d) => fitting fuel s d

def counted : (count : Nat) → Source t → Sink t → Transfer t
  | 0, s, d => ⟨s, d, none⟩
  | count + 1, s, d =>
    match s.pull with
    | (.error e, s) => ⟨s, d, some e⟩
    | (.ok none, s) => ⟨s, d, some .sourceExhausted⟩
    | (.ok (some x), s) =>
      match d.push x with
      | (.error e, d) => ⟨s, d, some e⟩
      | (.ok (), d) => counted count s d

/-- A given number of values, refused at once where the source is known to have fewer. -/
def exactly (count : Nat) (s : Source t) (d : Sink t) : Transfer t :=
  match s.remaining with
  | .error e => ⟨s, d, some e⟩
  | .ok (some n) => if n < count then ⟨s, d, some (.tooFewValues n count)⟩ else counted count s d
  | .ok none => counted count s d

end Transfer

section
variable {t : SampleType}

/-- Starts a transfer once each side is known to be of one format, the source first. -/
def dispatch (transfer : Source t → Sink t → Transfer t) (s : Source t) (d : Sink t) :
    Except FormatMismatch Unit × Transfer t :=
  match s.bind with
  | .error e => (.error e, ⟨s, d, none⟩)
  | .ok s =>
    match d.bind with
    | .error e => (.error e, ⟨s, d, none⟩)
    | .ok d => (.ok (), transfer s d)

/-- Moves every value of a source. A fault ends it when the sink fills up first. -/
def copy (s : Source t) (d : Sink t) : Except FormatMismatch Unit × Transfer t :=
  dispatch (fun s d => Transfer.all s.bound s d) s d

def copyBounded (s : Source t) (d : Sink t) : Except FormatMismatch Unit × Transfer t :=
  dispatch (fun s d => Transfer.fitting s.bound s d) s d

def copyExactly (s : Source t) (count : Nat) (d : Sink t) :
    Except FormatMismatch Unit × Transfer t :=
  dispatch (Transfer.exactly count) s d

def copyRemarks (s : Source t) (d : Sink t) : List Record :=
  match s.bind with
  | .error _ => s.visit.log
  | .ok _ => s.visit.log ++ d.visit.log

def copyBetween (front back : Cursor) (d : Sink t) :
    Except Fault (Except FormatMismatch Unit × Transfer t) :=
  match Span.between front back with
  | .error e => .error e
  | .ok s => .ok (copy (.span s) d)

/-- Decodes whole samples into a row of places, as many as there are of both. Gives their number and
the row afterwards. -/
def readInto (bytes : List UInt8) (format : Format) (out : List (Sample t)) :
    Except Fault (Except FormatMismatch (Nat × List (Sample t))) :=
  match copyBounded (.span (.whole ⟨0, bytes⟩ format)) (.ofPlaces out) with
  | (.error e, _) => .ok (.error e)
  | (.ok (), r) =>
    match r.fault with
    | some e => .error e
    | none => .ok (.ok (out.length - r.sink.capacity, r.sink.values))

def writeInto (xs : List (Sample t)) (format : Format) (bytes : List UInt8) :
    Except Fault (Except FormatMismatch (Nat × List UInt8)) :=
  match copyBounded (.values xs) (.cursor ⟨bytes, 0, format⟩) with
  | (.error e, _) => .ok (.error e)
  | (.ok (), r) =>
    match r.fault with
    | some e => .error e
    | none =>
      match r.source with
      | .values rest => .ok (.ok (xs.length - rest.length, r.sink.bytes))
      | _ => .ok (.ok (xs.length, r.sink.bytes))

/-- The greatest of zero and all values of a source, with their number. -/
def peak (s : Source t) : Except FormatMismatch (Except Fault (Sample t × Nat)) :=
  match s.bind with
  | .error e => .error e
  | .ok s =>
    match s.toList with
    | .error e => .ok (.error e)
    | .ok xs => .ok (.ok (xs.foldl (fun m x => if Sample.lt m x then x else m) 0, xs.length))

end
end RawPcm
