import RawPcm.Span
import RawPcm.Stream
import RawPcm.WriteCursor

/-! The two sides of a transfer: sources that values are pulled from and sinks that they are pushed
into. -/
namespace RawPcm

/-- What an operand comes to where it is bound to a format, and what is said there. -/
structure Arm (α : Type) where
  log : List Record
  bound : Except FormatMismatch α

def arms {α : Type} (rebind : Format → Except FormatMismatch α) : List (Arm α) :=
  Format.catalogue.map fun f => ⟨f.remark, rebind f⟩

namespace Format
variable {α : Type}

def select (f : Format) (rebind : Format → Except FormatMismatch α) : Arm α :=
  (arms rebind).get ⟨f.index, by simpa [arms] using f.index_lt⟩

theorem select_eq (f : Format) (rebind : Format → Except FormatMismatch α) :
    f.select rebind = ⟨f.remark, rebind f⟩ := by
  have hi : (arms rebind)[f.index]? = some ⟨f.remark, rebind f⟩ := by
    simp [arms, catalogue_index]
  exact (List.getElem?_eq_some_iff.mp hi).2

end Format

inductive Source (t : SampleType) where
  | values (xs : List (Sample t))
  | span (s : Span)
  | stream (s : Stream t)

namespace Source
variable {t : SampleType}

def format (host : ByteOrder) : Source t → Format
  | values _ => t.native host
  | span s => s.format
  | stream s => s.format

/-- Values are in no format that could differ from the one they are bound to. -/
def visit : Source t → Arm (Source t)
  | values xs => ⟨[], .ok (values xs)⟩
  | span s => s.format.select fun f => (s.bind f).map span
  | stream s => s.format.select fun f => (s.bind f).map stream

def bind (s : Source t) : Except FormatMismatch (Source t) := s.visit.bound

theorem bind_span (s : Span) : (span s : Source t).bind = (s.bind s.format).map span := by
  rw [bind, visit, Format.select_eq]

@[simp] theorem bind_stream (s : Stream t) : (stream s).bind = .ok (stream s) := by
  simp [bind, visit, Format.select_eq, Stream.bind, Except.map]

def pull : Source t → Except Fault (Option (Sample t)) × Source t
  | values [] => (.ok none, values [])
  | values (x :: xs) => (.ok (some x), values xs)
  | span s =>
    let (answer, s) := s.next t
    (answer, span s)
  | stream s =>
    let (answer, s) := s.next
    (.ok answer, stream s)

def remaining : Source t → Except Fault (Option Nat)
  | values xs => .ok (some xs.length)
  | span s =>
    match s.remaining with
    | .error e => .error e
    | .ok n => .ok (some n)
  | stream _ => .ok none

def bound : Source t → Nat
  | values xs => xs.length + 1
  | span s => s.back.offset + 1
  | stream s => s.rest.length + 2

def toList (s : Source t) : Except Fault (List (Sample t)) := drain pull s.bound s

end Source

inductive Sink (t : SampleType) where
  /-- A row of places, of which those in front are filled. -/
  | slice (filled free : List (Sample t))
  | list (xs : List (Sample t))
  | cursor (c : WriteCursor)

namespace Sink
variable {t : SampleType}

def ofPlaces (xs : List (Sample t)) : Sink t := slice [] xs

def format (host : ByteOrder) : Sink t → Format
  | slice _ _ | list _ => t.native host
  | cursor c => c.format

def visit : Sink t → Arm (Sink t)
  | slice filled free => ⟨[], .ok (slice filled free)⟩
  | list xs => ⟨[], .ok (list xs)⟩
  | cursor c => c.format.select fun f => (c.bind f).map cursor

def bind (d : Sink t) : Except FormatMismatch (Sink t) := d.visit.bound

@[simp] theorem bind_eq (d : Sink t) : d.bind = .ok d := by
  cases d with
  | slice filled free => rfl
  | list xs => rfl
  | cursor c => simp [bind, visit, Format.select_eq, Except.map]

def capacity : Sink t → Nat
  | slice _ free => free.length
  | list _ => sizeLimit - 1
  | cursor c => c.remaining

def push : Sink t → Sample t → Except Fault Unit × Sink t
  | slice filled [], _ => (.error .sliceFull, slice filled [])
  | slice filled (_ :: free), x => (.ok (), slice (filled ++ [x]) free)
  | list xs, x => (.ok (), list (xs ++ [x]))
  | cursor c, x =>
    let (answer, c) := c.push x
    (answer, cursor c)

def values : Sink t → List (Sample t)
  | slice filled free => filled ++ free
  | list xs => xs
  | cursor _ => []

def bytes : Sink t → List UInt8
  | slice _ _ | list _ => []
  | cursor c => c.bytes

end Sink
end RawPcm
