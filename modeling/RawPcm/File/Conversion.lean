import RawPcm.Transfer.Copy
import RawPcm.File.Delivery
import RawPcm.File.Via

/-! Converting a file chunk by chunk, by way of three buffers that serve for every chunk. -/
namespace RawPcm

/-- What a conversion is told. A chunk of no samples counts as one of one sample. -/
structure Conversion where
  source : Format
  target : Format
  chunkSamples : Nat
  strict : Bool
deriving DecidableEq

structure Totals where
  samples : Nat
  dropped : Nat
deriving DecidableEq

def Totals.add (t : Totals) (samples dropped : Nat) : Except Fault Totals :=
  match Size.add t.samples samples with
  | .error e => .error e
  | .ok samples =>
    match Size.add t.dropped dropped with
    | .error e => .error e
    | .ok dropped => .ok ⟨samples, dropped⟩

inductive ConversionError where
  | read (cause : String)
  | write (cause : String)
  | samples (cause : SampleError)
deriving DecidableEq

structure Progress where
  writer : Writer
  totals : Totals
  log : List Record

def Progress.start (writer : Writer) : Progress := ⟨writer, ⟨0, 0⟩, []⟩

structure Workspace (t : SampleType) where
  input : Scratch UInt8
  values : Scratch (Sample t)
  output : Scratch UInt8

namespace Workspace
variable {t : SampleType}

def decode (w : Workspace t) (span : Span) :
    Except Fault (Except FormatMismatch (Nat × Workspace t)) :=
  -- A sample has a byte at least: places beyond the number of bytes are out of reach.
  let places := w.values.front (span.back.offset + 1)
  match copyBounded (.span span) (.ofPlaces places) with
  | (.error e, _) => .ok (.error e)
  | (.ok (), r) =>
    match r.fault with
    | some e => .error e
    | none =>
      .ok (.ok (places.length - r.sink.capacity, { w with values := w.values.put r.sink.values }))

def encode (w : Workspace t) (f : Format) (count : Nat) :
    Except Fault (Except FormatMismatch (Nat × Workspace t)) :=
  -- Places beyond those of `count` samples are out of reach.
  match writeInto (w.values.front count) f (w.output.front (count * f.size)) with
  | .error e => .error e
  | .ok (.error e) => .ok (.error e)
  | .ok (.ok (written, bytes)) => .ok (.ok (written, { w with output := w.output.put bytes }))

end Workspace

namespace Conversion

def chunk (c : Conversion) : Nat := max c.chunkSamples 1

def samples (c : Conversion) (bytes : List UInt8) : Except TrailingBytes Span :=
  if c.strict then Span.exact ⟨0, bytes⟩ c.source else .ok (Span.whole ⟨0, bytes⟩ c.source)

def dropRemark (c : Conversion) (trailing : Nat) : List Record :=
  if trailing = 0 then []
  else [⟨.warn, .conversion, "dropped " ++ toString trailing ++ " trailing bytes, not a whole " ++
    c.source.text ++ " sample"⟩]

def remark (c : Conversion) (filled : Nat) : List Record :=
  Span.remark filled c.source ++ c.source.remark ++ c.target.remark

def absorb {t : SampleType} (c : Conversion) (filled : Nat) (w : Workspace t) (p : Progress) :
    Except Fault (Except ConversionError (Workspace t) × Progress) :=
  match c.samples (w.input.front filled) with
  | .error e => .ok (.error (.samples (.trailing e)), p)
  | .ok span =>
    match w.decode span with
    | .error e => .error e
    | .ok (.error e) => .ok (.error (.samples (.mismatch e)), p)
    | .ok (.ok (count, w)) =>
      match w.encode c.target count with
      | .error e => .error e
      | .ok (.error e) => .ok (.error (.samples (.mismatch e)), p)
      | .ok (.ok (written, w)) =>
        let log := p.log ++ c.remark filled
        match p.writer.put (w.output.front (written * c.target.size)) with
        | (false, writer) => .ok (.error (.write writer.refusal), { p with writer, log })
        | (true, writer) =>
          let trailing := filled - count * c.source.size
          match p.totals.add written trailing with
          | .error e => .error e
          | .ok totals => .ok (.ok w, ⟨writer, totals, log ++ c.dropRemark trailing⟩)

def advance {t : SampleType} (c : Conversion) (r : Reader) (w : Workspace t) (p : Progress) :
    Except Fault (Except ConversionError Unit × Progress) :=
  match _h : r.fill w.input with
  | .error e => .ok (.error (.read e), p)
  | .ok (filled, input, r') =>
    if _hf : filled = 0 then .ok (.ok (), p)
    else
      match c.absorb filled { w with input } p with
      | .error e => .error e
      | .ok (.error e, p) => .ok (.error e, p)
      | .ok (.ok w, p) => if filled < input.size then .ok (.ok (), p) else c.advance r' w p
termination_by r.rest.length
decreasing_by
  have := Reader.length_rest_of_fill _h
  omega

def workspace (c : Conversion) (memory : Nat) (t : SampleType) : Except Fault (Workspace t) :=
  match Size.buffer memory c.chunk c.source.size with
  | .error e => .error e
  | .ok input =>
    match Size.buffer memory c.chunk t.bytes with
    | .error _ => .error .valuesExhausted
    | .ok _ =>
      match Size.buffer memory c.chunk c.target.size with
      | .error e => .error e
      | .ok output => .ok ⟨.blank input, .blank c.chunk, .blank output⟩

/-- Converts all that a reader delivers, by way of values of any type, in a memory of some size. -/
def runThrough (c : Conversion) (memory : Nat) (t : SampleType) (reader : Reader)
    (writer : Writer) : Except Fault (Except ConversionError Totals × Progress) :=
  match c.workspace memory t with
  | .error e => .error e
  | .ok w =>
    match c.advance reader w (.start writer) with
    | .error e => .error e
    | .ok (.error e, p) => .ok (.error e, p)
    | .ok (.ok (), p) => .ok (.ok p.totals, p)

def run (c : Conversion) (memory : Nat) (via : Via) (reader : Reader) (writer : Writer) :
    Except Fault (Except ConversionError Totals × Progress) :=
  c.runThrough memory via.sampleType reader writer

end Conversion
end RawPcm
