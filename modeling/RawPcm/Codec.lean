import RawPcm.Word
import RawPcm.Sample.Conversion

/-! Encoded samples: the bytes of a format on one side, a value of any sample type on the other. -/
namespace RawPcm.Format

/-- Bytes of the value that an encoded sample is held in. -/
def stage (f : Format) : Nat := f.staging.bits / 8

def load (f : Format) (bytes : List UInt8) : Except Fault (Sample f.staging) :=
  match loadBits bytes f.size f.stage f.order with
  | .error e => .error e
  | .ok word => .ok (Sample.ofBits f.staging word)

def store (f : Format) (bytes : List UInt8) (x : Sample f.staging) :
    Except Fault Unit × List UInt8 :=
  storeBits bytes x.toBits f.size f.stage f.order

def decode (f : Format) (t : SampleType) (bytes : List UInt8) : Sample t :=
  Sample.convert t (Sample.ofBits f.staging (f.order.raise f.size f.stage bytes))

def encode (f : Format) {t : SampleType} (x : Sample t) : List UInt8 :=
  f.order.lower f.size f.stage (Sample.toBits (t := f.staging) (Sample.convert f.staging x))

def read (f : Format) (t : SampleType) (bytes : List UInt8) : Except Fault (Sample t) :=
  match f.load bytes with
  | .error e => .error e
  | .ok x => .ok (Sample.convert t x)

def write (f : Format) {t : SampleType} (bytes : List UInt8) (x : Sample t) :
    Except Fault Unit × List UInt8 :=
  f.store bytes (Sample.convert f.staging x)

/-- The readers of all formats, each at the place that its index says. -/
def readers (t : SampleType) : List (List UInt8 → Except Fault (Sample t)) :=
  catalogue.map fun f => f.read t

def writers (t : SampleType) : List (List UInt8 → Sample t → Except Fault Unit × List UInt8) :=
  catalogue.map fun f => f.write

def readEach (f : Format) (t : SampleType) : (count : Nat) → List UInt8 →
    Except Fault (List (Sample t))
  | 0, _ => .ok []
  | count + 1, bytes =>
    match f.read t bytes, f.readEach t count (bytes.drop f.size) with
    | .ok x, .ok xs => .ok (x :: xs)
    | .error e, _ | .ok _, .error e => .error e

/-- Encodes value after value as long as there is room for one more. Gives their number and the
bytes afterwards. -/
def writeEach (f : Format) {t : SampleType} : List (Sample t) → List UInt8 →
    Except Fault (Nat × List UInt8)
  | [], bytes => .ok (0, bytes)
  | x :: xs, bytes =>
    if bytes.length < f.size then .ok (0, bytes)
    else match f.write bytes x with
      | (.error e, _) => .error e
      | (.ok (), out) =>
        match f.writeEach xs (out.drop f.size) with
        | .error e => .error e
        | .ok (count, rest) => .ok (count + 1, out.take f.size ++ rest)

def firstChunks (f : Format) : (count : Nat) → List UInt8 → List (List UInt8)
  | 0, _ => []
  | count + 1, bytes => bytes.take f.size :: f.firstChunks count (bytes.drop f.size)

/-- The bytes of each whole sample. -/
def chunks (f : Format) (bytes : List UInt8) : List (List UInt8) :=
  f.firstChunks (bytes.length / f.size) bytes

def decodeAll (f : Format) (t : SampleType) (bytes : List UInt8) : List (Sample t) :=
  (f.chunks bytes).map (f.decode t)

def encodeAll (f : Format) {t : SampleType} (xs : List (Sample t)) : List UInt8 :=
  xs.flatMap f.encode

theorem fits_in_word (f : Format) : ¬ (f.stage = 0 ∨ 8 < f.stage) ∧ ¬ 8 < f.size := by
  have hall : ∀ f ∈ catalogue, ¬ (f.stage = 0 ∨ 8 < f.stage) ∧ ¬ 8 < f.size := by decide
  exact hall f f.mem_catalogue

theorem read_eq (f : Format) (t : SampleType) (bytes : List UInt8) :
    f.read t bytes =
      if bytes.length < f.size then .error .outOfBounds else .ok (f.decode t bytes) := by
  obtain ⟨hstage, hsize⟩ := f.fits_in_word
  rw [read, load, loadBits, if_neg hsize, if_neg hstage]
  by_cases hl : bytes.length < f.size
  · simp only [if_pos hl]
  · simp only [if_neg hl]
    rfl

theorem write_eq (f : Format) {t : SampleType} (bytes : List UInt8) (x : Sample t) :
    f.write bytes x = if bytes.length < f.size then (.error .outOfBounds, bytes)
      else (.ok (), f.encode x ++ bytes.drop f.size) := by
  obtain ⟨hstage, hsize⟩ := f.fits_in_word
  rw [write, store, storeBits, if_neg hstage, if_neg hsize]
  rfl

theorem write_of_le (f : Format) {t : SampleType} {bytes : List UInt8} (h : f.size ≤ bytes.length)
    (x : Sample t) : f.write bytes x = (.ok (), f.encode x ++ bytes.drop f.size) := by
  rw [write_eq, if_neg (Nat.not_lt_of_le h)]

theorem readers_index (f : Format) (t : SampleType) : (readers t)[f.index]? = some (f.read t) := by
  simp [readers, catalogue_index]

theorem writers_index (f : Format) (t : SampleType) : (writers t)[f.index]? = some f.write := by
  simp [writers, catalogue_index]

theorem length_encode (f : Format) {t : SampleType} (x : Sample t) :
    (f.encode x).length = f.size := ByteOrder.length_lower ..

end RawPcm.Format
