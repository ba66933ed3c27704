import RawPcm.Cursor
import RawPcm.Log

/-! The samples between two positions in one buffer, to be taken from either end. -/
namespace RawPcm

/-- Values that repeated steps give until one gives none, for at most `fuel` steps. -/
def drain {σ α : Type} (step : σ → Except Fault (Option α) × σ) : (fuel : Nat) → σ →
    Except Fault (List α)
  | 0, _ => .ok []
  | fuel + 1, s =>
    match step s with
    | (.error e, _) => .error e
    | (.ok none, _) => .ok []
    | (.ok (some x), s) =>
      match drain step fuel s with
      | .error e => .error e
      | .ok xs => .ok (x :: xs)

/-- What is said when the operations of a format are looked up. -/
def Format.remark (f : Format) : List Record :=
  [⟨.trace, .dispatch, "dispatching to " ++ f.text⟩]

structure Span where
  front : Cursor
  back : Cursor
deriving DecidableEq

namespace Span

def whole (buffer : Buffer) (format : Format) : Span :=
  let n := buffer.bytes.length
  ⟨.start buffer format, ⟨buffer, n - n % format.size, format⟩⟩

def remark (length : Nat) (format : Format) : List Record :=
  let trailing := length % format.size
  if trailing = 0 then []
  else [⟨.debug, .span, "ignoring " ++ toString trailing ++ " trailing bytes after last " ++
    format.text ++ " sample"⟩]

def exact (buffer : Buffer) (format : Format) : Except TrailingBytes Span :=
  if buffer.bytes.length % format.size = 0 then .ok (whole buffer format)
  else .error ⟨buffer.bytes.length, format.size⟩

def between (front back : Cursor) : Except Fault Span :=
  if front.buffer.label ≠ back.buffer.label then .error .unrelatedEnds
  else if back.offset < front.offset then .error .endsOutOfOrder
  else if back.buffer.bytes.length < back.offset then .error .endPastBuffer
  else if (back.offset - front.offset) % front.format.size ≠ 0 then
    .error (.unevenEnds front.format)
  else .ok ⟨front, back⟩

theorem between_eq_ok_iff {front back : Cursor} {s : Span} :
    between front back = .ok s ↔ s = ⟨front, back⟩ ∧ front.buffer.label = back.buffer.label ∧
      front.offset ≤ back.offset ∧ back.offset ≤ back.buffer.bytes.length ∧
      front.format.size ∣ back.offset - front.offset := by
  unfold between
  split
  case isTrue hl => exact ⟨nofun, fun h => absurd h.2.1 hl⟩
  case isFalse hl =>
    split
    case isTrue ho => exact ⟨nofun, fun h => absurd ho (Nat.not_lt_of_le h.2.2.1)⟩
    case isFalse ho =>
      split
      case isTrue hi => exact ⟨nofun, fun h => absurd hi (Nat.not_lt_of_le h.2.2.2.1)⟩
      case isFalse hi =>
        split
        case isTrue hm => exact ⟨nofun, fun h => absurd (Nat.mod_eq_zero_of_dvd h.2.2.2.2) hm⟩
        case isFalse hm =>
          constructor
          · rintro ⟨⟩
            exact ⟨rfl, Decidable.not_not.mp hl, Nat.le_of_not_lt ho, Nat.le_of_not_lt hi,
              Nat.dvd_of_mod_eq_zero (Decidable.not_not.mp hm)⟩
          · rintro ⟨rfl, -⟩
            rfl

def format (s : Span) : Format := s.front.format

def remaining (s : Span) : Except Fault Nat :=
  match Size.sub s.back.offset s.front.offset with
  | .error e => .error e
  | .ok n => .ok (n / s.format.size)

def sizeHint (s : Span) : Except Fault (Nat × Option Nat) :=
  match s.remaining with
  | .error e => .error e
  | .ok n => .ok (n, some n)

def next (t : SampleType) (s : Span) : Except Fault (Option (Sample t)) × Span :=
  match s.remaining with
  | .error e => (.error e, s)
  | .ok 0 => (.ok none, s)
  | .ok (_ + 1) =>
    match s.front.get t with
    | .error e => (.error e, s)
    | .ok x =>
      match s.front.advance with
      | (.error e, front) => (.error e, { s with front })
      | (.ok (), front) => (.ok (some x), { s with front })

def nextBack (t : SampleType) (s : Span) : Except Fault (Option (Sample t)) × Span :=
  match s.remaining with
  | .error e => (.error e, s)
  | .ok 0 => (.ok none, s)
  | .ok (_ + 1) =>
    match s.back.retreat with
    | (.error e, back) => (.error e, { s with back })
    | (.ok (), back) =>
      match back.get t with
      | .error e => (.error e, { s with back })
      | .ok x => (.ok (some x), { s with back })

def nth (t : SampleType) : (n : Nat) → Span → Except Fault (Option (Sample t)) × Span
  | 0, s => s.next t
  | n + 1, s =>
    match s.next t with
    | (.ok (some _), s) => nth t n s
    | (answer, s) => (answer, s)

def nthBack (t : SampleType) : (n : Nat) → Span → Except Fault (Option (Sample t)) × Span
  | 0, s => s.nextBack t
  | n + 1, s =>
    match s.nextBack t with
    | (.ok (some _), s) => nthBack t n s
    | (answer, s) => (answer, s)

def toList (s : Span) (t : SampleType) : Except Fault (List (Sample t)) :=
  drain (next t) (s.back.offset + 1) s

def toListBack (s : Span) (t : SampleType) : Except Fault (List (Sample t)) :=
  drain (nextBack t) (s.back.offset + 1) s

def last (s : Span) (t : SampleType) : Except Fault (Option (Sample t)) :=
  match s.toList t with
  | .error e => .error e
  | .ok xs => .ok xs.getLast?

def bind (s : Span) (expected : Format) : Except FormatMismatch Span :=
  match s.front.bind expected with
  | .error e => .error e
  | .ok front =>
    match s.back.bind expected with
    | .error e => .error e
    | .ok back => .ok ⟨front, back⟩

def recordText (s : Span) : String :=
  "Samples \x7b begin: " ++ s.front.recordText ++ ", end: " ++ s.back.recordText ++ " \x7d"

end Span
end RawPcm
