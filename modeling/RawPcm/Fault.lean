import RawPcm.Format.Text
import RawPcm.Text.Quoted

/-! What ends an operation at once, and sizes of 64 bits. -/
namespace RawPcm

inductive Fault where
  | outOfBounds
  /-- A text is split where no character begins. -/
  | insideCharacter
  /-- A result that 64 bits do not hold, or a quotient that does not exist. -/
  | arithmetic
  | beforeStart
  | unrelatedDistance
  | mixedComparison (left right : Format)
  | unrelatedEnds
  | endsOutOfOrder
  | endPastBuffer
  | unevenEnds (format : Format)
  | bufferFull (format : Format)
  | sliceFull
  | tooFewValues (available requested : Nat)
  | sourceExhausted
  | resolution (bits : Nat)
  | capacity
  | exhausted (bytes : Nat)
  | valuesExhausted
  | unsettable (name value : String)
deriving DecidableEq

def Fault.message? : Fault → Option String
  | outOfBounds | insideCharacter | arithmetic => none
  | beforeStart => some "cursor moved before start of buffer"
  | unrelatedDistance => some "distance between cursors over different buffers"
  | mixedComparison left right =>
    some ("comparing cursors over " ++ left.text ++ " and " ++ right.text)
  | unrelatedEnds => some "range ends are in different buffers"
  | endsOutOfOrder => some "range ends are out of order"
  | endPastBuffer => some "range end is past the buffer"
  | unevenEnds format =>
    some ("range ends are not a whole number of " ++ format.text ++ " samples apart")
  | bufferFull format => some ("write past end of " ++ format.text ++ " buffer")
  | sliceFull => some "push into full slice"
  | tooFewValues available requested =>
    some ("copy_n: source has " ++ toString available ++ " values, " ++ toString requested ++
      " requested")
  | sourceExhausted => some "copy_n: source exhausted"
  | resolution bits => some ("numspace: " ++ toString bits ++ " bits out of range")
  | capacity => some "capacity overflow"
  | exhausted bytes => some ("memory allocation of " ++ toString bytes ++ " bytes failed")
  | valuesExhausted => some "called `Result::unwrap()` on an `Err` value: ()"
  | unsettable name value =>
    some ("failed to set environment variable `" ++ Text.quoted name ++ "` to `" ++
      Text.quoted value ++ "`: file name contained an unexpected NUL byte")

/-- Whether a whole program is given up on the spot, with nothing left that could tidy up after it. -/
def Fault.isFatal : Fault → Bool
  | exhausted _ => true
  | _ => false

def sizeLimit : Nat := 2 ^ 64

def bufferLimit : Nat := 2 ^ 63

def ordinaryMemory : Nat := 2 ^ 35

namespace Size

def add (a b : Nat) : Except Fault Nat :=
  if a + b < sizeLimit then .ok (a + b) else .error .arithmetic

def sub (a b : Nat) : Except Fault Nat :=
  if b ≤ a then .ok (a - b) else .error .arithmetic

def mul (a b : Nat) : Except Fault Nat :=
  if a * b < sizeLimit then .ok (a * b) else .error .arithmetic

def mod (a b : Nat) : Except Fault Nat :=
  if b = 0 then .error .arithmetic else .ok (a % b)

/-- The size of a buffer of `a` pieces of `b` bytes, which has to be smaller than memory. Buffers that
are never filled take up nothing, so that each may come close to all of memory. -/
def buffer (memory a b : Nat) : Except Fault Nat :=
  match mul a b with
  | .error e => .error e
  | .ok n =>
    if bufferLimit ≤ n then .error .capacity
    else if memory ≤ n then .error (.exhausted n)
    else .ok n

theorem buffer_eq_ok_iff {memory a b n : Nat} :
    buffer memory a b = .ok n ↔ a * b = n ∧ n < bufferLimit ∧ n < memory := by
  unfold buffer mul
  have := show bufferLimit < sizeLimit by decide
  split <;> rename_i h <;> split at h <;> simp_all <;> grind

def signed (n : Int) : Except Fault Int :=
  if -2 ^ 63 ≤ n ∧ n < 2 ^ 63 then .ok n else .error .arithmetic

def asSigned (n : Nat) : Int := (n : Int).bmod sizeLimit

end Size
end RawPcm
