import RawPcm.Sample.Basic
import RawPcm.Fault

/-! Landmarks of each sample type, and the equally spaced values that a number of bits resolves. -/
namespace RawPcm
namespace SampleType

/-- Bits of an integer, significant digits of a floating point number. -/
def digits : SampleType → Nat
  | integer _ n => n.bits
  | floating p => p.digits

def least : (t : SampleType) → Sample t
  | integer s n => BitVec.ofInt n.bits (s.least n.bits)
  | floating p => p.ofInt (-1)

def resolves (t : SampleType) (bits : Nat) : Bool :=
  match t with
  | integer _ n => decide (1 ≤ bits ∧ bits ≤ n.bits)
  | floating _ => decide (bits < 64)

def spacing (t : SampleType) (bits : Nat) : Sample t :=
  match t with
  | integer _ n => BitVec.ofNat n.bits (2 ^ (n.bits - bits))
  | floating p => p.div (p.ofInt 2) (p.ofInt (2 ^ bits))

def last (t : SampleType) (bits : Nat) : Sample t :=
  match t with
  | integer s n => BitVec.ofInt n.bits (s.greatest n.bits) - spacing (integer s n) bits + 1
  | floating p => p.sub (p.ofInt 1) (spacing (floating p) bits)

def scale (t : SampleType) : Sample t := t.spacing 1

def zero : (t : SampleType) → Sample t
  | integer s n => least (integer s n) + scale (integer s n)
  | floating p => p.ofInt 0

def point (t : SampleType) (bits k : Nat) : Sample t :=
  match t with
  | integer s n => spacing (integer s n) bits * BitVec.ofNat n.bits k + least (integer s n)
  | floating p => p.add (p.mul (spacing (floating p) bits) (p.ofInt k)) (p.ofInt (-1))

def resolved {α : Type} (t : SampleType) (landmark : Nat → α) (bits : Nat) : Except Fault α :=
  if t.resolves bits then .ok (landmark bits) else .error .arithmetic

end SampleType

/-- The values left of a row of equally spaced ones, to be taken from either end. -/
structure Grid (t : SampleType) where
  bits : Nat
  first : Nat
  left : Nat

namespace Grid
variable {t : SampleType}

/-- All values at a resolution from one bit up to the digits of the type. Their number has to fit
into 64 bits. -/
def all (t : SampleType) (bits : Nat) : Except Fault (Grid t) :=
  if bits < 1 ∨ t.digits < bits then .error (.resolution bits)
  else if 64 ≤ bits then .error .arithmetic
  else .ok ⟨bits, 0, 2 ^ bits⟩

def toList (g : Grid t) : List (Sample t) :=
  (List.range g.left).map fun i => t.point g.bits (g.first + i)

def nth (g : Grid t) (n : Nat) : Option (Sample t) × Grid t :=
  if n < g.left then
    (some (t.point g.bits (g.first + n)), ⟨g.bits, g.first + n + 1, g.left - (n + 1)⟩)
  else (none, ⟨g.bits, g.first + g.left, 0⟩)

def next (g : Grid t) : Option (Sample t) × Grid t := g.nth 0

def nthBack (g : Grid t) (n : Nat) : Option (Sample t) × Grid t :=
  if n < g.left then
    (some (t.point g.bits (g.first + (g.left - (n + 1)))), ⟨g.bits, g.first, g.left - (n + 1)⟩)
  else (none, ⟨g.bits, g.first, 0⟩)

def nextBack (g : Grid t) : Option (Sample t) × Grid t := g.nthBack 0

end Grid
end RawPcm
