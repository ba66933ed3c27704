import RawPcm.Floating.Nearest

/-! Arithmetic on floating point numbers: the exact result of each operation, rounded once. -/
namespace RawPcm.Precision
open Datum

def ofInt (p : Precision) (n : Int) : BitVec p.bits :=
  p.nearest (decide (n < 0)) (n.natAbs * 2 ^ p.places) 1

def epsilon (p : Precision) : BitVec p.bits :=
  p.nearest false (2 ^ p.places) (2 ^ (p.digits - 1))

def neg (p : Precision) (x : BitVec p.bits) : BitVec p.bits :=
  x ^^^ BitVec.ofNat p.bits (2 ^ (p.bits - 1))

/-- A sum that is exactly zero is negative only if both terms are. -/
def add (p : Precision) (x y : BitVec p.bits) : BitVec p.bits :=
  match p.datum x, p.datum y with
  | .nan, _ | _, .nan => p.quietNaN
  | .infinite a, .infinite b => if a = b then x else p.quietNaN
  | .infinite _, .finite _ _ => x
  | .finite _ _, .infinite _ => y
  | .finite a m, .finite b n =>
    let s := signed a m + signed b n
    p.nearest (if s = 0 then a && b else decide (s < 0)) s.natAbs 1

def sub (p : Precision) (x y : BitVec p.bits) : BitVec p.bits :=
  p.add x (p.neg y)

def mul (p : Precision) (x y : BitVec p.bits) : BitVec p.bits :=
  match p.datum x, p.datum y with
  | .nan, _ | _, .nan => p.quietNaN
  | .infinite a, .infinite b => p.infinityOf (a != b)
  | .infinite a, .finite b n | .finite b n, .infinite a =>
    if n = 0 then p.quietNaN else p.infinityOf (a != b)
  | .finite a m, .finite b n => p.nearest (a != b) (m * n) (2 ^ p.places)

def div (p : Precision) (x y : BitVec p.bits) : BitVec p.bits :=
  match p.datum x, p.datum y with
  | .nan, _ | _, .nan | .infinite _, .infinite _ => p.quietNaN
  | .infinite a, .finite b _ => p.infinityOf (a != b)
  | .finite a _, .infinite b => p.pattern (a != b) 0
  | .finite a m, .finite b n =>
    if n = 0 then (if m = 0 then p.quietNaN else p.infinityOf (a != b))
    else p.nearest (a != b) (m * 2 ^ p.places) n

def lt (p : Precision) (x y : BitVec p.bits) : Bool :=
  (p.datum x).lt (p.datum y)

/-- The lesser of two numbers; a NaN gives way to the other. -/
def least (p : Precision) (x y : BitVec p.bits) : BitVec p.bits :=
  if (p.datum x).isNaN then y
  else if (p.datum y).isNaN then x
  else if p.lt y x then y else x

def greatest (p : Precision) (x y : BitVec p.bits) : BitVec p.bits :=
  if (p.datum x).isNaN then y
  else if (p.datum y).isNaN then x
  else if p.lt x y then y else x

/-- The integer part, held between two bounds; a NaN gives zero. -/
def truncate (p : Precision) (lo hi : Int) (x : BitVec p.bits) : Int :=
  match p.datum x with
  | .nan => 0
  | .infinite negative => if negative then lo else hi
  | .finite negative n => max lo (min hi (signed negative (n / 2 ^ p.places)))

/-- The nearest number of another precision. A NaN keeps its sign and the leading digits of its
payload. -/
def resize (p q : Precision) (x : BitVec p.bits) : BitVec q.bits :=
  match p.datum x with
  | .nan =>
    let payload := x.toNat % 2 ^ (p.digits - 1)
    q.nanWith x.msb (payload * 2 ^ (q.digits - 1) / 2 ^ (p.digits - 1))
  | .infinite negative => q.infinityOf negative
  | .finite negative n => q.nearest negative (n * 2 ^ q.places) (2 ^ p.places)

def cast : (p q : Precision) → BitVec p.bits → BitVec q.bits
  | .single, .single, x => x
  | .double, .double, x => x
  | .single, .double, x => single.resize .double x
  | .double, .single, x => double.resize .single x

end RawPcm.Precision
