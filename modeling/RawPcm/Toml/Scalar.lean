import RawPcm.Floating.Nearest
import RawPcm.Toml.Text
import RawPcm.Toml.Value

/-! TOML numbers, dates, times and truth values: all the values that are a single word. -/
namespace RawPcm.Toml

def isDigit (c : Char) : Bool := '0' ≤ c && c ≤ '9'

/-- Digits of a base, with single underscores between them. Gives the digits alone. -/
def underscored (digit : Char → Bool) : List Char → Option (List Char)
  | [] => none
  | [c] => if digit c then some [c] else none
  | c :: '_' :: cs => if digit c then (underscored digit cs).map (c :: ·) else none
  | c :: cs => if digit c then (underscored digit cs).map (c :: ·) else none

def ofBase (base : Nat) (ds : List Char) : Nat :=
  ds.foldl (fun n d => base * n + (hexValue? d).getD 0) 0

def sign : List Char → Bool × List Char
  | '-' :: cs => (true, cs)
  | '+' :: cs => (false, cs)
  | cs => (false, cs)

def plainDigits? (cs : List Char) : Option (List Char) := do
  let ds ← underscored isDigit cs
  match ds with
  | '0' :: _ :: _ => none
  | _ => return ds

def based? : List Char → Option Nat
  | '0' :: 'x' :: cs => (underscored (fun c => (hexValue? c).isSome) cs).map (ofBase 16)
  | '0' :: 'o' :: cs => (underscored (fun c => '0' ≤ c && c ≤ '7') cs).map (ofBase 8)
  | '0' :: 'b' :: cs => (underscored (fun c => '0' ≤ c && c ≤ '1') cs).map (ofBase 2)
  | _ => none

def decimal? (cs : List Char) : Option Int := do
  let (negative, ds) := sign cs
  let n := ofBase 10 (← plainDigits? ds)
  return if negative then -(n : Int) else n

def integer? (cs : List Char) : Option Int := do
  let n ← ((based? cs).map Int.ofNat).or (decimal? cs)
  if -2 ^ 63 ≤ n ∧ n < 2 ^ 63 then return n else none

def overflows (digits : Nat) (exponent : Int) : Bool :=
  let size := (toString digits).length + exponent
  if digits = 0 ∨ size < 300 then false
  else if 320 < size then true
  else
    let p := Precision.double
    let num := digits * 10 ^ exponent.toNat * 2 ^ p.places
    p.nearestMagnitude num (10 ^ (-exponent).toNat) == p.infinity

def isDigitOrBar (c : Char) : Bool := isDigit c || c == '_'

def fraction? : List Char → Option (List Char × List Char)
  | '.' :: cs => do
    let ds ← underscored isDigit (cs.takeWhile isDigitOrBar)
    return (ds, cs.dropWhile isDigitOrBar)
  | cs => some ([], cs)

def exponent? : List Char → Option Int
  | e :: cs =>
    if e == 'e' || e == 'E' then do
      let (negative, ds) := sign cs
      let n := ofBase 10 (← underscored isDigit ds)
      return if negative then -(n : Int) else n
    else none
  | [] => some 0

/-- A fraction, an exponent or both after the integer part. Numbers too great to be told from
infinity are refused unless they are negative. -/
def decimalFloat? (cs : List Char) : Option Value := do
  let (negative, cs) := sign cs
  let whole ← plainDigits? (cs.takeWhile isDigitOrBar)
  let (frac, cs) ← fraction? (cs.dropWhile isDigitOrBar)
  let exponent ← exponent? cs
  if frac.isEmpty && cs.isEmpty then none
  else if !negative && overflows (ofBase 10 (whole ++ frac)) (exponent - frac.length) then none
  else return .float

def float? (cs : List Char) : Option Value :=
  let name := (sign cs).2
  if name = ['i', 'n', 'f'] ∨ name = ['n', 'a', 'n'] then some .float else decimalFloat? cs

def field? (lo hi : Nat) (cs : List Char) : Option Nat :=
  if cs.all isDigit && lo ≤ ofBase 10 cs && ofBase 10 cs ≤ hi then some (ofBase 10 cs) else none

def date? : List Char → Option (List Char)
  | a :: b :: c :: d :: '-' :: e :: f :: '-' :: g :: h :: cs => do
    let _ ← field? 0 9999 [a, b, c, d]
    let _ ← field? 1 12 [e, f]
    let _ ← field? 1 31 [g, h]
    return cs
  | _ => none

def time? : List Char → Option (List Char)
  | a :: b :: ':' :: c :: d :: ':' :: e :: f :: cs => do
    let _ ← field? 0 23 [a, b]
    let _ ← field? 0 59 [c, d]
    let _ ← field? 0 60 [e, f]
    match cs with
    | '.' :: g :: cs => if isDigit g then return cs.dropWhile isDigit else none
    | cs => return cs
  | _ => none

/-- Whether a text is nothing or a distance from universal time. -/
def isOffset : List Char → Bool
  | [] => true
  | [c] => c == 'Z' || c == 'z'
  | [s, a, b, ':', c, d] =>
    (s == '+' || s == '-') && (field? 0 23 [a, b]).isSome && (field? 0 59 [c, d]).isSome
  | _ => false

def isOffsetTime (cs : List Char) : Bool :=
  match time? cs with
  | some rest => isOffset rest
  | none => false

def datetime? (cs : List Char) : Option Value :=
  match date? cs with
  | some [] => some .datetime
  | some (c :: cs) => if (c == 'T' || c == 't') && isOffsetTime cs then some .datetime else none
  | none => if time? cs = some [] then some .datetime else none

def isWord (c : Char) : Bool :=
  c.isAlphanum || c == '_' || c == '+' || c == '-' || c == '.' || c == ':'

def scalar? (cs : List Char) : Option (Value × List Char) :=
  let word := cs.takeWhile isWord
  let rest := cs.dropWhile isWord
  if word = ['t', 'r', 'u', 'e'] then some (.boolean true, rest)
  else if word = ['f', 'a', 'l', 's', 'e'] then some (.boolean false, rest)
  else match datetime? word with
    | some v =>
      match date? word, rest with
      | some [], ' ' :: more =>
        if isOffsetTime (more.takeWhile isWord) then some (v, more.dropWhile isWord)
        else some (v, rest)
      | _, _ => some (v, rest)
    | none =>
      match integer? word with
      | some n => some (.integer n, rest)
      | none => (float? word).map (·, rest)

end RawPcm.Toml
