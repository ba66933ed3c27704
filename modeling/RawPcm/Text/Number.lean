import RawPcm.Text.Utf8

/-! Numbers in decimal digits. -/
namespace RawPcm

def digit? (c : Char) : Option Nat :=
  if '0' ≤ c ∧ c ≤ '9' then some (c.toNat - '0'.toNat) else none

theorem digit?_eq_some_iff {c : Char} {n : Nat} :
    digit? c = some n ↔ c.isDigit ∧ c.toNat - '0'.toNat = n := by
  have hd : ('0' ≤ c ∧ c ≤ '9') ↔ c.isDigit := by
    simp only [Char.isDigit, Bool.and_eq_true, decide_eq_true_eq]
    rfl
  simp only [digit?, Option.ite_none_right_eq_some, Option.some.injEq, hd]

def withoutPlus : List Char → List Char
  | '+' :: cs => cs
  | cs => cs

/-- A size in decimal digits, which a plus sign may precede. -/
def size? (text : String) : Option Nat :=
  match (withoutPlus text.toList).mapM digit? with
  | none | some [] => none
  | some (d :: ds) =>
    let n := (d :: ds).foldl (fun n d => 10 * n + d) 0
    if n < sizeLimit then some n else none

def Text.isDigitByte (b : UInt8) : Bool := 48 ≤ b && b ≤ 57

end RawPcm
