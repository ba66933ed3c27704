import RawPcm.Fault
import RawPcm.Format.Error

/-! What can be wrong with samples that are otherwise used as intended. -/
namespace RawPcm

structure FormatMismatch where
  found : Format
  expected : Format
deriving DecidableEq

def FormatMismatch.message (e : FormatMismatch) : String :=
  "runtime format mismatch: operand is " ++ e.found.text ++ ", expected " ++ e.expected.text

def Format.bind (found expected : Format) : Except FormatMismatch Unit :=
  if found = expected then .ok () else .error ⟨found, expected⟩

@[simp] theorem Format.bind_self (f : Format) : f.bind f = .ok () := if_pos rfl

theorem Format.bind_of_ne {f g : Format} (h : f ≠ g) : f.bind g = .error ⟨f, g⟩ := if_neg h

structure TrailingBytes where
  length : Nat
  size : Nat
deriving DecidableEq

namespace TrailingBytes

def trailing (e : TrailingBytes) : Except Fault Nat := Size.mod e.length e.size

def message (e : TrailingBytes) : String :=
  "buffer of " ++ toString e.length ++ " bytes is not a whole number of " ++ toString e.size ++
    " byte samples"

end TrailingBytes

inductive SampleError where
  | format (cause : FormatError)
  | mismatch (cause : FormatMismatch)
  | trailing (cause : TrailingBytes)
deriving DecidableEq

def SampleError.message : SampleError → String
  | format cause => "invalid format: " ++ cause.message
  | mismatch cause => "dispatch failed: " ++ cause.message
  | trailing cause => cause.message

end RawPcm
