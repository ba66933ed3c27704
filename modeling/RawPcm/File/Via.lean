import RawPcm.Sample.Basic

/-! The type of value that samples pass through on their way from one format to another. -/
namespace RawPcm

inductive Via where
  | f64
  | i64
deriving DecidableEq

namespace Via

def sampleType : Via → SampleType
  | f64 => .f64
  | i64 => .i64

def valueSize (v : Via) : Nat := v.sampleType.bits / 8

def text : Via → String
  | f64 => "f64"
  | i64 => "i64"

def name : Via → String
  | f64 => "F64"
  | i64 => "I64"

def ofName? (text : String) : Option Via :=
  if text = "f64" then some f64 else if text = "i64" then some i64 else none

/-- Reads the name, also in upper case. No other letter has one of these as its lower case. -/
def ofText? (text : String) : Option Via := ofName? (text.map Char.toLower)

def default (source target : Format) : Via :=
  if source.kind.isInteger && target.kind.isInteger then i64 else f64

theorem ofText?_text (v : Via) : ofText? v.text = some v := by cases v <;> decide +kernel

end Via
end RawPcm
