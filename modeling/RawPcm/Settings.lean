import RawPcm.Fault
import RawPcm.File.Via
import RawPcm.Log
import RawPcm.Toml.Document

/-! Settings of a conversion from the environment and from a configuration, which is put into the
environment. -/
namespace RawPcm

inductive Setting where
  | source
  | target
  | via
  | chunkSamples
deriving DecidableEq

namespace Setting

def all : List Setting := [source, target, via, chunkSamples]

def key : Setting → String
  | source => "from"
  | target => "to"
  | via => "via"
  | chunkSamples => "chunk_samples"

def option : Setting → String
  | source => "from"
  | target => "to"
  | via => "via"
  | chunkSamples => "chunk-samples"

def variableName : Setting → String
  | source => "PCMCONV_FROM"
  | target => "PCMCONV_TO"
  | via => "PCMCONV_VIA"
  | chunkSamples => "PCMCONV_CHUNK_SAMPLES"

end Setting

structure Environment where
  bindings : List (String × String)
deriving DecidableEq

namespace Environment

def get? (env : Environment) (name : String) : Option String :=
  (env.bindings.find? fun v => v.1 = name).map (·.2)

def set (env : Environment) (name value : String) : Environment :=
  ⟨(name, value) :: env.bindings.filter fun v => v.1 ≠ name⟩

theorem get?_set_self (env : Environment) (name value : String) :
    (env.set name value).get? name = some value := by
  simp [set, get?]

theorem get?_set_of_ne (env : Environment) {name other : String} (value : String)
    (h : other ≠ name) : (env.set name value).get? other = env.get? other := by
  have hf : (env.bindings.filter fun v => v.1 ≠ name).find? (fun v => v.1 = other) =
      env.bindings.find? fun v => v.1 = other := by
    induction env.bindings with
    | nil => rfl
    | cons v vs ih =>
      by_cases hn : v.1 = name
      · have : v.1 ≠ other := fun he => h (he ▸ hn)
        simpa [hn, this, List.filter_cons, List.find?_cons, Ne.symm h] using ih
      · by_cases ho : v.1 = other
        · simp [ho, h]
        · simpa [hn, ho, List.filter_cons, List.find?_cons] using ih
  simp only [set, get?, List.find?_cons]
  have : decide (name = other) = false := by simpa using Ne.symm h
  rw [this]
  simpa using congrArg (Option.map (·.2)) hf

end Environment

structure Config where
  source : Option String
  target : Option String
  via : Option Via
  chunkSamples : Option Nat
deriving DecidableEq

namespace Config
open Toml (Value Entries)

def empty : Config := ⟨none, none, none, none⟩

def ofText? : Value → Option String
  | .string s => some s
  | _ => none

/-- A name, or the only key of a table with nothing in it. -/
def ofVia? : Value → Option Via
  | .string s => Via.ofName? s
  | .table _ [(key, .table _ [])] => Via.ofName? key
  | _ => none

def ofCount? : Value → Option Nat
  | .integer n => if 0 ≤ n then some n.toNat else none
  | _ => none

def maybe {α : Type} (read : Value → Option α) : Option Value → Option (Option α)
  | none => some none
  | some v => (read v).map some

def ofFields? (source target via chunkSamples : Option Value) : Option Config := do
  return ⟨← maybe ofText? source, ← maybe ofText? target, ← maybe ofVia? via,
    ← maybe ofCount? chunkSamples⟩

/-- A table with a key for each setting, or a list with all of them in order. A date or time counts
as a table without any. -/
def ofValue? : Value → Option Config
  | .table _ es =>
    let field := fun s : Setting => Entries.find? es s.key
    ofFields? (field .source) (field .target) (field .via) (field .chunkSamples)
  | .datetime => some empty
  | .array (a :: b :: c :: d :: _) => ofFields? (some a) (some b) (some c) (some d)
  | _ => none

def parse? (text : String) : Option Config := do
  let es ← Toml.document? text
  match es.find? "convert" with
  | none => return empty
  | some v => ofValue? v

def text? (c : Config) : Setting → Option String
  | .source => c.source
  | .target => c.target
  | .via => c.via.map Via.text
  | .chunkSamples => c.chunkSamples.map toString

/-- The environment after variables have been set, what was said meanwhile, and the fault that ended
it if one did. -/
structure Exported where
  env : Environment
  log : List Record
  fault : Option Fault

/-- Sets the variable of every one of some settings that the configuration has. A value with a null
character is more than a variable can hold. -/
def exportEach (c : Config) : List Setting → Environment → Exported
  | [], env => ⟨env, [], none⟩
  | s :: rest, env =>
    match c.text? s with
    | none => c.exportEach rest env
    | some value =>
      let r : Record := ⟨.debug, .settings, "config sets " ++ s.variableName ++ "=" ++ value⟩
      if '\x00' ∈ value.toList then ⟨env, [r], some (.unsettable s.variableName value)⟩
      else
        let e := c.exportEach rest (env.set s.variableName value)
        { e with log := r :: e.log }

def exportTo (c : Config) (env : Environment) : Exported := c.exportEach Setting.all env

end Config
end RawPcm
