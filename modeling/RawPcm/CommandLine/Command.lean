import RawPcm.CommandLine.Arguments
import RawPcm.File.Conversion
import RawPcm.Format.Parser
import RawPcm.Settings

/-! The commands of the program and a parser of its arguments. Any other may take its place. -/
namespace RawPcm.CommandLine

structure ConvertCommand where
  conversion : Conversion
  via : Option Via
  input : String
  output : String
deriving DecidableEq

structure InspectCommand where
  format : Format
  count : Nat
  input : String
deriving DecidableEq

inductive Command where
  | convert (options : ConvertCommand)
  | formats
  | inspect (options : InspectCommand)
deriving DecidableEq

/-- What an argument list says of a conversion by itself. -/
structure Given where
  text? : Setting → Option String
  /-- An option may be named without a text, which then has to come from elsewhere. -/
  bare : Setting → Bool
  strict : Bool
  input : String
  output : String

structure Parser where
  given? : List String → Option Given
  command : Environment → List String → Except Stop Command

def required {α : Type} (name : String) (value : Option α) : Except Misuse α :=
  match value with
  | some x => .ok x
  | none => .error (.missing name)

def format? (order : ByteOrder) (text : String) : Option Format :=
  match Format.parse order text with
  | .ok (.ok f) => some f
  | .ok (.error _) | .error _ => none

namespace ConvertCommand

def chosenVia (c : ConvertCommand) : Via :=
  c.via.getD (.default c.conversion.source c.conversion.target)

def grammar : Grammar := ⟨Setting.all.map Setting.option, ["strict"], 2⟩

def defaultChunk : String := "4096"

def default? : Setting → Option String
  | .chunkSamples => some defaultChunk
  | _ => none

def setting? {α : Type} (a : Arguments) (env : Environment) (s : Setting)
    (read : String → Option α) : Except Misuse (Option α) :=
  a.read? s.option (env.get? s.variableName) (default? s) read

def ofArguments (order : ByteOrder) (a : Arguments) (env : Environment) :
    Except Misuse ConvertCommand := do
  let source ← setting? a env .source (format? order)
  let target ← setting? a env .target (format? order)
  let via ← setting? a env .via Via.ofText?
  let chunk ← setting? a env .chunkSamples size?
  let strict ← a.switch? "strict"
  return ⟨⟨← required "from" source, ← required "to" target, ← required "chunk-samples" chunk,
    strict⟩, via, ← a.operand? 0 "input", ← a.operand? 1 "output"⟩

def account (a : Arguments) (strict : Bool) (input output : String) : Given where
  text? s := (a.given s.option).head?
  bare s := a.count s.option ≠ 0 && (a.given s.option).isEmpty
  strict := strict
  input := input
  output := output

def given? (a : Arguments) : Option Given :=
  if Setting.all.all fun s => a.count s.option ≤ 1 then
    match a.switch? "strict", a.operand? 0 "input", a.operand? 1 "output" with
    | .ok strict, .ok input, .ok output => some (account a strict input output)
    | _, _, _ => none
  else none

end ConvertCommand

namespace InspectCommand

def grammar : Grammar := ⟨["format", "count"], [], 1⟩

def defaultCount : String := "16"

def ofArguments (order : ByteOrder) (a : Arguments) : Except Misuse InspectCommand := do
  let format ← a.read? "format" none none (format? order)
  let count ← a.read? "count" none (some defaultCount) size?
  return ⟨← required "format" format, ← required "count" count, ← a.operand? 0 "input"⟩

end InspectCommand

namespace Command

def orMisuse {α : Type} : Except Misuse α → Except Stop α
  | .ok x => .ok x
  | .error e => .error (.misuse e)

def names : List String := ["convert", "formats", "inspect"]

def helpOn : List String → Stop
  | [] => .help
  | name :: rest =>
    if name ∉ "help" :: names then .misuse (.unknown name)
    else match rest with
      | [] => .help
      | other :: _ => .misuse (.unknown other)

def parse (order : ByteOrder) (env : Environment) (args : List String) : Except Stop Command :=
  match args with
  | "convert" :: args => do
    let a ← Arguments.parse ConvertCommand.grammar args
    return convert (← orMisuse (ConvertCommand.ofArguments order a env))
  | "inspect" :: args => do
    let a ← Arguments.parse InspectCommand.grammar args
    return inspect (← orMisuse (InspectCommand.ofArguments order a))
  | "formats" :: args => do
    let _ ← Arguments.parse ⟨[], [], 0⟩ args
    return formats
  | "help" :: args => .error (helpOn args)
  | [] => .error (.misuse (.missing "command"))
  | args => do
    let _ ← Arguments.parse ⟨[], [], 0⟩ (args.take 1)
    throw (.misuse (.missing "command"))

def given? : List String → Option Given
  | "convert" :: args =>
    match Arguments.parse ConvertCommand.grammar args with
    | .ok a => ConvertCommand.given? a
    | .error _ => none
  | _ => none

def parser (order : ByteOrder) : Parser := ⟨given?, parse order⟩

end Command
end RawPcm.CommandLine
