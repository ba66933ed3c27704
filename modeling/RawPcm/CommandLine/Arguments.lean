/-! The arguments of a command: options with a value, switches and operands, in any order. -/
namespace RawPcm.CommandLine

inductive Misuse where
  | unknown (argument : String)
  | withoutValue (option : String)
  | repeated (option : String)
  | missing (argument : String)
  | invalid (argument value : String)
deriving DecidableEq

def Misuse.message : Misuse → String
  | unknown argument => "found argument '" ++ argument ++ "' which was not expected"
  | withoutValue option => "the argument '--" ++ option ++ "' requires a value"
  | repeated option => "the argument '--" ++ option ++ "' was provided more than once"
  | missing argument => "the required argument '" ++ argument ++ "' was not provided"
  | invalid argument value => "invalid value '" ++ value ++ "' for '" ++ argument ++ "'"

inductive Stop where
  | help
  | version
  | misuse (cause : Misuse)
deriving DecidableEq

structure Grammar where
  valued : List String
  switches : List String
  operands : Nat

structure Arguments where
  values : List (String × Option String)
  switches : List String
  operands : List String
deriving DecidableEq

namespace Arguments

def empty : Arguments := ⟨[], [], []⟩

def addValue (a : Arguments) (option : String) (value : Option String) : Arguments :=
  { a with values := a.values ++ [(option, value)] }

def settle (a : Arguments) : Option String → Arguments
  | none => a
  | some option => a.addValue option none

def addOperand (g : Grammar) (a : Arguments) (x : String) : Except Stop Arguments :=
  if a.operands.length < g.operands then .ok { a with operands := a.operands ++ [x] }
  else .error (.misuse (.unknown x))

def splitLong (x : String) : String × Option String :=
  let cs := x.toList.dropWhile (· == '-')
  let name := String.ofList (cs.takeWhile (· != '='))
  match cs.dropWhile (· != '=') with
  | [] => (name, none)
  | _ :: value => (name, some (String.ofList (value.dropWhile (· == '='))))

def short (x : String) : Stop :=
  match x.toList.dropWhile (· == '-') with
  | 'h' :: _ => .help
  | 'V' :: _ => .version
  | _ => .misuse (.unknown x)

/-- Reads arguments one by one. The option in `pending` takes the next one unless that is an option
too; once `verbatim`, all that follows are operands. -/
def scan (g : Grammar) : (pending : Option String) → (verbatim : Bool) → Arguments → List String →
    Except Stop Arguments
  | pending, _, a, [] => .ok (a.settle pending)
  | pending, true, a, x :: xs =>
    match addOperand g a x with
    | .error e => .error e
    | .ok a => scan g pending true a xs
  | pending, false, a, x :: xs =>
    if x = "--" then scan g none true (a.settle pending) xs
    else if x.startsWith "--" then
      match splitLong x with
      | (name, value) =>
        if name ∈ g.valued then
          match value with
          | some v => scan g none false ((a.settle pending).addValue name (some v)) xs
          | none => scan g (some name) false (a.settle pending) xs
        else if name ∈ g.switches then
          scan g none false { a.settle pending with switches := a.switches ++ [name] } xs
        else if name = "help" then .error .help
        else if name = "version" then .error .version
        else .error (.misuse (.unknown x))
    else if x.startsWith "-" && x != "-" then .error (short x)
    else match pending with
      | some option => scan g none false (a.addValue option (some x)) xs
      | none =>
        match addOperand g a x with
        | .error e => .error e
        | .ok a => scan g none false a xs

def parse (g : Grammar) (args : List String) : Except Stop Arguments :=
  scan g none false empty args

def count (a : Arguments) (option : String) : Nat :=
  (a.values.filter fun v => v.1 = option).length

def given (a : Arguments) (option : String) : List String :=
  a.values.filterMap fun v => if v.1 = option then v.2 else none

/-- The values of an option: those given, then the one that it falls back on. If there is none of
them it has its default. -/
def valuesOf (a : Arguments) (option : String) (fallback default : Option String) : List String :=
  match a.given option ++ fallback.toList with
  | [] => default.toList
  | values => values

/-- Reads an option that may be given once. All values have to make sense, and the first counts. -/
def read? {α : Type} (a : Arguments) (option : String) (fallback default : Option String)
    (read : String → Option α) : Except Misuse (Option α) :=
  if 1 < a.count option then .error (.repeated option)
  else match a.valuesOf option fallback default with
    | [] => if a.count option = 0 then .ok none else .error (.withoutValue option)
    | value :: values =>
      match (value :: values).find? fun v => (read v).isNone with
      | some v => .error (.invalid option v)
      | none => .ok (read value)

def switch? (a : Arguments) (name : String) : Except Misuse Bool :=
  match (a.switches.filter (· = name)).length with
  | 0 => .ok false
  | 1 => .ok true
  | _ => .error (.repeated name)

def operand? (a : Arguments) (index : Nat) (name : String) : Except Misuse String :=
  match a.operands[index]? with
  | some x => .ok x
  | none => .error (.missing name)

end Arguments
end RawPcm.CommandLine
