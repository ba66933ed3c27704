import RawPcm.Log
import RawPcm.Text.Blank

/-! Which records are shown: of the directives that apply to a record the one with the longest name
decides. -/
namespace RawPcm

/-- Shows the records of the parts whose names begin with `path`, up to a level. -/
structure Directive where
  path : Option String
  /-- Nothing is shown without one. -/
  level : Option Level
deriving DecidableEq

namespace Directive

/-- Reads a level in upper or lower case. The word for none of them is read as such. -/
def level? (text : List Char) : Option (Option Level) :=
  let name := String.ofList (text.map Char.toUpper)
  if name = "OFF" then some none else (Level.all.find? fun l => l.name = name).map some

def ofText? (text : String) : Option Directive :=
  match text.splitOn "=" with
  | [word] =>
    match level? word.toList with
    | some level => some ⟨none, level⟩
    | none => some ⟨some word, some .trace⟩
  | [path, level] =>
    match Text.trim level.toList with
    | [] => some ⟨some path, some .trace⟩
    | level => (level? level).map fun level => ⟨some path, level⟩
  | _ => none

def length (d : Directive) : Nat := (d.path.map String.utf8ByteSize).getD 0

def applies (d : Directive) (origin : Origin) : Bool :=
  match d.path with
  | none => true
  | some path => path.toList.isPrefixOf origin.path.toList

def admits (d : Directive) (level : Level) : Bool :=
  match d.level with
  | none => false
  | some least => decide (least.severity ≤ level.severity)

end Directive

structure LogFilter where
  directives : List Directive
  part : List Char
deriving DecidableEq

namespace LogFilter

def default : LogFilter := ⟨[⟨none, some .debug⟩], []⟩

/-- Adds a directive in the place of an earlier one for the same parts, if there is one. -/
def add (directives : List Directive) (d : Directive) : List Directive :=
  if directives.any fun e => e.path = d.path then
    directives.map fun e => if e.path = d.path then d else e
  else directives ++ [d]

def directivesOf (text : String) : List Directive :=
  let words := (text.splitOn ",").map fun word => String.ofList (Text.trim word.toList)
  (words.filter (· ≠ "")).filterMap Directive.ofText?

def complete (directives : List Directive) : List Directive :=
  if directives.any fun d => d.path = none then directives else directives ++ default.directives

def ofText (text : String) : LogFilter :=
  match text.splitOn "/" with
  | [directives] => ⟨complete ((directivesOf directives).foldl add []), []⟩
  | [directives, part] => ⟨complete ((directivesOf directives).foldl add []), part.toList⟩
  | _ => default

def directiveFor (f : LogFilter) (origin : Origin) : Option Directive :=
  (f.directives.mergeSort fun d e => d.length ≤ e.length).reverse.find? (·.applies origin)

def occursIn (part : List Char) : List Char → Bool
  | [] => part.isEmpty
  | c :: cs => part.isPrefixOf (c :: cs) || occursIn part cs

def admits (f : LogFilter) (r : Record) : Bool :=
  match f.directiveFor r.origin with
  | none => false
  | some d => d.admits r.level && occursIn f.part r.message.toList

end LogFilter
end RawPcm
