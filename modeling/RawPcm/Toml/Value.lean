/-! TOML values and how lines build them up. A table is opened only once. -/
namespace RawPcm.Toml

inductive Opening where
  /-- Passed through by the header of another table. -/
  | passed
  /-- Passed through by a dotted key. -/
  | dotted
  | header
  | inline
deriving DecidableEq

inductive Value where
  | string (text : String)
  | integer (n : Int)
  | float
  | boolean (b : Bool)
  | datetime
  | array (xs : List Value)
  | table (opening : Opening) (entries : List (String × Value))
  /-- Tables under one header in double brackets. -/
  | tables (rows : List (List (String × Value)))

abbrev Entries := List (String × Value)

namespace Entries

def find? (es : Entries) (key : String) : Option Value :=
  (List.find? (fun e => e.1 = key) es).map (·.2)

def put (es : Entries) (key : String) (v : Value) : Entries :=
  if es.any (fun e => e.1 = key) then es.map fun e => if e.1 = key then (key, v) else e
  else es ++ [(key, v)]

def remove (es : Entries) (key : String) : Entries := es.filter fun e => e.1 ≠ key

/-- Changes the table at the end of a path, with the tables on the way made as they are needed. A
table on the way has to admit being passed through. -/
def update (make : Opening) (admits : Opening → Bool)
    (change : Opening → Entries → Option (Opening × Entries)) :
    (path : List String) → Opening → Entries → Option (Opening × Entries)
  | [], o, es => change o es
  | key :: path, o, es =>
    match find? es key with
    | none => do
      let (p, fs) ← update make admits change path make []
      return (o, es.put key (.table p fs))
    | some (.table p fs) =>
      if admits p then do
        let (q, gs) ← update make admits change path p fs
        return (o, es.put key (.table q gs))
      else none
    | some (.tables rows) =>
      match rows.getLast? with
      | none => none
      | some row => do
        let (_, gs) ← update make admits change path .header row
        return (o, es.put key (.tables (rows.dropLast ++ [gs])))
    | some _ => none

/-- Adds a key, which must be new, to the table at the end of the dotted path before it, whatever
tables there are on the way. -/
def extend (path : List String) (key : String) (v : Value) (es : Entries) : Option Entries := do
  let (_, es) ← update .dotted (fun _ => true) (fun o fs =>
    if (find? fs key).isSome then none else some (o, fs.put key v)) path .header es
  return es

/-- Adds a key, which must be new, to the table at the end of the dotted path before it. Through a
dotted path only tables made by dotted keys are filled. -/
def insert (path : List String) (key : String) (v : Value) (es : Entries) : Option Entries := do
  let (_, es) ← update .dotted (fun o => o == .passed || o == .dotted) (fun o fs =>
    if (o == .dotted) == path.isEmpty then none
    else if (find? fs key).isSome then none
    else some (o, fs.put key v)) path .header es
  return es

end Entries

/-- A document being read: the tables that are finished, and the one being filled with its path. -/
structure Draft where
  root : Entries
  path : List String
  repeated : Bool
  entries : Entries

namespace Draft

def empty : Draft := ⟨[], [], false, []⟩

def atParent (root : Entries) (path : List String) (change : Entries → Option Entries) :
    Option Entries := do
  let (_, es) ← Entries.update .passed (fun o => o != .inline)
    (fun o fs => do return (o, ← change fs)) path.dropLast .header root
  return es

def close (d : Draft) : Option Entries :=
  match d.path.getLast? with
  | none => some d.entries
  | some key =>
    atParent d.root d.path fun es =>
      match d.repeated, es.find? key with
      | true, none => some (es.put key (.tables [d.entries]))
      | true, some (.tables rows) => some (es.put key (.tables (rows ++ [d.entries])))
      | false, none => some (es.put key (.table .header d.entries))
      | _, _ => none

/-- Starts on the table of a header. What was put into it in passing stays in it. -/
def header (d : Draft) (path : List String) : Option Draft := do
  let root ← d.close
  let key ← path.getLast?
  let (_, parent) ← Entries.update .passed (fun o => o != .inline) (fun o fs => some (o, fs))
    path.dropLast .header root
  let held ← parentOf path.dropLast parent
  match held.find? key with
  | none => return ⟨root, path, false, []⟩
  | some (.table .passed fs) =>
    let root ← atParent root path fun es => some (es.remove key)
    return ⟨root, path, false, fs⟩
  | some _ => none
where
  parentOf : List String → Entries → Option Entries
    | [], es => some es
    | key :: path, es =>
      match es.find? key with
      | some (.table _ fs) => parentOf path fs
      | some (.tables rows) =>
        match rows.getLast? with
        | some row => parentOf path row
        | none => none
      | _ => none

def repeatedHeader (d : Draft) (path : List String) : Option Draft := do
  let root ← d.close
  let key ← path.getLast?
  let root ← atParent root path fun es =>
    match es.find? key with
    | none => some (es.put key (.tables []))
    | some (.tables _) => some es
    | some _ => none
  return ⟨root, path, true, []⟩

def entry (d : Draft) (path : List String) (v : Value) : Option Draft := do
  let key ← path.getLast?
  let entries ← d.entries.insert path.dropLast key v
  return { d with entries }

end Draft
end RawPcm.Toml
