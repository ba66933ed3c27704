import RawPcm.Toml.Scalar

/-! Reading a TOML document: values, which may hold others, and the lines that they stand on. -/
namespace RawPcm.Toml

/-- Items with commas between them, up to a closing character. The comma after the last one is
allowed if `trailing` is set. -/
def items {α : Type} (item : List Char → Option (α × List Char)) (skip : List Char → List Char)
    (close : Char) (trailing : Bool) : (fuel : Nat) → List Char → Option (List α × List Char)
  | 0, _ => none
  | fuel + 1, cs => do
    let (x, cs) ← item (skip cs)
    match skip cs with
    | ',' :: cs =>
      match skip cs with
      | [] => none
      | c :: rest =>
        if trailing && c == close then return ([x], rest)
        else do
          let (xs, cs) ← items item skip close trailing fuel (c :: rest)
          return (x :: xs, cs)
    | c :: cs => if c == close then return ([x], cs) else none
    | [] => none

def pair {α : Type} (value : List Char → Option (α × List Char)) (cs : List Char) :
    Option ((List String × α) × List Char) := do
  let (k, cs) ← key? cs
  match cs with
  | '=' :: cs => do
    let (v, cs) ← value (skipBlanks cs)
    return ((k, v), cs)
  | _ => none

/-- The table with given keys and values, none of which may come twice. A dotted key may go on into
the value of an earlier one. -/
def inlineTable (pairs : List (List String × Value)) : Option Value := do
  let es ← pairs.foldlM (fun es (path, v) => do
    Entries.extend path.dropLast (← path.getLast?) v es) ([] : Entries)
  return .table .inline es

def value? : (depth : Nat) → List Char → Option (Value × List Char)
  | 0, _ => none
  | depth + 1, cs =>
    match cs with
    | '"' :: _ | '\'' :: _ => (string? cs).map fun (s, rest) => (.string (String.ofList s), rest)
    | '[' :: cs =>
      let skip := fun cs : List Char => skipLines (cs.length + 1) cs
      match skip cs with
      | ']' :: rest => if depth = 0 then none else some (.array [], rest)
      | cs => do
        let (xs, rest) ← items (value? depth) skip ']' true (cs.length + 1) cs
        return (.array xs, rest)
    | '{' :: cs =>
      match skipBlanks cs with
      | '}' :: rest => if depth = 0 then none else some (.table .inline [], rest)
      | cs => do
        let (ps, rest) ← items (pair (value? depth)) skipBlanks '}' false (cs.length + 1) cs
        return (← inlineTable ps, rest)
    | cs => scalar? cs

/-- One line or, where a value goes over several, the lines of one value. -/
def line? (d : Draft) (cs : List Char) : Option (Draft × List Char) :=
  match cs with
  | [] => none
  | '#' :: _ | '\n' :: _ | '\r' :: _ => (lineTail? cs).map (d, ·)
  | '[' :: '[' :: cs => do
    let (k, cs) ← key? cs
    match cs with
    | ']' :: ']' :: cs => return (← d.repeatedHeader k, ← lineTail? cs)
    | _ => none
  | '[' :: cs => do
    let (k, cs) ← key? cs
    match cs with
    | ']' :: cs => return (← d.header k, ← lineTail? cs)
    | _ => none
  | cs => do
    let ((k, v), cs) ← pair (value? depthLimit) cs
    return (← d.entry k v, ← lineTail? cs)

def lines? : (fuel : Nat) → Draft → List Char → Option Draft
  | 0, _, _ => none
  | fuel + 1, d, cs =>
    match skipBlanks cs with
    | [] => some d
    | cs => do
      let (d, cs) ← line? d cs
      lines? fuel d cs

/-- The keys and values of a document. A byte order mark in front is passed over. -/
def document? (text : String) : Option Entries := do
  let cs := match text.toList with
    | '\ufeff' :: cs => cs
    | cs => cs
  (← lines? (cs.length + 1) .empty cs).close

end RawPcm.Toml
