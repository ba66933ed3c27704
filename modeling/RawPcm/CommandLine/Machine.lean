import RawPcm.CommandLine.Program

/-! A machine that is a value: a tree of files and what has been reported so far. -/
namespace RawPcm.CommandLine

inductive Node where
  | file (bytes : List UInt8)
  | directory
  /-- Holds nothing and forgets what is written to it. -/
  | void
deriving DecidableEq

/-- Files and directories by the names on the way to them from the root. -/
structure FileTree where
  here : List String
  nodes : List (List String × Node)

namespace FileTree

def node? (t : FileTree) (place : List String) : Option Node :=
  if place.isEmpty then some .directory
  else (t.nodes.find? fun n => n.1 = place).map (·.2)

def put (t : FileTree) (place : List String) (n : Node) : FileTree :=
  { t with nodes := (place, n) :: t.nodes.filter fun m => m.1 ≠ place }

def add (t : FileTree) (place : List String) (n : Node) : FileTree :=
  let way := (List.range place.length).map fun k => place.take k
  (way.foldl (fun t p => if (t.node? p).isSome then t else t.put p .directory) t).put place n

def nameLimit : Nat := 255

def pathLimit : Nat := 4096

def start (t : FileTree) (path : String) : Except FileError (List String × List String) :=
  if path.isEmpty then .error .notFound
  else if pathLimit ≤ path.utf8ByteSize then .error .nameTooLong
  else .ok (if path.startsWith "/" then [] else t.here, path.splitOn "/")

def walk (t : FileTree) : (place names : List String) → Except FileError (List String × Node)
  | place, [] =>
    match t.node? place with
    | some n => .ok (place, n)
    | none => .error .notFound
  | place, name :: names =>
    match t.node? place with
    | none => .error .notFound
    | some .directory =>
      if name = "" ∨ name = "." then t.walk place names
      else if name = ".." then t.walk place.dropLast names
      else if nameLimit < name.utf8ByteSize then .error .nameTooLong
      else t.walk (place ++ [name]) names
    | some _ => .error .notDirectory

def find (t : FileTree) (path : String) : Except FileError (List String × Node) :=
  match t.start path with
  | .error e => .error e
  | .ok (place, names) => t.walk place names

def read (t : FileTree) (path : String) : Except FileError (List UInt8) :=
  match t.find path with
  | .error e => .error e
  | .ok (_, .directory) => .error .isDirectory
  | .ok (_, .file bytes) => .ok bytes
  | .ok (_, .void) => .ok []

/-- The place for a file that may be new. A path with a slash at its end can only be a directory. -/
def placeFor (t : FileTree) (path : String) : Except FileError (List String) :=
  match t.start path with
  | .error e => .error e
  | .ok (place, names) =>
    let kept := (names.reverse.dropWhile (· = "")).reverse
    match t.walk place kept.dropLast, kept.getLast? with
    | .error e, _ => .error e
    | .ok (place, .directory), some name =>
      if kept ≠ names ∨ name = "." ∨ name = ".." then .error .isDirectory
      else if nameLimit < name.utf8ByteSize then .error .nameTooLong
      else match t.node? (place ++ [name]) with
        | some .directory => .error .isDirectory
        | _ => .ok (place ++ [name])
    | .ok (_, .directory), none => .error .isDirectory
    | .ok _, _ => .error .notDirectory

def write (t : FileTree) (path : String) (bytes : List UInt8) : Except FileError FileTree :=
  match t.placeFor path with
  | .error e => .error e
  | .ok place =>
    match t.node? place with
    | some .void => .ok t
    | _ => .ok (t.put place (.file bytes))

end FileTree

structure Machine where
  tree : FileTree
  log : List Record
  output : List String

def Machine.host : Host (StateM Machine) where
  order := .little
  memory := ordinaryMemory
  exists? path := return (((← get).tree.find path).toOption).isSome
  openFile path := return (((← get).tree.find path).map fun _ => ())
  readFile path := return ((← get).tree.read path)
  createFile path := do
    let s ← get
    match s.tree.write path [] with
    | .error e => return .error e
    | .ok tree =>
      set { s with tree }
      return .ok ()
  writeFile path bytes := modify fun s =>
    match s.tree.write path bytes with
    | .error _ => s
    | .ok tree => { s with tree }
  log r := modify fun s => { s with log := s.log ++ [r] }
  complain _ := return ()
  print line := modify fun s => { s with output := s.output ++ [line] }

def simulate (tree : FileTree) (env : Environment) (args : List String) : Exit × Machine :=
  (run Machine.host (Command.parser Machine.host.order) env args).run ⟨tree, [], []⟩

end RawPcm.CommandLine
