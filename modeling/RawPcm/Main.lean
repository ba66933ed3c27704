import RawPcm.CommandLine.Program

/-! The program on the machine that it runs on. -/
namespace RawPcm.CommandLine

def attempt {α : Type} (action : IO α) : IO (Except FileError α) := do
  try
    return .ok (← action)
  catch e =>
    match e with
    | .noFileOrDirectory .. => return .error .notFound
    | .inappropriateType _ 20 _ => return .error .notDirectory
    | .inappropriateType _ 21 _ => return .error .isDirectory
    | .invalidArgument _ 36 _ => return .error .nameTooLong
    | e => return .error (.other (toString e))

def host : Host IO where
  order := .little
  memory := ordinaryMemory
  exists? path := do
    return (← attempt (IO.FS.Handle.mk path .read)).toOption.isSome
  openFile path := attempt do
    let _ ← IO.FS.Handle.mk path .read
  readFile path := attempt do
    return (← IO.FS.readBinFile path).toList
  createFile path := attempt (IO.FS.writeBinFile path ByteArray.empty)
  writeFile path bytes := IO.FS.writeBinFile path bytes.toByteArray
  log r := IO.eprintln ("[" ++ r.level.name ++ "] " ++ r.message)
  complain := IO.eprintln
  print := IO.println

def environment : IO Environment := do
  let names := Setting.all.map Setting.variableName ++
    ["RUST_LOG", "HOME", "XDG_CONFIG_HOME", "XDG_CONFIG_DIRS"]
  let set ← names.filterMapM fun name => do
    return (← IO.getEnv name).map (name, ·)
  return ⟨set⟩

def abortCode : Nat := 134

end RawPcm.CommandLine

open RawPcm.CommandLine in
def main (args : List String) : IO UInt32 := do
  let status ← run host (Command.parser host.order) (← environment) args
  return (status.code?.getD abortCode).toUInt32
