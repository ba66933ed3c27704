import RawPcm.Format.Basic
import RawPcm.Log.Filter

/-! What a program needs of the machine that it runs on: memory, files and somewhere to report to. -/
namespace RawPcm.CommandLine

inductive FileError where
  | notFound
  | notDirectory
  | isDirectory
  | nameTooLong
  | other (cause : String)
deriving DecidableEq

def FileError.message : FileError → String
  | notFound => "No such file or directory (os error 2)"
  | notDirectory => "Not a directory (os error 20)"
  | isDirectory => "Is a directory (os error 21)"
  | nameTooLong => "File name too long (os error 36)"
  | other cause => cause

structure Host (m : Type → Type) where
  order : ByteOrder
  memory : Nat
  exists? : String → m Bool
  /-- Opens a file for reading. A directory can be opened but not read. -/
  openFile : String → m (Except FileError Unit)
  readFile : String → m (Except FileError (List UInt8))
  createFile : String → m (Except FileError Unit)
  writeFile : String → List UInt8 → m Unit
  log : Record → m Unit
  complain : String → m Unit
  print : String → m Unit

def Host.filtered {m : Type → Type} [Pure m] (h : Host m) (f : LogFilter) : Host m :=
  { h with log := fun r => if f.admits r then h.log r else pure () }

end RawPcm.CommandLine
