import RawPcm.CommandLine.Command
import RawPcm.CommandLine.Host
import RawPcm.File.Listing

/-! The program: find a configuration, put it into the environment, carry out the command. -/
namespace RawPcm.CommandLine

inductive RunError where
  | open (path : String) (cause : FileError)
  | conversion (cause : ConversionError)
  | configUnreadable (path : String) (cause : FileError)
  | configInvalid (path : String)

def conversionMessage : ConversionError → String
  | .read cause => "reading input: " ++ cause
  | .write cause => "writing output: " ++ cause
  | .samples cause => "converting samples: " ++ cause.message

def RunError.message : RunError → String
  | «open» path cause => "opening " ++ path ++ ": " ++ cause.message
  | conversion cause => conversionMessage cause
  | configUnreadable path cause => "config: reading " ++ path ++ ": " ++ cause.message
  | configInvalid path => "config: parsing " ++ path

/-- How a run ends: well, with a usage or run error, by a fault, or by one that is fatal. -/
inductive Exit where
  | success
  | failure
  | fault
  | abort
deriving DecidableEq

/-- The code that a run leaves behind. One that is aborted leaves none. -/
def Exit.code? : Exit → Option Nat
  | success => some 0
  | failure => some 1
  | fault => some 101
  | abort => none

def configName : String := "pcmconv.toml"

def join (path name : String) : String :=
  if path.endsWith "/" then path ++ name else path ++ "/" ++ name

def isAbsolute (path : String) : Bool := path.startsWith "/"

/-- Directories that may hold configurations, the user's first. Only directories that are given from
the root count. -/
def configDirectories (env : Environment) : List String :=
  let user := match (env.get? "XDG_CONFIG_HOME").filter isAbsolute with
    | some directory => some directory
    | none => ((env.get? "HOME").filter (· ≠ "")).map (join · ".config")
  let shared := (((env.get? "XDG_CONFIG_DIRS").getD "").splitOn ":").filter isAbsolute
  user.toList ++ if shared.isEmpty then ["/etc/xdg"] else shared

def logFilter (env : Environment) : LogFilter :=
  match env.get? "RUST_LOG" with
  | none => .default
  | some text => .ofText text

def versionText (command : Option String) : String :=
  match command with
  | none => "pcmconv 0.1.0"
  | some name => "pcmconv-" ++ name ++ " 0.1.0"

def helpText : List String :=
  ["pcmconv 0.1.0", "", "USAGE:", "    pcmconv <SUBCOMMAND>", "", "SUBCOMMANDS:",
    "    convert    Convert a raw PCM file from one sample format to another",
    "    formats    List supported sample formats",
    "    inspect    Print the first samples of a raw PCM file"]

section
variable {m : Type → Type} [Monad m] (h : Host m) (p : Parser)

def loadConfig (path : String) : m (Except RunError (Option Config)) := do
  match ← h.readFile path with
  | .error .notFound => return .ok none
  | .error e => return .error (.configUnreadable path e)
  | .ok bytes =>
    match String.fromUTF8? bytes.toByteArray with
    | none =>
      return .error (.configUnreadable path (.other "stream did not contain valid UTF-8"))
    | some text =>
      match Config.parse? text with
      | none => return .error (.configInvalid path)
      | some c =>
        h.log ⟨.info, .settings, "reading config from " ++ path⟩
        return .ok (some c)

def loadFirstConfig : List String → m (Except RunError (Option Config))
  | [] => return .ok none
  | dir :: dirs => do
    let path := join (join dir "pcmconv") configName
    if ← h.exists? path then loadConfig h path else loadFirstConfig dirs

/-- The configuration in the working directory, else in one of the directories meant for them. -/
def findConfig (env : Environment) : m (Except RunError (Option Config)) := do
  match ← loadConfig h configName with
  | .ok none => loadFirstConfig h (configDirectories env)
  | r => return r

/-- Bytes of a file; those of a directory fail to come. No file has more bytes than can be counted. -/
def readerOf (contents : Except FileError (List UInt8)) : Reader :=
  match contents with
  | .ok bytes =>
    if h : bytes.length < sizeLimit then ⟨[], bytes, h⟩ else .mk [.broken "file too large"] []
  | .error e => .mk [.broken e.message] []

def runConvert (c : ConvertCommand) : m (Except Fault (Except RunError Unit)) := do
  match ← h.openFile c.input with
  | .error e => return .ok (.error (.open c.input e))
  | .ok () =>
    match ← h.createFile c.output with
    | .error e => return .ok (.error (.open c.output e))
    | .ok () =>
      let k := c.conversion
      let via := c.chosenVia
      h.log ⟨.info, .conversion,
        "converting " ++ k.source.text ++ " -> " ++ k.target.text ++ " via " ++ via.text⟩
      let reader := readerOf (← h.readFile c.input)
      match k.run h.memory via reader .unlimited with
      | .error e => return .error e
      | .ok (result, p) =>
        p.log.forM h.log
        h.writeFile c.output p.writer.written
        match result with
        | .error e => return .ok (.error (.conversion e))
        | .ok totals =>
          h.log ⟨.info, .conversion,
            "wrote " ++ toString totals.samples ++ " samples to " ++ c.output⟩
          return .ok (.ok ())

def runInspect (c : InspectCommand) : m (Except RunError Unit) := do
  match ← h.readFile c.input with
  | .error e => return .error (.open c.input e)
  | .ok bytes =>
    (Span.remark bytes.length c.format).forM h.log
    (Listing.lines bytes c.format c.count).forM h.print
    return .ok ()

def runCommand : Command → m (Except Fault (Except RunError Unit))
  | .convert c => runConvert h c
  | .inspect c => return .ok (← runInspect h c)
  | .formats => do
    Listing.formats.forM h.print
    return .ok (.ok ())

def conclude : Except Fault (Except RunError Unit) → m Exit
  | .error e => do
    h.complain (e.message?.getD "operation out of range")
    return if e.isFatal then .abort else .fault
  | .ok (.error e) => do
    h.log ⟨.error, .program, "fatal: " ++ e.message⟩
    return .failure
  | .ok (.ok ()) => return .success

def applyConfig (env : Environment) : Option Config → m (Except Fault Environment)
  | none => return .ok env
  | some c => do
    let e := c.exportTo env
    e.log.forM h.log
    match e.fault with
    | some f => return .error f
    | none => return .ok e.env

def report (args : List String) : Stop → m Exit
  | .help => do
    helpText.forM h.print
    return .success
  | .version => do
    h.print (versionText (args.head?.filter (· ∈ Command.names)))
    return .success
  | .misuse e => do
    h.complain ("error: " ++ e.message)
    return .failure

def runArguments (env : Environment) (args : List String) : m Exit := do
  match p.command env args with
  | .ok c => conclude h (← runCommand h c)
  | .error stop => report h args stop

def runConfigured (env : Environment) (config : Option Config) (args : List String) : m Exit := do
  match ← applyConfig h env config with
  | .error f => conclude h (.error f)
  | .ok env => runArguments h p env args

def runUnfiltered (env : Environment) (args : List String) : m Exit := do
  match ← findConfig h env with
  | .error e => conclude h (.ok (.error e))
  | .ok config => runConfigured h p env config args

def run (env : Environment) (args : List String) : m Exit :=
  runUnfiltered (h.filtered (logFilter env)) p env args

end
end RawPcm.CommandLine
