/-! What an operation reports besides its result. -/
namespace RawPcm

inductive Level where
  | error
  | warn
  | info
  | debug
  | trace
deriving DecidableEq

namespace Level

def all : List Level := [error, warn, info, debug, trace]

def name : Level → String
  | error => "ERROR"
  | warn => "WARN"
  | info => "INFO"
  | debug => "DEBUG"
  | trace => "TRACE"

def severity : Level → Nat
  | error => 4
  | warn => 3
  | info => 2
  | debug => 1
  | trace => 0

end Level

inductive Origin where
  | program
  | settings
  | conversion
  | span
  | dispatch
deriving DecidableEq

def Origin.path : Origin → String
  | program => "pcmconv"
  | settings => "pcmconv::config"
  | conversion => "pcmconv::convert"
  | span => "pcmconv_core::range"
  | dispatch => "pcmconv_core::format"

structure Record where
  level : Level
  origin : Origin
  message : String
deriving DecidableEq

namespace Record

def text (r : Record) : String := r.level.name ++ " " ++ r.message

def atLeast (level : Level) (log : List Record) : List Record :=
  log.filter fun r => decide (level.severity ≤ r.level.severity)

end Record
end RawPcm
