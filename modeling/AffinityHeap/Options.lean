import AffinityHeap.Backend
import AffinityHeap.Text.Unsigned

namespace AffinityHeap

structure Options where
  backend : Option BackendKind := none
  rounds : Nat := 10000
  seed : Nat := 42
  reclaim : Bool := false
  deriving DecidableEq, Repr

inductive ArgumentFault where
  | missingValue (option : String)
  | badBackend (fault : HeapError)
  | badNumber (option : String) (fault : Text.NumberFault)
  | help
  | unknown (argument : String)
  deriving DecidableEq, Repr

namespace Options

def usage : String :=
  "usage: strata_report [--backend <slot|segment>] [--rounds <n>] [--seed <n>] [--reclaim]"

end Options

def ArgumentFault.message : ArgumentFault → String
  | .missingValue option => s!"{option} needs a value"
  | .badBackend fault => fault.message
  | .badNumber option fault => s!"{option}: {fault.message}"
  | .help => Options.usage
  | .unknown argument => s!"unknown argument '{argument}'\n{Options.usage}"

namespace Options

def readBackend (text : String) : Except ArgumentFault BackendKind :=
  match BackendKind.parse text with
  | .ok kind => .ok kind
  | .error fault => .error (.badBackend fault)

def readNumber (option text : String) : Except ArgumentFault Nat :=
  match Text.parseUnsigned text with
  | .ok n => .ok n
  | .error fault => .error (.badNumber option fault)

/-- The string behind an option that takes a value is its value, whatever it looks like. -/
def parseOnto (o : Options) : List String → Except ArgumentFault Options
  | [] => .ok o
  | "--backend" :: value :: rest => do
      let kind ← readBackend value
      parseOnto { o with backend := some kind } rest
  | "--rounds" :: value :: rest => do
      let n ← readNumber "--rounds" value
      parseOnto { o with rounds := n } rest
  | "--seed" :: value :: rest => do
      let n ← readNumber "--seed" value
      parseOnto { o with seed := n } rest
  | "--reclaim" :: rest => parseOnto { o with reclaim := true } rest
  | "--backend" :: [] => .error (.missingValue "--backend")
  | "--rounds" :: [] => .error (.missingValue "--rounds")
  | "--seed" :: [] => .error (.missingValue "--seed")
  | "--help" :: _ => .error .help
  | "-h" :: _ => .error .help
  | argument :: _ => .error (.unknown argument)

def parse (arguments : List String) : Except ArgumentFault Options := parseOnto {} arguments

end Options

end AffinityHeap
