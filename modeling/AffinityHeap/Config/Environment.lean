import AffinityHeap.Config.Basic

namespace AffinityHeap

inductive FileFault where
  | missing
  | isDirectory
  | notDirectory
  | notText
  | other (reason : String)
  deriving DecidableEq, Repr

def FileFault.message : FileFault → String
  | .missing => "No such file or directory (os error 2)"
  | .isDirectory => "Is a directory (os error 21)"
  | .notDirectory => "Not a directory (os error 20)"
  | .notText => "stream did not contain valid UTF-8"
  | .other reason => reason

/-- The variables that settings are taken from, and what reading a file would give. -/
structure Environment where
  backend : Option String
  configPath : Option String
  fileText : String → Except FileFault String

namespace Environment

def backendVariable : String := "STRATA_ALLOCATOR"

def configVariable : String := "STRATA_ALLOCATOR_CONFIG"

def written? (setting : Option String) : Option String :=
  setting.filter (fun text => !Text.allBlank text)

end Environment

/-- Reads the text of a configuration file: the settings written in it, as yet unchecked, or what is
wrong with it. -/
class TomlReader where
  read : String → Except String Config

namespace Config

variable [TomlReader]

def ofToml (text : String) : Except HeapError Config :=
  match TomlReader.read text with
  | .error detail => .error (.malformedConfig detail)
  | .ok c => do
      c.validate
      return c

def ofFile (e : Environment) (path : String) : Except HeapError Config :=
  match e.fileText path with
  | .ok text => ofToml text
  | .error fault => .error (.unreadableConfig s!"{path}: {fault.message}")

/-- The file that is named, or else the defaults, with the backend that is named. -/
def ofEnvironment (e : Environment) : Except HeapError Config := do
  let c ← match Environment.written? e.configPath with
    | some path => ofFile e (Text.trim path)
    | none => .ok default
  match Environment.written? e.backend with
  | some name => return { c with backend := ← BackendKind.parse name }
  | none => return c

end Config

end AffinityHeap
