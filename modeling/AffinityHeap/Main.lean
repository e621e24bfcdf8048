import AffinityHeap.Config.Document
import AffinityHeap.Program

namespace AffinityHeap.CommandLine

def fileFault : IO.Error → FileFault
  | .noFileOrDirectory .. => .missing
  | .inappropriateType _ code _ => if code = 20 then .notDirectory else .isDirectory
  | e => .other (toString e)

def readText (path : String) : IO (Except FileFault String) := do
  try
    let content ← IO.FS.readBinFile path
    match String.fromUTF8? content with
    | some text => return .ok text
    | none => return .error .notText
  catch e => return .error (fileFault e)

def environment : IO Environment := do
  let backend ← IO.getEnv Environment.backendVariable
  let configPath ← IO.getEnv Environment.configVariable
  let content ← match Environment.written? configPath with
    | some path => readText (Text.trim path)
    | none => pure (.error .missing)
  return { backend, configPath, fileText := fun _ => content }

end AffinityHeap.CommandLine

open AffinityHeap in
def main (arguments : List String) : IO UInt32 := do
  let outcome := Program.run arguments (← CommandLine.environment)
  (← IO.getStdout).putStr outcome.stdout
  (← IO.getStderr).putStr outcome.stderr
  return UInt32.ofNat outcome.code
