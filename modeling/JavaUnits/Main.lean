import JavaUnits.Service.Check
import JavaUnits.Settings

/-!
The command line: checks by hand the file that is named, or else `Main.java`. The service answers in
the same process, with the settings of the environment.
-/

namespace JavaUnits

def Settings.names : List String :=
  ["ENTRY_POINT_POLICY", "LOG_LEVEL", "CORS_ORIGINS", "MULTICLASS_CORE_URL", "SUBMISSIONS_FOLDER",
   "HOME"]

def environment : IO Settings.Environment := do
  let found ← Settings.names.filterMapM fun name => do
    return (← IO.getEnv name).map fun value => (Text.ofString name, Text.ofString value)
  return found

/-- Writes the text to a stream; one that cannot be encoded is left out. -/
def writeTo (stream : IO.FS.Stream) (s : Text) : IO Unit := do
  stream.write (ByteArray.mk ((Text.Utf8.encode s).toOption.getD []).toArray)
  stream.flush

def complain (message : Text) : IO UInt32 := do
  writeTo (← IO.getStderr) (message ++ Text.ofString "\n")
  return 1

def runCheck (arguments : List String) : IO UInt32 := do
  match Settings.load (← environment) with
  | .error e => complain e.message
  | .ok settings =>
    let fileName := arguments.headD "Main.java"
    let content := (← IO.FS.readBinFile fileName).toList
    let check := Check.ofContent settings.policy.name settings.submissionsFolder
      (Text.ofString fileName) content
    let (printed, ending) := (check.run Storage.empty).1
    writeTo (← IO.getStdout) printed
    match ending with
    | none => return 0
    | some fault => complain (fault.message settings.serviceUrl)

end JavaUnits

def main (arguments : List String) : IO UInt32 :=
  JavaUnits.runCheck arguments
