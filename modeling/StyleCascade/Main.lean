import StyleCascade.CommandLine

/-!
# The program

Reads the settings from the environment and the two files that the arguments name. The
computed styles go to the standard output, the log and an error to the standard error
stream.
-/
namespace StyleCascade.CommandLine

def readContent : Option String → IO FileContent
  | none => return .notGiven
  | some path =>
    try
      return .text (← IO.FS.readFile path)
    catch _ =>
      return .unreadable

def logLine (n : Notice) : String :=
  "[" ++ n.level.name ++ "][" ++ n.target ++ "] " ++ n.message

end StyleCascade.CommandLine

open StyleCascade CommandLine in
/-- Runs on the two files; ends with 1 on an error. -/
def main (args : List String) : IO UInt32 := do
  let config := EngineConfig.ofSettings (← IO.getEnv "QUICKSTYLE_LOG")
    (← IO.getEnv "QUICKSTYLE_DEBUG")
  let outcome := run config (← readContent args[0]?) (← readContent args[1]?)
  for notice in outcome.log config.logLevel do
    IO.eprintln (logLine notice)
  match outcome.result with
  | .ok text =>
    IO.print text
    return 0
  | .error error =>
    IO.eprintln ("Error: " ++ error.text)
    return 1
