import DesignTokens.CommandLine.Run

/-!
The program: reads the files that a run may need, runs, and prints.
-/

namespace DesignTokens
namespace CommandLine

def readContent (path : String) : IO FileContent := do
  try
    match String.fromUTF8? (← IO.FS.readBinFile path) with
    | some text => pure (.text text.toList)
    | none => pure .notText
  catch _ => pure .absent

def userSettingsPath : IO (Option String) := do
  let directory ← match ← IO.getEnv "XDG_CONFIG_HOME" with
    | some directory => pure (some directory)
    | none => pure ((← IO.getEnv "HOME").map (· ++ "/.config"))
  pure (directory.map (· ++ "/themed-yaml/config.toml"))

/-- The paths of the files that arguments make a run read. -/
def neededPaths (args : List String) : List String :=
  match Arguments.ofList args with
  | .ok args => args.input :: args.config.toList
  | .error _ => []

def reportLine (report : Report) : String :=
  let code := match report.code with
    | some code => "[" ++ code ++ "]"
    | none => ""
  ((report.severity.map Severity.text).getD "error") ++ code ++ ": " ++ report.text

def program (args : List String) : IO UInt32 := do
  let userSettings ← userSettingsPath
  let paths := Files.projectSettings :: userSettings.toList ++ neededPaths args
  let contents ← paths.mapM fun path => do pure (path, ← readContent path)
  let files : Files := ⟨fun path => (contents.lookup path).getD .absent, userSettings⟩
  let execution := execute files args
  if let some notice := execution.notice then IO.eprintln notice
  for report in execution.reports do
    IO.eprintln (reportLine report)
  IO.print execution.output
  pure (UInt32.ofNat execution.exitCode)

end CommandLine
end DesignTokens

def main (args : List String) : IO UInt32 :=
  DesignTokens.CommandLine.program args
