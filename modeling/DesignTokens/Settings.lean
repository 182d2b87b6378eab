import DesignTokens.Analysis.Basic

/-!
Settings, and the check that a document is valid.
-/

namespace DesignTokens

structure Settings where
  options : Options
  showColors : Bool
  deriving DecidableEq, Repr

def Settings.default : Settings :=
  ⟨.default, false⟩

inductive FileError where
  | notFound
  | notText
  deriving DecidableEq, Repr

def FileError.message : FileError → String
  | .notFound => "No such file or directory (os error 2)"
  | .notText => "stream did not contain valid UTF-8"

inductive SettingsError where
  | missingFile (path : String)
  | malformed
  deriving DecidableEq, Repr

def SettingsError.message : SettingsError → String
  | .missingFile path => s!"Missing configuration file: {path}"
  | .malformed => "Failed to parse TOML configuration"

inductive Failure where
  | file (error : FileError)
  | analysis (error : AnalysisError) (text : List Char)
  | invalid (diagnostics : List Diagnostic) (text : List Char)
  | settings (error : SettingsError)
  deriving Repr

def Failure.message : Failure → String
  | .file error => "I/O error: " ++ error.message
  | .analysis error _ => error.message
  | .invalid diagnostics _ => s!"{diagnostics.length} problem(s) found"
  | .settings error => "Config error: " ++ error.message

def analyze (options : Options) (text : List Char) : Except Failure Analysis :=
  match Analysis.ofText options text with
  | .error error => .error (.analysis error text)
  | .ok a => .ok a

/-- Analyzes a document and accepts it if no problem is an error. -/
def check (options : Options) (text : List Char) : Except Failure Analysis := do
  let a ← analyze options text
  if a.hasErrors then .error (.invalid a.diagnostics text) else .ok a

end DesignTokens
