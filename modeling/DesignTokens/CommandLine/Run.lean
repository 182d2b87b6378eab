import DesignTokens.CommandLine.Arguments
import DesignTokens.CommandLine.Output
import DesignTokens.Report
import DesignTokens.Toml.Settings

/-!
A run of the command line.

The run is a function of the arguments and of the files it may read, so that it can be reasoned
about; reading the files is left to the program around it.
-/

namespace DesignTokens
namespace CommandLine

inductive FileContent where
  | absent
  | text (content : List Char)
  | notText

structure Files where
  read : String → FileContent
  userSettings : Option String

namespace Files

def readText (files : Files) (path : String) : Except Failure (List Char) :=
  match files.read path with
  | .absent => .error (.file .notFound)
  | .notText => .error (.file .notText)
  | .text content => .ok content

def isFile (files : Files) (path : String) : Bool :=
  match files.read path with
  | .absent => false
  | _ => true

def projectSettings : String :=
  "themed-yaml/config.toml"

def settingsAt (files : Files) (path : String) : Except Failure Settings :=
  if files.isFile path then do
    match Settings.ofText (← files.readText path) with
    | .ok settings => pure settings
    | .error error => .error (.settings error)
  else .error (.settings (.missingFile path))

/-- The settings: from the file that the arguments name, or else from that of the project or of the
user if there is one. -/
def settings (files : Files) (named : Option String) : Except Failure Settings :=
  match named with
  | some path => files.settingsAt path
  | none =>
      match (projectSettings :: files.userSettings.toList).find? files.isFile with
      | some path => files.settingsAt path
      | none => .ok .default

end Files

/-- The outcome of a run: the analysis, which has no errors, and the text to print. -/
structure Outcome where
  analysis : Analysis
  output : String

def hoverText (a : Analysis) (location : Location) : String :=
  match a.hoverAtPosition? location.position with
  | some hover => hover.markdown
  | none => s!"No hover information at {location.line}:{location.column}\n"

def run (files : Files) (args : Arguments) : Except Failure Outcome := do
  -- Settings are read first, so what is wrong with them is reported before the document is read.
  let settings ← files.settings args.config
  let a ← check settings.options (← files.readText args.input)
  let colors := if args.colors || settings.showColors then colorTable a else ""
  let hover := (args.hover.map (hoverText a)).getD ""
  pure ⟨a, colors ++ hover⟩

/-- Whether the word is a level of logging, in any case. -/
def isLogLevel (word : String) : Bool :=
  ["off", "error", "warn", "info", "debug", "trace"].contains
    (String.ofList (word.toList.map Char.toLower))

def helpText : String :=
  "Command-line checker for themed design-token YAML documents\n\n"
    ++ "Usage: themed-yaml [OPTIONS] <INPUT>\n\n"
    ++ "Arguments:\n"
    ++ "  <INPUT>  Path to the input file\n\n"
    ++ "Options:\n"
    ++ "  -c, --config <CONFIG>        Path to configuration file (TOML)\n"
    ++ "      --log-level <LOG_LEVEL>  Log level (off, error, warn, info, debug, trace) "
    ++ "[default: info]\n"
    ++ "      --colors                 Print the resolved colors of every color item\n"
    ++ "      --hover <LINE:COL>       Print the hover text at LINE:COL (1-based)\n"
    ++ "  -h, --help                   Print help\n"
    ++ "  -V, --version                Print version\n"

def versionText : String :=
  "themed-yaml-cli 0.1.0\n"

structure Execution where
  exitCode : Nat
  output : String
  notice : Option String
  reports : List Report

def execute (files : Files) (args : List String) : Execution :=
  match Arguments.ofList args with
  | .error .help => ⟨0, helpText, none, []⟩
  | .error .version => ⟨0, versionText, none, []⟩
  | .error _ => ⟨2, "", none, []⟩
  | .ok args =>
      let notice :=
        if isLogLevel args.logLevel then none
        else some s!"Invalid log level: {args.logLevel}. Using 'warn' instead."
      match run files args with
      | .ok outcome =>
          ⟨0, outcome.output, notice, outcome.analysis.diagnostics.map Report.ofDiagnostic⟩
      | .error failure => ⟨1, "", notice, Report.ofFailure failure⟩

end CommandLine
end DesignTokens
