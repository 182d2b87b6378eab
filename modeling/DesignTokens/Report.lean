import DesignTokens.Settings

/-!
Reports of problems and failures, ready to be shown with the text they are about.
-/

namespace DesignTokens

/-- A remark on a place, given by offset and length. The place of a fault of the YAML text is not
known. -/
structure ReportLabel where
  message : String
  place : Option (Nat × Nat)
  isPrimary : Bool
  deriving DecidableEq, Repr

structure Report where
  text : String
  code : Option String
  severity : Option Severity
  help : Option String
  hasSource : Bool
  labels : List ReportLabel
  deriving DecidableEq, Repr

namespace Report

def ofDiagnostic (d : Diagnostic) : Report :=
  ⟨d.message, d.code.map Code.text, some d.severity, d.help, true,
    d.labels.map fun l => ⟨l.message, some (l.span.start, l.span.length), l.isPrimary⟩⟩

def labelOf? (text : List Char) : AnalysisError → Option ReportLabel
  | .yaml fault =>
      if fault.hasPlace then some ⟨"the YAML parser stopped here", none, true⟩ else none
  | .locate (.keyNotFound key offset) =>
      some ⟨s!"`{key}` was searched for from here", some (min offset (Text.bytes text), 0), true⟩
  | .locate (.outsideText offset) =>
      some ⟨"the search began outside of the text", some (min offset (Text.bytes text), 0), true⟩

def helpOf : AnalysisError → Option String
  | .yaml _ => none
  | .locate _ => some "keys must be written as block mappings, one key per line"

/-- The reports of a failure: one for each problem of an invalid document, otherwise one. -/
def ofFailure : Failure → List Report
  | .invalid diagnostics _ => diagnostics.map ofDiagnostic
  | .file error => [⟨(Failure.file error).message, some "themed_yaml::io", none, none, false, []⟩]
  | .settings error =>
      [⟨(Failure.settings error).message, some "themed_yaml::config", none, none, false, []⟩]
  | .analysis error text =>
      [⟨error.message, some "themed_yaml::analysis", none, helpOf error, true,
        (labelOf? text error).toList⟩]

end Report
end DesignTokens
