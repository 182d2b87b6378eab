import DesignTokens.Text.Span

/-!
Problems of a document, with the places they are about.
-/

namespace DesignTokens

inductive Severity where
  | error
  | warning
  deriving DecidableEq, Repr

namespace Severity

def text : Severity → String
  | .error => "error"
  | .warning => "warning"

end Severity

inductive Code where
  | badTheme
  | unknownAliasTarget
  | duplicateTheme
  | missingDefault
  | unknownTheme
  | missingValue
  | unknownType
  | unknownPlatform
  | hiddenPlatform
  | missingImport
  | importType
  | opacityRange
  | invalidLiteral
  deriving DecidableEq, Repr

namespace Code

/-- The code as it is shown. The first digit stands for declarations of themes, items, platforms and
values. -/
def text : Code → String
  | .badTheme => "E001"
  | .unknownAliasTarget => "E002"
  | .duplicateTheme => "E003"
  | .missingDefault => "E100"
  | .unknownTheme => "E101"
  | .missingValue => "E102"
  | .unknownType => "E103"
  | .unknownPlatform => "E200"
  | .hiddenPlatform => "E201"
  | .missingImport => "E300"
  | .importType => "E301"
  | .opacityRange => "E302"
  | .invalidLiteral => "E303"

def all : List Code :=
  [.badTheme, .unknownAliasTarget, .duplicateTheme, .missingDefault, .unknownTheme, .missingValue,
    .unknownType, .unknownPlatform, .hiddenPlatform, .missingImport, .importType, .opacityRange,
    .invalidLiteral]

def ofText? (text : String) : Option Code :=
  all.find? (·.text == text)

end Code

/-- A remark on a place. The primary labels mark what a problem is about, the others what it has to
do with. -/
structure Label where
  span : Span
  message : String
  isPrimary : Bool
  deriving DecidableEq, Repr

structure Diagnostic where
  severity : Severity
  code : Option Code
  message : String
  labels : List Label
  help : Option String
  deriving DecidableEq, Repr

namespace Diagnostic

def errorAt (code : Code) (message : String) (span : Span) (label : String) : Diagnostic :=
  ⟨.error, some code, message, [⟨span, label, true⟩], none⟩

def primarySpan? (d : Diagnostic) : Option Span :=
  (d.labels.find? (·.isPrimary)).map (·.span)

def isError (d : Diagnostic) : Bool :=
  d.severity == .error

def isWarning (d : Diagnostic) : Bool :=
  d.severity == .warning

def text (d : Diagnostic) : String :=
  let code := match d.code with
    | some code => "[" ++ code.text ++ "]"
    | none => ""
  d.severity.text ++ code ++ ": " ++ d.message

end Diagnostic
end DesignTokens
