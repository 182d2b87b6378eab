import DesignTokens.Analysis.Literal
import DesignTokens.Analysis.Setting

/-!
Resolving one entry of an item.

An entry is a literal, or a mapping that imports the value of an item above or holds a literal, and
that may change the opacity of a color. Resolution gives a value or the fault that prevents it. A
fault is reported only at the key under which the entry is written: an entry that another theme
falls back to is not reported again.
-/

namespace DesignTokens
namespace Analysis

/-- Why an entry has no value. An imported opacity that is out of range is told with the theme,
unless the item is shared. -/
inductive EntryFault where
  | invalidLiteral (written : String) (expected : ItemType)
  | missingImport (path : String)
  | importType (path : String) (expected actual : ItemType)
  | opacityRange (opacity : Float)
  | importedOpacityRange (path : String) (theme : Option String) (opacity : Float)
  | nothingWritten
  | unresolvedImport
  deriving Repr

namespace EntryFault

/-- The text that a report of the fault points at; two faults are never reported. -/
def subject? : EntryFault → Option String
  | .invalidLiteral written _ => some written
  | .missingImport path => some path
  | .importType path _ _ => some path
  | .opacityRange _ => some Keyword.opacity
  | .importedOpacityRange path _ _ => some path
  | .nothingWritten => none
  | .unresolvedImport => none

def diagnosticAt? (fault : EntryFault) (span : Span) : Option Diagnostic :=
  match fault with
  | .invalidLiteral written expected =>
      some (.errorAt .invalidLiteral s!"The value '{written}' is not a valid '{expected.name}'."
        span s!"expected a `{expected.name}`")
  | .missingImport path =>
      some (.errorAt .missingImport
        (s!"The value '{path}' does not exist. "
          ++ "Make sure the item has been defined ABOVE in the file.")
        span "not defined above")
  | .importType path expected actual =>
      some (.errorAt .importType
        s!"The value '{path}' is not of type '{expected.name}' but '{actual.name}'."
        span s!"this is a `{actual.name}`")
  | .opacityRange opacity =>
      let shown := Decimal.Layout.plain.float opacity
      some (.errorAt .opacityRange s!"The opacity {shown} must be between 0 and 1." span
        "out of range")
  | .importedOpacityRange path theme opacity =>
      let shown := Decimal.Layout.plain.float opacity
      let subject := match theme with
        | some theme => s!"The value '{path}' for theme '{theme}'"
        | none => s!"The value '{path}'"
      some (.errorAt .opacityRange s!"{subject} is {shown} but it must be between 0 and 1." span
        "out of range")
  | .nothingWritten => none
  | .unresolvedImport => none

def isWanted (options : Options) : EntryFault → Bool
  | .invalidLiteral _ _ => options.validateLiterals
  | _ => true

/-- The report of a fault of the entry under the key at `site`. It points at the faulty text behind
the key, or at the key if the text does not occur. -/
def report? (fault : EntryFault) (setting : Setting) (site : Span) : Option Diagnostic :=
  if fault.isWanted setting.options then do
    let subject ← fault.subject?
    fault.diagnosticAt? ((Locate.literal? setting.text site.stop subject).getD site)
  else none

end EntryFault

structure EntryContext where
  text : List Char
  registry : Registry
  type : ItemType
  isShared : Bool

namespace EntryContext

def cast (c : EntryContext) (literal : Yaml.Value) (origin : Option Span) :
    Except EntryFault Value :=
  let written := literalText c.text literal origin
  match castLiteral literal written c.type with
  | some v => .ok v
  | none => .error (.invalidLiteral written c.type)

def importValue (c : EntryContext) (path : String) (expected : ItemType) (key : String) :
    Except EntryFault Value :=
  match c.registry.get? path with
  | none => .error (.missingImport path)
  | some bundle =>
      if bundle.type = expected then
        match bundle.valueFor key with
        | some v => .ok v
        | none => .error .unresolvedImport
      else .error (.importType path expected bundle.type)

def fade (c : EntryContext) (color : Color) (opacity : Yaml.Value) (key : String) :
    Except EntryFault Color :=
  match opacity.number? with
  | some n =>
      match color.withOpacity n.toFloat with
      | .ok color => .ok color
      | .error _ => .error (.opacityRange n.toFloat)
  | none =>
      match opacity.mapping?.bind (Yaml.get? Keyword.importKey) with
      | none => .error (.invalidLiteral opacity.render .double)
      | some path => do
          match (← c.importValue path.render .double key).double? with
          | none => .error .unresolvedImport
          | some x =>
              match color.withOpacity x with
              | .ok color => .ok color
              | .error _ =>
                  let theme := if c.isShared then none else some key
                  .error (.importedOpacityRange path.render theme x)

/-- The value of an entry, seen by `key`; `origin` is the key it is written under. -/
def resolve (c : EntryContext) (entry : Yaml.Value) (key : String) (origin : Span) :
    Except EntryFault Value :=
  match entry with
  | .mapping parts => do
      let written? (keyword : String) : Option Yaml.Value :=
        (Yaml.get? keyword parts).filter (!·.isNull)
      let base ←
        match Yaml.get? Keyword.importKey parts, written? Keyword.literal with
        | some path, _ => c.importValue path.render c.type key
        | none, some literal => c.cast literal (Locate.literal? c.text origin.stop Keyword.literal)
        | none, none => .error .nothingWritten
      match c.type, written? Keyword.opacity with
      | .color, some opacity =>
          match base.color? with
          | some color => (c.fade color opacity key).map .color
          | none => .error .unresolvedImport
      | _, _ => .ok base
  | literal => c.cast literal (some origin)

end EntryContext
end Analysis
end DesignTokens
