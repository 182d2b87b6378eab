import DesignTokens.Diagnostic
import DesignTokens.Document
import DesignTokens.Locate
import DesignTokens.OrderedMap

/-!
The themes of a document.

A theme is declared by its name, or as an alias of a theme declared before it. So the themes reached
from an alias come ever earlier in the list, and following aliases ends. The first theme is the
default, to which every other falls back.
-/

namespace DesignTokens

/-- The declared themes in order, each with the theme it is an alias of. -/
structure Themes where
  targets : OrderedMap String (Option String)
  deriving Repr

namespace Themes

def empty : Themes :=
  ⟨.empty⟩

def names (themes : Themes) : List String :=
  themes.targets.keys

def isEmpty (themes : Themes) : Bool :=
  themes.targets.isEmpty

def contains (themes : Themes) (name : String) : Bool :=
  themes.targets.contains name

def default? (themes : Themes) : Option String :=
  themes.names.head?

def aliasOf? (themes : Themes) (name : String) : Option String :=
  (themes.targets.get? name).join

def follow (themes : Themes) : Nat → String → List String
  | 0, _ => []
  | steps + 1, name =>
      match themes.aliasOf? name with
      | none => []
      | some target => target :: follow themes steps target

/-- The themes reached by following aliases from `name`. Each is declared before the one it is
reached from, so there are fewer than there are themes. -/
def chain (themes : Themes) (name : String) : List String :=
  themes.follow themes.targets.size name

def resolve (themes : Themes) (name : String) : String :=
  (themes.chain name).getLastD name

inductive Declaration where
  | plain (name : String)
  | aliasOf (name target : String)
  deriving DecidableEq, Repr

namespace Declaration

def name : Declaration → String
  | .plain name => name
  | .aliasOf name _ => name

def target? : Declaration → Option String
  | .plain _ => none
  | .aliasOf _ target => some target

/-- The target in the body of an alias, which is its only entry. -/
def targetOf? (body : List (Yaml.Value × Yaml.Value)) : Option String :=
  match body with
  | [_] =>
      ((Yaml.get? Keyword.importKey body).orElse fun _ => Yaml.get? Keyword.aliasOf body).bind
        Yaml.Value.string?
  | _ => none

def ofValue? : Yaml.Value → Option Declaration
  | .string name => some (.plain name)
  | .mapping [(name, body)] => do
      let name ← name.string?
      let target ← targetOf? (← body.mapping?)
      pure (.aliasOf name target)
  | _ => none

end Declaration

structure Declared where
  themes : Themes
  places : OrderedMap String Span
  cursor : Cursor
  diagnostics : List Diagnostic

namespace Declared

/-- The place of a word behind the cursor, or else `otherwise`; the cursor moves behind it. -/
def find (d : Declared) (word : String) (otherwise : Span) : Span × Declared :=
  let span := (d.cursor.literal? word).getD otherwise
  (span, { d with cursor := d.cursor.advanceTo span.stop })

def report (d : Declared) (diagnostic : Diagnostic) : Declared :=
  { d with diagnostics := d.diagnostics ++ [diagnostic] }

def badTheme (rendered : String) (span : Span) : Diagnostic :=
  .errorAt .badTheme
    ("Bad theme type: \"" ++ rendered ++ "\". All the themes must be either a string or an object "
      ++ "with a single entry: \x7b$themeName: \x7bimport: $themeToImport\x7d\x7d")
    span "not a theme declaration"

def duplicateTheme (name : String) (span first : Span) : Diagnostic :=
  ⟨.warning, some .duplicateTheme, s!"Duplicate theme: '{name}'.",
    [⟨span, "already declared above", true⟩, ⟨first, "first declared here", false⟩], none⟩

def unknownTarget (target : String) (span : Span) : Diagnostic :=
  .errorAt .unknownAliasTarget s!"Unknown theme to import: {target}" span
    "must be declared before this theme"

/-- Adds one declaration: it is registered, or one problem is reported. What cannot be found in the
text is placed at `anchor`. -/
def declare (anchor : Span) (d : Declared) (value : Yaml.Value) : Declared :=
  match Declaration.ofValue? value with
  | none =>
      let (span, d) := d.find value.render anchor
      d.report (badTheme value.render span)
  | some declaration =>
      let (span, d) := d.find declaration.name anchor
      match d.places.get? declaration.name, declaration.target?.filter (!d.themes.contains ·) with
      | some first, _ => d.report (duplicateTheme declaration.name span first)
      | none, some target =>
          let (place, d) := d.find target span
          d.report (unknownTarget target place)
      | none, none =>
          { d with
            themes := ⟨d.themes.targets.insert declaration.name declaration.target?⟩
            places := d.places.insert declaration.name span }

end Declared

def build (text : List Char) (anchor : Span) (values : List Yaml.Value) :
    Themes × List Diagnostic :=
  let d := values.foldl (Declared.declare anchor) ⟨empty, .empty, ⟨text, anchor.stop⟩, []⟩
  (d.themes, d.diagnostics)

end Themes
end DesignTokens
