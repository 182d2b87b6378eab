import DesignTokens.Analysis.Entry
import DesignTokens.Analysis.Platforms
import DesignTokens.Swatch

/-!
What a pass finds out about one item: its problems, its resolved values, its swatches, and where the
text goes on.

The parts are found in this order, which decides what is reported first: platforms, default theme,
theme keys, type, values, swatches, last key. A key of the item that cannot be found in the text
ends the pass.
-/

namespace DesignTokens
namespace Analysis

/-- The findings about one item. The bundle is absent if the type is not known, and the search for
the next key begins at `next`. -/
structure ItemReport where
  diagnostics : List Diagnostic
  bundle : Option Bundle
  swatches : List (Color × Span)
  hover : Option Hover
  next : Nat

/-- An item together with everything around it: the items above, and the place of its own key. -/
structure ItemContext where
  setting : Setting
  registry : Registry
  item : Item
  path : ItemPath
  key : Span

namespace ItemContext

def body (c : ItemContext) : Cursor :=
  c.setting.cursorAt c.key.stop

def missingDefault? (c : ItemContext) : Option Diagnostic := do
  let name ← c.setting.themes.default?
  if (c.item.entry? name).isSome then none
  else
    some ⟨.error, some .missingDefault, s!"The default theme '{name}' must be defined.",
      [⟨c.key, s!"missing `{name}`", true⟩],
      some "Every themed item falls back to the first theme in `.themes`."⟩

def unknownTheme (name : String) (span : Span) : Diagnostic :=
  .errorAt .unknownTheme
    s!"Unknown theme: '{name}'. All the themes must be defined in the '.themes' array."
    span "unknown theme"

def unknownThemes (c : ItemContext) : Except LocateError (List Diagnostic) :=
  (c.item.themeKeys.filter (!c.setting.themes.contains ·)).mapM fun name => do
    pure (unknownTheme name (← c.body.key name))

def unknownType (marker : String) (span : Span) : Diagnostic :=
  .errorAt .unknownType
    (s!"Unknown type: '{marker}'. "
      ++ "The type must be one of: int, double, color, fontWeight, bool, brightness.")
    span "unsupported type"

def badType (c : ItemContext) (marker : String) : Except LocateError Diagnostic := do
  let key ← c.body.key Keyword.type
  pure (unknownType marker ((Locate.literal? c.setting.text key.stop marker).getD key))

def missingValue (c : ItemContext) : Diagnostic :=
  .errorAt .missingValue s!"The shared item '{c.path.text}' must define a '.value'." c.key
    "missing `.value`"

def entryContext (c : ItemContext) (type : ItemType) : EntryContext :=
  ⟨c.setting.text, c.registry, type, c.path.isShared⟩

/-- A value if there is one, and the report of the fault if there is one and the entry is written at
a site. -/
def settle (c : ItemContext) (site : Option Span) (result : Except EntryFault Value) :
    Option Value × List Diagnostic :=
  match result with
  | .ok v => (some v, [])
  | .error fault => (none, (site.bind (fault.report? c.setting)).toList)

def resolveShared (c : ItemContext) (type : ItemType) :
    Except LocateError (Bundle × List Diagnostic) :=
  match c.item.entry? Keyword.value with
  | none => .ok (.shared type none, [c.missingValue])
  | some entry => do
      let key ← c.body.key Keyword.value
      let (value, diagnostics) :=
        c.settle (some key) ((c.entryContext type).resolve entry Keyword.value key)
      pure (.shared type value, diagnostics)

/-- The entry that a theme uses, and the theme it is written under: its own, the first one along its
aliases, or that of the default theme. -/
def rawEntry? (c : ItemContext) (theme : String) : Option (Yaml.Value × String) :=
  let themes := c.setting.themes
  (theme :: themes.chain theme ++ themes.default?.toList).findSome? fun name =>
    (c.item.entry? name).map (·, name)

def resolveThemes (c : ItemContext) (type : ItemType) :
    List String → Except LocateError (List (String × Value) × List Diagnostic)
  | [] => .ok ([], [])
  | theme :: themes =>
      match c.rawEntry? theme with
      | none => c.resolveThemes type themes
      | some (entry, writtenUnder) => do
          let origin ← c.body.key writtenUnder
          -- What is taken over from another theme is reported there.
          let site := if writtenUnder = theme then some origin else none
          let (value, here) := c.settle site ((c.entryContext type).resolve entry theme origin)
          let (values, rest) ← c.resolveThemes type themes
          pure (value.toList.map (theme, ·) ++ values, here ++ rest)

def resolve (c : ItemContext) (type : ItemType) : Except LocateError (Bundle × List Diagnostic) :=
  if c.path.isShared then c.resolveShared type
  else do
    let (values, diagnostics) ← c.resolveThemes type c.setting.themes.names
    pure (.themed type (.ofList values), diagnostics)

/-- The text to mark for an entry and the color it shows; opacity is not shown. -/
def swatch? (c : ItemContext) (entry : Yaml.Value) (key : String) (site : Span) :
    Option (String × Color) :=
  let text := c.setting.text
  let literalSwatch (literal : Yaml.Value) (origin : Option Span) : Option (String × Color) := do
    let written := literalText text literal origin
    let color ← castColor literal written
    pure (written, color)
  match entry.mapping? with
  | none => literalSwatch entry (some site)
  | some parts =>
      match Yaml.get? Keyword.importKey parts with
      | some path => do
          let bundle ← c.registry.get? path.render
          let color ← (← bundle.valueFor key).color?
          pure (path.render, color)
      | none => do
          let literal ← Yaml.get? Keyword.literal parts
          literalSwatch literal (Locate.literal? text site.stop Keyword.literal)

def swatches (c : ItemContext) : Cursor → List String → Except LocateError (List (Color × Span))
  | _, [] => .ok []
  | cursor, key :: keys =>
      match c.item.entry? key with
      | none => c.swatches cursor keys
      | some entry => do
          let site ← cursor.key key
          let here : Option (Color × Span) := do
            let (word, color) ← c.swatch? entry key site
            let span ← Locate.literal? c.setting.text site.stop word
            pure (color, span)
          let rest ← c.swatches (cursor.advanceTo site.stop) keys
          pure (here.toList ++ rest)

def swatchKeys (c : ItemContext) : List String :=
  if c.path.isShared then [Keyword.value] else c.item.themeKeys

def hover? (c : ItemContext) (bundle : Bundle) : Option Hover :=
  if c.path.isShared then none
  else
    some ⟨c.key, c.path.text,
      c.setting.themes.names.map fun theme => ⟨theme, (bundle.valueFor theme).bind Value.color?⟩⟩

/-- The end of the item: behind its last key. -/
def ending (c : ItemContext) : Except LocateError Nat :=
  match c.item.lastKey? with
  | none => .ok c.body.offset
  | some key => do
      let span ← c.body.key key
      pure (c.body.advanceTo span.stop).offset

def themeProblems (c : ItemContext) : Except LocateError (List Diagnostic) :=
  if c.path.isShared then .ok []
  else do
    let unknown ← c.unknownThemes
    pure (c.missingDefault?.toList ++ unknown)

def report (c : ItemContext) (inherited : List String) : Except LocateError ItemReport := do
  let (_, platforms) ← Platforms.check c.setting (c.item.platforms.getD []) inherited c.path c.body
  let themes ← c.themeProblems
  match c.item.type with
  | .error marker =>
      let problem ← c.badType marker
      pure ⟨platforms ++ themes ++ [problem], none, [], none, ← c.ending⟩
  | .ok type =>
      let (bundle, values) ← c.resolve type
      let decorated := type = .color ∧ c.setting.options.decorateColors
      let swatches ← if decorated then c.swatches c.body c.swatchKeys else .ok []
      let hover := if decorated then c.hover? bundle else none
      pure ⟨platforms ++ themes ++ values, some bundle, swatches, hover, ← c.ending⟩

end ItemContext
end Analysis
end DesignTokens
