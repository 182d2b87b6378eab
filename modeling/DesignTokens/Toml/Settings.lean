import DesignTokens.Settings
import DesignTokens.Toml.Read

/-!
Settings in a TOML file.

A file has two sections; keys that are not known are ignored if their numbers are in range, and what
is not written keeps its default. A section may also be written as an array of its fields in order,
where further items are passed over, and a date is a section that writes no field.
-/

namespace DesignTokens
namespace Toml

def field? (written : Option Value) (otherwise : Bool) : Option Bool :=
  match written with
  | none => some otherwise
  | some (.boolean b) => some b
  | some _ => none

/-- Whether the entries under other keys than those known can be ignored. -/
def othersInRange (known : List String) (entries : List (String × Value)) : Bool :=
  Value.entriesInRange (entries.filter fun (key, _) => !known.contains key)

/-- The fields of a section by name, given with their defaults in order. -/
def fields? (fields : List (String × Bool)) (written : Option Value) : Option (List Bool) :=
  match written with
  | none => some (fields.map Prod.snd)
  | some (.date _) => some (fields.map Prod.snd)
  | some (.table entries) =>
      if othersInRange (fields.map Prod.fst) entries then
        fields.mapM fun (name, otherwise) => field? (entries.lookup name) otherwise
      else none
  | some (.array items) =>
      (List.range fields.length).mapM fun i => field? items[i]? ((fields.map Prod.snd).getD i false)
  | some _ => none

def settings? (entries : List (String × Value)) : Option Settings := do
  let standard := Settings.default
  let analysis ← fields?
    [("validate_literals", standard.options.validateLiterals),
      ("decorate_colors", standard.options.decorateColors)]
    (entries.lookup "analysis")
  let report ← fields? [("show_colors", standard.showColors)] (entries.lookup "report")
  match analysis, report, othersInRange ["analysis", "report"] entries with
  | [validateLiterals, decorateColors], [showColors], true =>
      some ⟨⟨validateLiterals, decorateColors⟩, showColors⟩
  | _, _, _ => none

end Toml

def Settings.ofText (text : List Char) : Except SettingsError Settings :=
  match (Toml.ofText? text).bind Toml.settings? with
  | some settings => .ok settings
  | none => .error .malformed

end DesignTokens
