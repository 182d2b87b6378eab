import DesignTokens.Analysis.Basic

/-!
What the command line prints about a valid document.
-/

namespace DesignTokens
namespace CommandLine

def swatchText (color : Color) : String :=
  s!"{color.css} (text {color.contrast.css})"

def swatchTexts : Bundle → List String
  | .shared _ value => ((value.bind Value.color?).map swatchText).toList
  | .themed _ values =>
      values.entries.filterMap fun (theme, value) =>
        value.color?.map fun color => theme ++ "=" ++ swatchText color

/-- One line for each item with a color. -/
def colorTable (a : Analysis) : String :=
  String.join (a.registry.entries.filterMap fun (path, bundle) =>
    match swatchTexts bundle with
    | [] => none
    | swatches => some (path ++ "  " ++ "  ".intercalate swatches ++ "\n"))

end CommandLine
end DesignTokens
