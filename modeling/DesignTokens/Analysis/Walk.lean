import DesignTokens.Analysis.ItemReport

/-!
The walk over the tree of a section.

Nodes are visited in document order, each once. A collection hands to its children the platforms it
declares, or else those it was given; its own list is checked at the place where it is written among
the children. Every visit gives back the offset behind the node, where the search for the next key
begins.
-/

namespace DesignTokens
namespace Analysis

structure Findings where
  registry : Registry
  diagnostics : List Diagnostic
  decorations : Decorations
  hovers : List Hover

namespace Findings

def empty : Findings :=
  ⟨.empty, [], .empty, []⟩

def addDiagnostics (f : Findings) (diagnostics : List Diagnostic) : Findings :=
  { f with diagnostics := f.diagnostics ++ diagnostics }

def decorate (d : Decorations) (report : ItemReport) : Decorations :=
  let d := report.swatches.foldl (fun d (color, span) => d.addSingle color span) d
  match report.hover with
  | some hover => d.addMulti (Hover.rowKey hover.colors) hover.span
  | none => d

def addItem (f : Findings) (path : ItemPath) (report : ItemReport) : Findings :=
  ⟨match report.bundle with
    | some bundle => f.registry.register path bundle
    | none => f.registry,
    f.diagnostics ++ report.diagnostics, decorate f.decorations report,
    f.hovers ++ report.hover.toList⟩

end Findings

mutual

/-- Visits the node whose key stands at `key`. -/
def walk (setting : Setting) (inherited : List String) (path : ItemPath) (key : Span) :
    Node → Findings → Except LocateError (Nat × Findings)
  | .item content, f => do
      let report ← ItemContext.report ⟨setting, f.registry, content, path, key⟩ inherited
      pure (report.next, f.addItem path report)
  | .collection own members, f => walkMembers setting own inherited path members key.stop f

/-- Visits the members of a collection, the first of which is searched from `offset`. -/
def walkMembers (setting : Setting) (own : Option (List String)) (inherited : List String)
    (path : ItemPath) : List Member → Nat → Findings → Except LocateError (Nat × Findings)
  | [], offset, f => .ok (offset, f)
  | .platforms :: members, offset, f => do
      let (cursor, diagnostics) ←
        Platforms.check setting (own.getD []) inherited path (setting.cursorAt offset)
      walkMembers setting own inherited path members cursor.offset (f.addDiagnostics diagnostics)
  | .child key node :: members, offset, f => do
      let span ← (setting.cursorAt offset).key key
      let (offset, f) ← walk setting (own.getD inherited) (path.child key) span node f
      walkMembers setting own inherited path members offset f

end

end Analysis
end DesignTokens
