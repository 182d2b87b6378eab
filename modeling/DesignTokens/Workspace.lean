import DesignTokens.Analysis.Basic

/-!
The open documents of an editor.

Every update of a document is analyzed afresh and published to the host: first an empty list of
problems, then the new one, and the new decorations. A host keeps a color until it is told
otherwise, so an update of the decorations first lists every color of the pass before with no
ranges.
-/

namespace DesignTokens

structure PublishedDiagnostic where
  range : Range
  message : String
  code : Option Code
  severity : Severity
  deriving DecidableEq, Repr

structure DecorationUpdate where
  single : OrderedMap Color (List Range)
  multi : OrderedMap String (List Range)

/-- What a host is told about a document. An event replaces the problems of the document, or the
ranges of the colors that it lists. -/
inductive HostEvent where
  | diagnostics (document : String) (published : List PublishedDiagnostic)
  | decorations (document : String) (update : DecorationUpdate)

structure Session where
  analysis : Option Analysis
  single : List Color
  multi : List String

namespace Session

def empty : Session :=
  ⟨none, [], []⟩

def ofAnalysis (a : Analysis) : Session :=
  ⟨some a, a.decorations.single.keys, a.decorations.multi.keys⟩

/-- Takes the decorations of the last pass away. -/
def cleared (s : Session) : DecorationUpdate :=
  ⟨.ofList (s.single.map (·, [])), .ofList (s.multi.map (·, []))⟩

end Session

namespace DecorationUpdate

def add (update : DecorationUpdate) (a : Analysis) : DecorationUpdate :=
  let ranges (spans : List Span) : List Range := spans.map a.lineIndex.range
  ⟨update.single.extendAll (a.decorations.single.mapValues ranges),
    update.multi.extendAll (a.decorations.multi.mapValues ranges)⟩

end DecorationUpdate

/-- A problem as it is published, at the first place it is about. -/
def Diagnostic.publish (index : LineIndex) (d : Diagnostic) : PublishedDiagnostic :=
  ⟨index.range (d.primarySpan?.getD ⟨0, 0⟩), d.message, d.code, d.severity⟩

structure Workspace where
  options : Options
  sessions : OrderedMap String Session

namespace Workspace

def new (options : Options) : Workspace :=
  ⟨options, .empty⟩

/-- The last analysis of a document, if its last update succeeded. -/
def analysis? (w : Workspace) (document : String) : Option Analysis :=
  (w.sessions.get? document).bind Session.analysis

def hover? (w : Workspace) (document : String) (position : Position) : Option Hover :=
  (w.analysis? document).bind (·.hoverAtPosition? position)

/-- The workspace after a call, what the host is told, and the outcome. -/
structure Update where
  workspace : Workspace
  events : List HostEvent
  result : Except AnalysisError Unit

def update (w : Workspace) (document : String) (text : List Char) : Update :=
  let session := (w.sessions.get? document).getD .empty
  match Analysis.ofText w.options text with
  | .error error =>
      -- What was shown is taken away here, so there is nothing left to take away the next time.
      ⟨{ w with sessions := w.sessions.insert document .empty },
        [.diagnostics document [], .decorations document session.cleared], .error error⟩
  | .ok a =>
      ⟨{ w with sessions := w.sessions.insert document (.ofAnalysis a) },
        [.diagnostics document [],
          .diagnostics document (a.diagnostics.map (·.publish a.lineIndex)),
          .decorations document (session.cleared.add a)],
        .ok ()⟩

def close (w : Workspace) (document : String) : Workspace × List HostEvent :=
  let cleared := match w.sessions.get? document with
    | some session => [HostEvent.decorations document session.cleared]
    | none => []
  ({ w with sessions := w.sessions.erase document }, cleared ++ [.diagnostics document []])

end Workspace
end DesignTokens
