import DesignTokens.Proofs.Findings
import DesignTokens.Workspace
import Mathlib.Data.List.Induction

/-!
What a host shows after any sequence of calls.

A host keeps the last list of problems it was given for a document, and for each color the ranges it
was last told; colors that an update does not list keep their ranges.  So nothing disappears from a
host unless the workspace remembers that it is there.  The theorem of this file is that after every
sequence of updates and closings, of any documents in any order, the host shows of each document
exactly the last analysis that succeeded, or nothing if the last call failed or closed it.

The invariant is `InStep`: the session of a document remembers the keys of the analysis that the host
shows, and for every key, listed or not, the ranges at the host are those of that analysis.
-/

namespace DesignTokens

structure HostView where
  diagnostics : List PublishedDiagnostic
  single : OrderedMap Color (List Range)
  multi : OrderedMap String (List Range)

namespace HostView

def empty : HostView :=
  ⟨[], .empty, .empty⟩

/-- Overwrites the ranges of the colors that an update lists. -/
def apply (view : HostView) (update : DecorationUpdate) : HostView :=
  { view with
    single := view.single.insertAll update.single
    multi := view.multi.insertAll update.multi }

/-- The colors that have a range. -/
def visible {α : Type} (m : OrderedMap α (List Range)) : List (α × List Range) :=
  m.entries.filter fun (_, ranges) => !ranges.isEmpty

end HostView

abbrev Host : Type :=
  String → HostView

namespace Host

def modify (host : Host) (document : String) (f : HostView → HostView) : Host := fun d =>
  if d = document then f (host d) else host d

def receive (host : Host) : HostEvent → Host
  | .diagnostics document published =>
      host.modify document fun view => { view with diagnostics := published }
  | .decorations document update => host.modify document (·.apply update)

end Host

inductive Call where
  | update (document : String) (text : List Char)
  | close (document : String)

namespace Call

def document : Call → String
  | .update document _ => document
  | .close document => document

/-- The text and the analysis that a call leaves for its document. -/
def outcome? (options : Options) : Call → Option (List Char × Analysis)
  | .update _ text => (Analysis.ofText options text).toOption.map (text, ·)
  | .close _ => none

/-- The last call on a document. -/
def last? (document : String) (calls : List Call) : Option Call :=
  (calls.filter (·.document = document)).getLast?

theorem last?_append (document : String) (calls : List Call) (call : Call) :
    last? document (calls ++ [call]) =
      if call.document = document then some call else last? document calls := by
  rw [last?, List.filter_append]
  by_cases h : call.document = document
  · simp [h]
  · simp [h, last?]

end Call

structure Editor where
  workspace : Workspace
  host : Host

namespace Editor

def step (e : Editor) : Call → Editor
  | .update document text =>
      let u := e.workspace.update document text
      ⟨u.workspace, u.events.foldl Host.receive e.host⟩
  | .close document =>
      let (workspace, events) := e.workspace.close document
      ⟨workspace, events.foldl Host.receive e.host⟩

def run (options : Options) (calls : List Call) : Editor :=
  calls.foldl step ⟨.new options, fun _ => .empty⟩

theorem run_append (options : Options) (calls : List Call) (call : Call) :
    run options (calls ++ [call]) = (run options calls).step call := by
  rw [run, List.foldl_append]
  rfl

end Editor

/-! ## One map of ranges -/

/-- For every key, the ranges at a host are those of the decorations. -/
structure Reflects {α : Type} [DecidableEq α] (decorations : OrderedMap α (List Span))
    (range : Span → Range) (shown : OrderedMap α (List Range)) : Prop where
  distinct : shown.Distinct
  ranges : ∀ key, (shown.get? key).getD [] = ((decorations.get? key).getD []).map range

namespace Reflects

variable {α : Type} [DecidableEq α]

theorem empty (range : Span → Range) :
    Reflects (OrderedMap.empty : OrderedMap α (List Span)) range .empty :=
  ⟨OrderedMap.distinct_empty, fun _ => rfl⟩

/-- The step lemma.  An update that lists every key of the decorations before, and then those of the
new ones, turns a host that reflects the former into one that reflects the latter. -/
theorem update {old new : OrderedMap α (List Span)} {range range' : Span → Range}
    {shown : OrderedMap α (List Range)} (h : Reflects old range shown) (hnew : new.Distinct) :
    Reflects new range' (shown.insertAll
      ((OrderedMap.ofList (old.keys.map (·, []))).extendAll (new.mapValues (·.map range')))) := by
  have hranges : (new.mapValues (·.map range')).Distinct := by
    rw [OrderedMap.Distinct, OrderedMap.keys_mapValues]
    exact hnew
  have hlisted : ((OrderedMap.ofList (old.keys.map (·, []))).extendAll
      (new.mapValues (·.map range'))).Distinct :=
    (OrderedMap.distinct_ofList _).extendAll _
  refine ⟨h.distinct.insertAll _, fun key => ?_⟩
  rw [OrderedMap.get?_insertAll _ hlisted, OrderedMap.get?_extendAll _ hranges,
    OrderedMap.get?_mapValues, OrderedMap.get?_ofList_const]
  cases hkey : new.get? key with
  | some spans =>
      by_cases hold : key ∈ old.keys <;> simp [hold]
  | none =>
      by_cases hold : key ∈ old.keys
      · simp [hold]
      · have hshown := h.ranges key
        rw [OrderedMap.get?_eq_none_iff.mpr hold] at hshown
        simpa [hold] using hshown

theorem clear {old : OrderedMap α (List Span)} {range : Span → Range}
    {shown : OrderedMap α (List Range)} (h : Reflects old range shown) (range' : Span → Range) :
    Reflects .empty range' (shown.insertAll (OrderedMap.ofList (old.keys.map (·, [])))) :=
  h.update OrderedMap.distinct_empty

/-- The entries with ranges are exactly the decorations. -/
theorem visible_perm {decorations : OrderedMap α (List Span)} {range : Span → Range}
    {shown : OrderedMap α (List Range)} (h : Reflects decorations range shown)
    (hgrouped : Analysis.Grouped decorations) :
    (HostView.visible shown).Perm (decorations.mapValues (·.map range)).entries := by
  have hranges : (decorations.mapValues (·.map range)).Distinct := by
    rw [OrderedMap.Distinct, OrderedMap.keys_mapValues]
    exact hgrouped.distinct
  refine (List.perm_ext_iff_of_nodup (h.distinct.nodup_entries.filter _)
    hranges.nodup_entries).mpr ?_
  rintro ⟨key, ranges⟩
  have hkey := h.ranges key
  rw [List.mem_filter, h.distinct.mem_entries, hranges.mem_entries, OrderedMap.get?_mapValues]
  cases hspans : decorations.get? key with
  | none =>
      rw [hspans] at hkey
      constructor
      · rintro ⟨hget, hne⟩
        rw [hget] at hkey
        simp_all
      · intro hnone
        cases hnone
  | some spans =>
      have hspans_ne := hgrouped.placed hspans
      rw [hspans] at hkey
      cases hget : shown.get? key with
      | none =>
          rw [hget] at hkey
          simp_all
      | some shownRanges =>
          rw [hget] at hkey
          simp only [Option.getD_some] at hkey
          subst hkey
          constructor
          · rintro ⟨heq, -⟩
            exact heq
          · intro heq
            cases heq
            simpa using hspans_ne

theorem visible_eq_nil {range : Span → Range} {shown : OrderedMap α (List Range)}
    (h : Reflects .empty range shown) : HostView.visible shown = [] :=
  List.Perm.eq_nil (h.visible_perm Analysis.Grouped.empty)

end Reflects

/-! ## The view of a document -/

theorem Analysis.ofText_grouped {options : Options} {text : List Char} {a : Analysis}
    (h : Analysis.ofText options text = .ok a) :
    Analysis.Grouped a.decorations.single ∧ Analysis.Grouped a.decorations.multi := by
  obtain ⟨document, -, ha⟩ := Analysis.ofText_eq_ok.mp h
  exact (Analysis.ofDocument_wellFormed ha).decorations

theorem Analysis.ofText_lineIndex {options : Options} {text : List Char} {a : Analysis}
    (h : Analysis.ofText options text = .ok a) : a.lineIndex = LineIndex.ofText text := by
  obtain ⟨document, -, ha⟩ := Analysis.ofText_eq_ok.mp h
  obtain ⟨diagnostics, -, hindex, -⟩ := Analysis.ofDocument_run ha
  exact hindex

/-- The session that goes with the outcome of the last call. -/
def sessionOf : Option (List Char × Analysis) → Session
  | none => .empty
  | some (_, a) => .ofAnalysis a

def decorationsOf : Option (List Char × Analysis) → Decorations
  | none => .empty
  | some (_, a) => a.decorations

def rangeOf : Option (List Char × Analysis) → Span → Range
  | none => (LineIndex.ofText []).range
  | some (text, _) => (LineIndex.ofText text).range

def publishedOf : Option (List Char × Analysis) → List PublishedDiagnostic
  | none => []
  | some (text, a) => a.diagnostics.map (·.publish (LineIndex.ofText text))

/-- A workspace and the view of a host agree about a document with this outcome. -/
structure InStep (w : Workspace) (view : HostView) (document : String)
    (outcome : Option (List Char × Analysis)) : Prop where
  session : (w.sessions.get? document).getD .empty = sessionOf outcome
  diagnostics : view.diagnostics = publishedOf outcome
  single : Reflects (decorationsOf outcome).single (rangeOf outcome) view.single
  multi : Reflects (decorationsOf outcome).multi (rangeOf outcome) view.multi

namespace InStep

variable {w : Workspace} {view : HostView} {document : String}
  {outcome : Option (List Char × Analysis)}

theorem cleared_eq (h : InStep w view document outcome) :
    ((w.sessions.get? document).getD .empty).cleared =
      ⟨.ofList ((decorationsOf outcome).single.keys.map (·, [])),
        .ofList ((decorationsOf outcome).multi.keys.map (·, []))⟩ := by
  rw [h.session]
  cases outcome with
  | none => rfl
  | some outcome => rfl

theorem analysis?_eq (h : InStep w view document outcome) :
    w.analysis? document = outcome.map Prod.snd := by
  have hsession := h.session
  have hbind : w.analysis? document = ((w.sessions.get? document).getD .empty).analysis := by
    rw [Workspace.analysis?]
    cases w.sessions.get? document with
    | none => rfl
    | some session => rfl
  rw [hbind, hsession]
  cases outcome with
  | none => rfl
  | some outcome => rfl

/-- What a host shows once it has received an empty list of problems and the cleared decorations. -/
theorem clear (h : InStep w view document outcome) (w' : Workspace)
    (hsession : (w'.sessions.get? document).getD .empty = .empty) :
    InStep w' ⟨[], (view.apply ((w.sessions.get? document).getD .empty).cleared).single,
      (view.apply ((w.sessions.get? document).getD .empty).cleared).multi⟩ document none := by
  rw [h.cleared_eq]
  exact ⟨hsession, rfl, h.single.clear _, h.multi.clear _⟩

theorem publish (h : InStep w view document outcome) {text : List Char} {a : Analysis}
    (ha : Analysis.ofText w.options text = .ok a) (w' : Workspace)
    (hsession : (w'.sessions.get? document).getD .empty = .ofAnalysis a) :
    InStep w' ⟨a.diagnostics.map (·.publish a.lineIndex),
      (view.apply (((w.sessions.get? document).getD .empty).cleared.add a)).single,
      (view.apply (((w.sessions.get? document).getD .empty).cleared.add a)).multi⟩ document
      (some (text, a)) := by
  obtain ⟨hsingle, hmulti⟩ := Analysis.ofText_grouped ha
  rw [h.cleared_eq, DecorationUpdate.add, Analysis.ofText_lineIndex ha]
  exact ⟨hsession, rfl, h.single.update hsingle.distinct, h.multi.update hmulti.distinct⟩

end InStep

/-! ## Calls -/

namespace Editor

theorem step_options (e : Editor) (call : Call) :
    (e.step call).workspace.options = e.workspace.options := by
  cases call with
  | update document text =>
      simp only [step, Workspace.update]
      split <;> rfl
  | close document => rfl

theorem step_of_ne (e : Editor) {call : Call} {document : String} (h : call.document ≠ document) :
    (e.step call).host document = e.host document ∧
      (e.step call).workspace.sessions.get? document = e.workspace.sessions.get? document := by
  cases call with
  | update other text =>
      have hne : document ≠ other := fun heq => h heq.symm
      simp only [step, Workspace.update]
      split
      · simp [Host.receive, Host.modify, hne, OrderedMap.get?_insert_of_ne]
      · simp [Host.receive, Host.modify, hne, OrderedMap.get?_insert_of_ne]
  | close other =>
      have hne : document ≠ other := fun heq => h heq.symm
      simp only [step, Workspace.close, OrderedMap.get?_erase, if_neg hne, and_true]
      split <;> simp [Host.receive, Host.modify, hne]

theorem step_inStep (e : Editor) (call : Call) {outcome : Option (List Char × Analysis)}
    (h : InStep e.workspace (e.host call.document) call.document outcome) :
    InStep (e.step call).workspace ((e.step call).host call.document) call.document
      (call.outcome? e.workspace.options) := by
  cases call with
  | update document text =>
      simp only [Call.document] at h
      cases ha : Analysis.ofText e.workspace.options text with
      | error error =>
          have hcleared := h.clear
            ⟨e.workspace.options, e.workspace.sessions.insert document .empty⟩ (by simp)
          simpa [step, Workspace.update, ha, Call.outcome?, Call.document, Host.receive,
            Host.modify, Except.toOption, HostView.apply] using hcleared
      | ok a =>
          have hpublished := h.publish ha
            ⟨e.workspace.options, e.workspace.sessions.insert document (.ofAnalysis a)⟩ (by simp)
          simpa [step, Workspace.update, ha, Call.outcome?, Call.document, Host.receive,
            Host.modify, Except.toOption, HostView.apply] using hpublished
  | close document =>
      simp only [Call.document] at h
      have hcleared := h.clear ⟨e.workspace.options, e.workspace.sessions.erase document⟩
        (by simp [OrderedMap.get?_erase])
      cases hsession : e.workspace.sessions.get? document with
      | some session =>
          simpa [step, Workspace.close, hsession, Call.outcome?, Call.document, Host.receive,
            Host.modify, HostView.apply] using hcleared
      | none =>
          -- Nothing was remembered, so nothing is listed and the view stays as it is.
          have hsame : (e.host document).apply Session.empty.cleared = e.host document := rfl
          rw [hsession, Option.getD_none, hsame] at hcleared
          simpa [step, Workspace.close, hsession, Call.outcome?, Call.document, Host.receive,
            Host.modify] using hcleared

theorem run_options (options : Options) (calls : List Call) :
    (run options calls).workspace.options = options := by
  induction calls using List.reverseRecOn with
  | nil => rfl
  | append_singleton calls call ih => rw [run_append, step_options, ih]

/-- The run lemma: workspace and host agree about every document after all calls. -/
theorem run_inStep (options : Options) (calls : List Call) (document : String) :
    InStep (run options calls).workspace ((run options calls).host document) document
      ((Call.last? document calls).bind (·.outcome? options)) := by
  induction calls using List.reverseRecOn with
  | nil => exact ⟨rfl, rfl, Reflects.empty _, Reflects.empty _⟩
  | append_singleton calls call ih =>
      rw [run_append, Call.last?_append]
      by_cases h : call.document = document
      · subst h
        have hstep := step_inStep (run options calls) call ih
        rw [run_options] at hstep
        simpa using hstep
      · obtain ⟨hhost, hsessions⟩ := step_of_ne (run options calls) h
        rw [if_neg h, hhost]
        exact ⟨by rw [hsessions]; exact ih.session, ih.diagnostics, ih.single, ih.multi⟩

end Editor

/-! ## What is shown -/

namespace HostView

/-- The view shows an analysis of a text: its problems in order, at the ranges of their primary
spans, and, of the colors with ranges, exactly its decorations. -/
structure Shows (view : HostView) (text : List Char) (a : Analysis) : Prop where
  diagnostics : List.Forall₂
    (fun (shown : PublishedDiagnostic) (d : Diagnostic) => ∃ span, d.primarySpan? = some span ∧
      shown = ⟨(LineIndex.ofText text).range span, d.message, d.code, d.severity⟩)
    view.diagnostics a.diagnostics
  single : (visible view.single).Perm
    (a.decorations.single.mapValues (·.map (LineIndex.ofText text).range)).entries
  multi : (visible view.multi).Perm
    (a.decorations.multi.mapValues (·.map (LineIndex.ofText text).range)).entries

structure ShowsNothing (view : HostView) : Prop where
  diagnostics : view.diagnostics = []
  single : visible view.single = []
  multi : visible view.multi = []

end HostView

theorem InStep.shows {w : Workspace} {view : HostView} {document : String} {options : Options}
    {text : List Char} {a : Analysis} (ha : Analysis.ofText options text = .ok a)
    (h : InStep w view document (some (text, a))) : view.Shows text a := by
  obtain ⟨hsingle, hmulti⟩ := Analysis.ofText_grouped ha
  refine ⟨?_, h.single.visible_perm hsingle, h.multi.visible_perm hmulti⟩
  obtain ⟨read, -, hdocument⟩ := Analysis.ofText_eq_ok.mp ha
  have hwell := (Analysis.ofDocument_wellFormed hdocument).diagnostics
  rw [h.diagnostics, publishedOf, List.forall₂_map_left_iff, List.forall₂_same]
  intro d hd
  obtain ⟨span, hspan⟩ := (hwell d hd).primarySpan?
  exact ⟨span, hspan, by rw [Diagnostic.publish, hspan, Option.getD_some]⟩

theorem InStep.showsNothing {w : Workspace} {view : HostView} {document : String}
    (h : InStep w view document none) : view.ShowsNothing :=
  ⟨h.diagnostics, h.single.visible_eq_nil, h.multi.visible_eq_nil⟩

/-- After every sequence of calls, the host shows of every document what the last call on it left:
the analysis of its text if that call was an update that succeeded, and otherwise nothing. -/
theorem host_shows_last_outcome (options : Options) (calls : List Call) (document : String) :
    match Call.last? document calls with
    | some (.update _ text) =>
        match Analysis.ofText options text with
        | .ok a =>
            ((Editor.run options calls).host document).Shows text a ∧
              (Editor.run options calls).workspace.analysis? document = some a
        | .error _ =>
            ((Editor.run options calls).host document).ShowsNothing ∧
              (Editor.run options calls).workspace.analysis? document = none
    | some (.close _) | none =>
        ((Editor.run options calls).host document).ShowsNothing ∧
          (Editor.run options calls).workspace.analysis? document = none := by
  have h := Editor.run_inStep options calls document
  cases hlast : Call.last? document calls with
  | none =>
      rw [hlast] at h
      exact ⟨h.showsNothing, h.analysis?_eq⟩
  | some call =>
      rw [hlast, Option.bind_some] at h
      cases call with
      | close d => exact ⟨h.showsNothing, h.analysis?_eq⟩
      | update d text =>
          rw [Call.outcome?] at h
          cases ha : Analysis.ofText options text with
          | error error =>
              rw [ha] at h
              simp only [ha]
              exact ⟨h.showsNothing, h.analysis?_eq⟩
          | ok a =>
              rw [ha] at h
              simp only [ha]
              exact ⟨InStep.shows ha h, h.analysis?_eq⟩

end DesignTokens
