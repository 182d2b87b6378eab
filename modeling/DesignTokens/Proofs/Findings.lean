import DesignTokens.Proofs.OrderedMap
import DesignTokens.Proofs.Pass

/-!
The form of what a pass finds.

Every problem has a code and one primary label, and only a theme declared twice is a warning.  The
decorations hold no key twice and no key without a place, and the rows of swatches are the hovers of
the pass, grouped by their colors.
-/

namespace DesignTokens

namespace Diagnostic

/-- One primary label, a code, and the severity that goes with the code. -/
structure WellFormed (d : Diagnostic) : Prop where
  primary : (d.labels.filter (·.isPrimary)).length = 1
  code : d.code.isSome = true
  severity : d.severity = .warning ↔ d.code = some .duplicateTheme

theorem errorAt_wellFormed {code : Code} (h : code ≠ .duplicateTheme) (message : String)
    (span : Span) (label : String) : (errorAt code message span label).WellFormed :=
  ⟨rfl, rfl, by simp [errorAt, h]⟩

/-- A problem of this form that is not about a literal, so that no option leaves it out. -/
structure Structural (d : Diagnostic) : Prop extends WellFormed d where
  code_ne : d.code ≠ some .invalidLiteral

theorem errorAt_structural {code : Code} (h : code ≠ .duplicateTheme) (hcode : code ≠ .invalidLiteral)
    (message : String) (span : Span) (label : String) :
    (errorAt code message span label).Structural :=
  ⟨errorAt_wellFormed h message span label, by simpa [errorAt] using hcode⟩

theorem WellFormed.primarySpan? {d : Diagnostic} (h : d.WellFormed) :
    ∃ span, d.primarySpan? = some span := by
  have hlength := h.primary
  rw [Diagnostic.primarySpan?]
  cases hfind : d.labels.find? (·.isPrimary) with
  | some label => exact ⟨label.span, rfl⟩
  | none =>
      have hnone : d.labels.filter (·.isPrimary) = [] :=
        List.filter_eq_nil_iff.mpr (List.find?_eq_none.mp hfind)
      rw [hnone] at hlength
      cases hlength

end Diagnostic

/-! ## Problems -/

namespace Themes

/-- The declarations of themes report problems of three kinds only. -/
theorem declare_reports {P : Diagnostic → Prop}
    (hbad : ∀ rendered span, P (Declared.badTheme rendered span))
    (hduplicate : ∀ name span first, P (Declared.duplicateTheme name span first))
    (htarget : ∀ target span, P (Declared.unknownTarget target span)) {anchor : Span} {d : Declared}
    {value : Yaml.Value} (h : ∀ x ∈ d.diagnostics, P x) :
    ∀ x ∈ (d.declare anchor value).diagnostics, P x := by
  intro x hx
  simp only [Declared.declare] at hx
  split at hx
  · simp only [Declared.report, Declared.find, List.mem_append, List.mem_singleton] at hx
    rcases hx with hx | rfl
    · exact h x hx
    · exact hbad _ _
  · split at hx
    · simp only [Declared.report, Declared.find, List.mem_append, List.mem_singleton] at hx
      rcases hx with hx | rfl
      · exact h x hx
      · exact hduplicate _ _ _
    · simp only [Declared.report, Declared.find, List.mem_append, List.mem_singleton] at hx
      rcases hx with hx | rfl
      · exact h x hx
      · exact htarget _ _
    · exact h x hx

theorem build_reports {P : Diagnostic → Prop}
    (hbad : ∀ rendered span, P (Declared.badTheme rendered span))
    (hduplicate : ∀ name span first, P (Declared.duplicateTheme name span first))
    (htarget : ∀ target span, P (Declared.unknownTarget target span)) (text : List Char)
    (anchor : Span) (values : List Yaml.Value) : ∀ x ∈ (build text anchor values).2, P x := by
  suffices hgen : ∀ d : Declared, (∀ x ∈ d.diagnostics, P x) →
      ∀ x ∈ (values.foldl (Declared.declare anchor) d).diagnostics, P x from
    hgen _ (by simp)
  induction values with
  | nil => exact fun d hd => hd
  | cons value values ih =>
      exact fun d hd => ih _ (declare_reports hbad hduplicate htarget hd)

theorem build_structural (text : List Char) (anchor : Span) (values : List Yaml.Value) :
    ∀ x ∈ (build text anchor values).2, x.Structural :=
  build_reports (fun _ _ => Diagnostic.errorAt_structural (by decide) (by decide) _ _ _)
    (fun _ _ _ => ⟨⟨rfl, rfl, by simp [Declared.duplicateTheme]⟩, by simp [Declared.duplicateTheme]⟩)
    (fun _ _ => Diagnostic.errorAt_structural (by decide) (by decide) _ _ _) text anchor values

end Themes

namespace Analysis

theorem Platforms.check?_structural {setting : Setting} {inherited : List String} {path : ItemPath}
    {platform : String} {span : Span} {d : Diagnostic}
    (h : Platforms.check? setting inherited path platform span = some d) : d.Structural := by
  simp only [Platforms.check?] at h
  split at h
  · cases h
    exact Diagnostic.errorAt_structural (by decide) (by decide) _ _ _
  · split at h
    · cases h
      exact Diagnostic.errorAt_structural (by decide) (by decide) _ _ _
    · cases h

theorem Platforms.checkFrom_structural (setting : Setting) (inherited : List String)
    (path : ItemPath) (key : Span) (cursor : Cursor) (platforms : List String) :
    ∀ d ∈ (Platforms.checkFrom setting inherited path key cursor platforms).2, d.Structural := by
  induction platforms generalizing cursor with
  | nil => simp [Platforms.checkFrom]
  | cons platform platforms ih =>
      intro d hd
      simp only [Platforms.checkFrom, List.mem_append, Option.mem_toList] at hd
      rcases hd with hd | hd
      · exact Platforms.check?_structural hd
      · exact ih _ d hd

theorem Platforms.check_structural {setting : Setting} {own inherited : List String}
    {path : ItemPath} {cursor after : Cursor} {diagnostics : List Diagnostic}
    (h : Platforms.check setting own inherited path cursor = .ok (after, diagnostics)) :
    ∀ d ∈ diagnostics, d.Structural := by
  simp only [Platforms.check] at h
  split at h
  · cases h
    simp
  · simp only [bind_eq_ok, pure_eq_ok] at h
    obtain ⟨key, -, h⟩ := h
    have hchecked := Platforms.checkFrom_structural setting inherited path key
      (cursor.advanceTo key.stop) own
    rw [h] at hchecked
    exact hchecked

theorem EntryFault.report?_wellFormed {fault : EntryFault} {setting : Setting} {site : Span}
    {d : Diagnostic} (h : fault.report? setting site = some d) : d.WellFormed := by
  simp only [EntryFault.report?] at h
  split at h
  · cases fault <;> simp only [EntryFault.subject?, EntryFault.diagnosticAt?, bind, Option.bind,
      Option.some.injEq, reduceCtorEq] at h <;> subst h <;>
      exact Diagnostic.errorAt_wellFormed (by decide) _ _ _
  · cases h

namespace ItemContext

theorem settle_wellFormed (c : ItemContext) (site : Option Span) (result : Except EntryFault Value) :
    ∀ d ∈ (c.settle site result).2, d.WellFormed := by
  cases result with
  | ok v => simp [settle]
  | error fault =>
      intro d hd
      simp only [settle, Option.mem_toList, Option.bind_eq_some_iff] at hd
      obtain ⟨span, -, hd⟩ := hd
      exact EntryFault.report?_wellFormed hd

theorem resolveThemes_wellFormed {c : ItemContext} {type : ItemType} {themes : List String}
    {values : List (String × Value)} {diagnostics : List Diagnostic}
    (h : c.resolveThemes type themes = .ok (values, diagnostics)) :
    ∀ d ∈ diagnostics, d.WellFormed := by
  induction themes generalizing values diagnostics with
  | nil =>
      cases h
      simp
  | cons theme themes ih =>
      simp only [resolveThemes] at h
      split at h
      · exact ih h
      · simp only [bind_eq_ok, pure_eq_ok] at h
        obtain ⟨origin, -, ⟨others, rest⟩, hrest, h⟩ := h
        cases h
        intro d hd
        rcases List.mem_append.mp hd with hd | hd
        · exact settle_wellFormed c _ _ d hd
        · exact ih hrest d hd

theorem missingValue_structural (c : ItemContext) : c.missingValue.Structural :=
  Diagnostic.errorAt_structural (by decide) (by decide) _ _ _

theorem resolve_wellFormed {c : ItemContext} {type : ItemType} {bundle : Bundle}
    {diagnostics : List Diagnostic} (h : c.resolve type = .ok (bundle, diagnostics)) :
    ∀ d ∈ diagnostics, d.WellFormed := by
  simp only [resolve] at h
  split at h
  · simp only [resolveShared] at h
    split at h
    · cases h
      intro d hd
      rw [List.mem_singleton.mp hd]
      exact (missingValue_structural c).toWellFormed
    · simp only [bind_eq_ok, pure_eq_ok] at h
      obtain ⟨key, -, h⟩ := h
      cases h
      exact settle_wellFormed c _ _
  · simp only [bind_eq_ok, pure_eq_ok] at h
    obtain ⟨⟨values, rest⟩, hthemes, h⟩ := h
    cases h
    exact resolveThemes_wellFormed hthemes

theorem themeProblems_structural {c : ItemContext} {diagnostics : List Diagnostic}
    (h : c.themeProblems = .ok diagnostics) : ∀ d ∈ diagnostics, d.Structural := by
  simp only [themeProblems] at h
  split at h
  · cases h
    simp
  · simp only [bind_eq_ok, pure_eq_ok] at h
    obtain ⟨unknown, hunknown, rfl⟩ := h
    intro d hd
    rcases List.mem_append.mp hd with hd | hd
    · simp only [missingDefault?, Option.mem_toList, bind, Option.bind_eq_some_iff] at hd
      obtain ⟨name, -, hd⟩ := hd
      split at hd
      · cases hd
      · cases hd
        exact ⟨⟨rfl, rfl, by simp⟩, by simp⟩
    · obtain ⟨name, -, hname⟩ := exists_of_mem_mapM hunknown hd
      simp only [bind_eq_ok, pure_eq_ok] at hname
      obtain ⟨span, -, rfl⟩ := hname
      exact Diagnostic.errorAt_structural (by decide) (by decide) _ _ _

theorem badType_structural {c : ItemContext} {marker : String} {problem : Diagnostic}
    (h : c.badType marker = .ok problem) : problem.Structural := by
  simp only [badType, bind_eq_ok, pure_eq_ok] at h
  obtain ⟨key, -, rfl⟩ := h
  exact Diagnostic.errorAt_structural (by decide) (by decide) _ _ _

theorem Checked.structural {c : ItemContext} {inherited : List String}
    {platforms themes : List Diagnostic} (h : c.Checked inherited platforms themes) :
    ∀ d ∈ platforms ++ themes, d.Structural := by
  obtain ⟨⟨after, hplatforms⟩, hthemes⟩ := h
  exact List.forall_mem_append.mpr
    ⟨Platforms.check_structural hplatforms, themeProblems_structural hthemes⟩

theorem report_wellFormed {c : ItemContext} {inherited : List String} {r : ItemReport}
    (h : c.report inherited = .ok r) : ∀ d ∈ r.diagnostics, d.WellFormed := by
  intro d hd
  obtain ⟨-, ⟨marker, hr⟩ | ⟨type, bundle, hr⟩⟩ := report_cases h
  · obtain ⟨platforms, themes, problem, hc, hproblem, hdiagnostics⟩ := hr.diagnostics_eq
    rw [hdiagnostics] at hd
    rcases List.mem_append.mp hd with hd | hd
    · exact (hc.structural d hd).toWellFormed
    · rw [List.mem_singleton.mp hd]
      exact (badType_structural hproblem).toWellFormed
  · obtain ⟨platforms, themes, values, hc, hvalues, hdiagnostics⟩ := hr.diagnostics_eq
    rw [hdiagnostics] at hd
    rcases List.mem_append.mp hd with hd | hd
    · exact (hc.structural d hd).toWellFormed
    · exact resolve_wellFormed hvalues d hd

end ItemContext

/-! ## Decorations -/

/-- A place for every key, and no key twice. -/
structure Grouped {α : Type} [DecidableEq α] (m : OrderedMap α (List Span)) : Prop where
  distinct : m.Distinct
  placed : ∀ {key spans}, m.get? key = some spans → spans ≠ []

theorem Grouped.empty {α : Type} [DecidableEq α] :
    Grouped (OrderedMap.empty : OrderedMap α (List Span)) :=
  ⟨OrderedMap.distinct_empty, by simp [OrderedMap.get?, OrderedMap.empty, OrderedMap.find]⟩

theorem Grouped.extend {α : Type} [DecidableEq α] {m : OrderedMap α (List Span)}
    (h : Grouped m) (key : α) (span : Span) : Grouped (m.extend key [span]) := by
  refine ⟨h.distinct.extend key [span], ?_⟩
  intro other spans hother
  rw [OrderedMap.get?_extend] at hother
  split at hother
  · cases hother
    simp
  · exact h.placed hother

/-- The places of rows of swatches, grouped by the colors of the row. -/
def rowsOf (hovers : List Hover) : OrderedMap String (List Span) :=
  hovers.foldl (fun m h => m.extend (Hover.rowKey h.colors) [h.span]) .empty

theorem foldl_addSingle (swatches : List (Color × Span)) (d : Decorations) :
    (Grouped d.single →
      Grouped (swatches.foldl (fun d (color, span) => d.addSingle color span) d).single) ∧
    (swatches.foldl (fun d (color, span) => d.addSingle color span) d).multi = d.multi := by
  induction swatches generalizing d with
  | nil => exact ⟨id, rfl⟩
  | cons s rest ih =>
      obtain ⟨hsingle, hmulti⟩ := ih (d.addSingle s.1 s.2)
      exact ⟨fun h => hsingle (h.extend s.1 s.2), hmulti⟩

theorem decorate_multi (d : Decorations) (r : ItemReport) (hovers : List Hover)
    (h : d.multi = rowsOf hovers) :
    (Findings.decorate d r).multi = rowsOf (hovers ++ r.hover.toList) := by
  have hmulti := (foldl_addSingle r.swatches d).2
  rw [Findings.decorate]
  cases hhover : r.hover with
  | none =>
      rw [Option.toList_none, List.append_nil]
      exact hmulti.trans h
  | some hover =>
      simp only [Decorations.addMulti, hmulti, h, rowsOf, Option.toList_some, List.foldl_append,
        List.foldl_cons, List.foldl_nil]

theorem decorate_grouped {d : Decorations} (h : Grouped d.single ∧ Grouped d.multi)
    (r : ItemReport) :
    Grouped (Findings.decorate d r).single ∧ Grouped (Findings.decorate d r).multi := by
  obtain ⟨hsingle, hmulti⟩ := foldl_addSingle r.swatches d
  rw [Findings.decorate]
  split
  · next hover _ =>
      refine ⟨hsingle h.1, ?_⟩
      simp only [Decorations.addMulti, hmulti]
      exact h.2.extend _ _
  · exact ⟨hsingle h.1, hmulti ▸ h.2⟩

/-! ## The whole pass -/

namespace Findings

/-- What holds of the findings at every point of a pass. -/
structure WellFormed (f : Findings) : Prop where
  diagnostics : ∀ d ∈ f.diagnostics, d.WellFormed
  decorations : Grouped f.decorations.single ∧ Grouped f.decorations.multi
  rows : f.decorations.multi = rowsOf f.hovers

theorem WellFormed.addDiagnostics {f : Findings} (h : f.WellFormed) {diagnostics : List Diagnostic}
    (hnew : ∀ d ∈ diagnostics, d.WellFormed) : (f.addDiagnostics diagnostics).WellFormed := by
  refine ⟨?_, h.decorations, h.rows⟩
  intro d hd
  rcases List.mem_append.mp hd with hd | hd
  · exact h.diagnostics d hd
  · exact hnew d hd

theorem WellFormed.addItem {f : Findings} (h : f.WellFormed) {r : ItemReport}
    (hnew : ∀ d ∈ r.diagnostics, d.WellFormed) (path : ItemPath) : (f.addItem path r).WellFormed := by
  refine ⟨?_, decorate_grouped h.decorations r, decorate_multi _ r _ h.rows⟩
  intro d hd
  rcases List.mem_append.mp hd with hd | hd
  · exact h.diagnostics d hd
  · exact hnew d hd

theorem empty_wellFormed : empty.WellFormed :=
  ⟨by simp [empty], ⟨Grouped.empty, Grouped.empty⟩, rfl⟩

end Findings

theorem readThemes_structural {text : List Char} {document : Document} {themes : Themes}
    {diagnostics : List Diagnostic} (h : readThemes text document = .ok (themes, diagnostics)) :
    ∀ d ∈ diagnostics, d.Structural := by
  simp only [readThemes] at h
  split at h
  · cases h
    simp
  · next values _ =>
      simp only [bind_eq_ok, pure_eq_ok] at h
      obtain ⟨anchor, -, h⟩ := h
      have hbuilt := Themes.build_structural text anchor values
      rw [h] at hbuilt
      exact hbuilt

theorem Run.wellFormed {setting : Setting} {visits : List Visit} {f f' : Findings}
    (hrun : Run setting visits f f') (hf : f.WellFormed) : f'.WellFormed :=
  hrun.inv (fun _ hcheck hg => hg.addDiagnostics fun d hd =>
      (Platforms.check_structural hcheck d hd).toWellFormed)
    (fun _ hreport hg => hg.addItem (ItemContext.report_wellFormed hreport) _) hf

theorem ofDocument_wellFormed {options : Options} {text : List Char} {document : Document}
    {a : Analysis} (h : ofDocument options text document = .ok a) :
    Findings.WellFormed ⟨a.registry, a.diagnostics, a.decorations, a.hovers⟩ := by
  obtain ⟨diagnostics, hthemes, -, hrun⟩ := ofDocument_run h
  exact hrun.wellFormed (Findings.empty_wellFormed.addDiagnostics fun d hd =>
    (readThemes_structural hthemes d hd).toWellFormed)

end Analysis
end DesignTokens
