import DesignTokens.Proofs.CleanDocument
import DesignTokens.Proofs.WalkOrder
import Mathlib.Data.List.Induction

/-!
Which items an import can see.

At every moment of a pass the registry holds, for each printed path, the last item walked so far that
is registered under it.  An item is resolved before it is registered, so its imports see exactly the
items above it: neither the item itself nor any item below.
-/

namespace DesignTokens
namespace Analysis

/-! ## What one item leaves in the registry -/

namespace ItemContext

theorem resolve_shared {c : ItemContext} (hshared : c.path.isShared = true) {type : ItemType}
    {bundle : Bundle} {diagnostics : List Diagnostic}
    (h : c.resolve type = .ok (bundle, diagnostics)) : ∃ value, bundle = .shared type value := by
  rw [resolve, if_pos hshared, resolveShared] at h
  split at h
  · cases h
    exact ⟨none, rfl⟩
  · simp only [bind_eq_ok, pure_eq_ok] at h
    obtain ⟨site, -, h⟩ := h
    cases h
    exact ⟨_, rfl⟩

theorem resolve_themed {c : ItemContext} (hshared : c.path.isShared = false) {type : ItemType}
    {bundle : Bundle} {diagnostics : List Diagnostic}
    (h : c.resolve type = .ok (bundle, diagnostics)) :
    ∃ values, c.resolveThemes type c.setting.themes.names = .ok (values, diagnostics) ∧
      bundle = .themed type (.ofList values) := by
  have hpath : ¬c.path.isShared = true := by simp [hshared]
  rw [resolve, if_neg hpath] at h
  simp only [bind_eq_ok, pure_eq_ok] at h
  obtain ⟨⟨values, problems⟩, hvalues, h⟩ := h
  cases h
  exact ⟨values, hvalues, rfl⟩

end ItemContext

namespace ItemVisit

/-- The item has a known type, and its path prints as the given one. -/
def RegisteredAt (v : ItemVisit) (path : String) : Prop :=
  v.context.item.type.isOk = true ∧ v.context.path.text = path

instance (v : ItemVisit) (path : String) : Decidable (v.RegisteredAt path) :=
  inferInstanceAs (Decidable (_ ∧ _))

/-- An item is registered exactly if its type is known. -/
theorem isSome_bundle {v : ItemVisit} (h : v.context.report v.inherited = .ok v.report) :
    v.report.bundle.isSome = v.context.item.type.isOk := by
  rcases (ItemContext.report_cases h).2 with ⟨marker, hr⟩ | ⟨type, bundle, hr⟩
  · rw [hr.bundle_eq, hr.type_eq]
    rfl
  · rw [hr.bundle_eq, hr.type_eq]
    rfl

/-- What an item of a known type is resolved to. -/
theorem exists_resolve {v : ItemVisit} (h : v.context.report v.inherited = .ok v.report)
    {bundle : Bundle} (hbundle : v.report.bundle = some bundle) :
    ∃ type diagnostics, v.context.item.type = .ok type ∧
      v.context.resolve type = .ok (bundle, diagnostics) := by
  rcases (ItemContext.report_cases h).2 with ⟨marker, hr⟩ | ⟨type, found, hr⟩
  · rw [hr.bundle_eq] at hbundle
    cases hbundle
  · rw [hr.bundle_eq] at hbundle
    cases hbundle
    obtain ⟨platforms, themes, values, -, hresolve, -⟩ := hr.diagnostics_eq
    exact ⟨type, values, hr.type_eq, hresolve⟩

end ItemVisit

/-! ## The registry at every moment -/

/-- The visit is the last one whose item is registered at the path. -/
def IsLastAt (path : String) (visits : List ItemVisit) (w : ItemVisit) : Prop :=
  ∃ before after, visits = before ++ w :: after ∧ w.RegisteredAt path ∧
    ∀ x ∈ after, ¬x.RegisteredAt path

theorem isLastAt_concat {path : String} {visits : List ItemVisit} {v w : ItemVisit} :
    IsLastAt path (visits ++ [v]) w ↔
      (w = v ∧ v.RegisteredAt path) ∨ (¬v.RegisteredAt path ∧ IsLastAt path visits w) := by
  constructor
  · rintro ⟨before, after, heq, hw, hafter⟩
    rcases List.eq_nil_or_concat after with rfl | ⟨rest, last, rfl⟩
    · obtain ⟨rfl, hlast⟩ := List.append_inj' heq rfl
      cases hlast
      exact .inl ⟨rfl, hw⟩
    · rw [List.concat_eq_append] at heq hafter
      rw [← List.cons_append, ← List.append_assoc] at heq
      obtain ⟨rfl, hlast⟩ := List.append_inj' heq rfl
      cases hlast
      rw [List.forall_mem_append] at hafter
      exact .inr ⟨hafter.2 v List.mem_cons_self, before, rest, rfl, hw, hafter.1⟩
  · rintro (⟨rfl, hw⟩ | ⟨hv, before, after, rfl, hw, hafter⟩)
    · exact ⟨visits, [], rfl, hw, by simp⟩
    · refine ⟨before, after ++ [v], by simp, hw, List.forall_mem_append.mpr ⟨hafter, ?_⟩⟩
      simpa using hv

theorem exists_isLastAt {path : String} {visits : List ItemVisit} :
    (∃ w, IsLastAt path visits w) ↔ ∃ w ∈ visits, w.RegisteredAt path := by
  constructor
  · rintro ⟨w, before, after, rfl, hw, -⟩
    exact ⟨w, by simp, hw⟩
  · intro h
    induction visits using List.reverseRecOn with
    | nil => simp at h
    | append_singleton visits v ih =>
        by_cases hv : v.RegisteredAt path
        · exact ⟨v, isLastAt_concat.mpr (.inl ⟨rfl, hv⟩)⟩
        · obtain ⟨w, hmem, hw⟩ := h
          rcases List.mem_append.mp hmem with hmem | hmem
          · obtain ⟨last, hlast⟩ := ih ⟨w, hmem, hw⟩
            exact ⟨last, isLastAt_concat.mpr (.inr ⟨hv, hlast⟩)⟩
          · exact absurd (List.mem_singleton.mp hmem ▸ hw) hv

/-- One more visit: its bundle is found at its path, and all else is found as before. -/
theorem get?_registryAfter_concat {registry : Registry} {visits : List ItemVisit} {v : ItemVisit}
    (hv : v.context.report v.inherited = .ok v.report) (path : String) :
    (registryAfter registry (visits ++ [v])).get? path =
      if v.RegisteredAt path then v.report.bundle
      else (registryAfter registry visits).get? path := by
  have htype := ItemVisit.isSome_bundle hv
  rw [registryAfter_append]
  cases hbundle : v.report.bundle with
  | none =>
      rw [hbundle] at htype
      have hnot : ¬v.RegisteredAt path := by
        rintro ⟨hknown, -⟩
        rw [← htype] at hknown
        cases hknown
      simp [registryAfter, ItemVisit.entry?, hbundle, hnot]
  | some bundle =>
      rw [hbundle] at htype
      have hiff : v.RegisteredAt path ↔ path = v.context.path.text :=
        ⟨fun h => h.2.symm, fun h => ⟨htype.symm, h.symm⟩⟩
      have hentry : [v].filterMap ItemVisit.entry? = [(v.context.path.text, bundle)] := by
        simp [ItemVisit.entry?, hbundle]
      rw [registryAfter, hentry, List.foldl_cons, List.foldl_nil, OrderedMap.get?_insert]
      simp only [hiff]

/-- At every moment, a path leads to the last item registered at it. -/
theorem get?_registryAfter {visits : List ItemVisit}
    (hvisits : ∀ v ∈ visits, v.context.report v.inherited = .ok v.report) {path : String}
    {bundle : Bundle} :
    (registryAfter .empty visits).get? path = some bundle ↔
      ∃ w, IsLastAt path visits w ∧ w.report.bundle = some bundle := by
  -- From the end: the last visit replaces what is at its path and leaves all else.
  induction visits using List.reverseRecOn with
  | nil => simp [registryAfter, OrderedMap.empty, OrderedMap.get?, OrderedMap.find, IsLastAt]
  | append_singleton visits v ih =>
      rw [List.forall_mem_append] at hvisits
      rw [get?_registryAfter_concat (hvisits.2 v List.mem_cons_self) path]
      simp only [isLastAt_concat]
      by_cases hv : v.RegisteredAt path
      · simp [hv]
      · simp [hv, ih hvisits.1]

theorem get?_registryAfter_eq_none {visits : List ItemVisit}
    (hvisits : ∀ v ∈ visits, v.context.report v.inherited = .ok v.report) {path : String} :
    (registryAfter .empty visits).get? path = none ↔ ∀ w ∈ visits, ¬w.RegisteredAt path := by
  rw [← not_iff_not]
  simp only [← ne_eq, Option.ne_none_iff_exists', get?_registryAfter hvisits]
  constructor
  · rintro ⟨bundle, w, hlast, -⟩ hnone
    obtain ⟨w', hmem, hw'⟩ := exists_isLastAt.mp ⟨w, hlast⟩
    exact hnone w' hmem hw'
  · intro h
    push Not at h
    obtain ⟨w, hlast⟩ := exists_isLastAt.mpr h
    obtain ⟨before, after, rfl, hw, -⟩ := id hlast
    have hsome := ItemVisit.isSome_bundle (hvisits w (by simp))
    rw [hw.1] at hsome
    obtain ⟨bundle, hbundle⟩ := Option.isSome_iff_exists.mp hsome
    exact ⟨bundle, w, hlast, hbundle⟩

/-! ## What an import finds -/

theorem EntryContext.importValue_eq_missing {c : EntryContext} {path : String}
    {expected : ItemType} {key : String} :
    c.importValue path expected key = .error (.missingImport path) ↔
      c.registry.get? path = none := by
  rw [EntryContext.importValue]
  cases c.registry.get? path with
  | none => simp
  | some bundle =>
      by_cases htype : bundle.type = expected
      · cases hvalue : bundle.valueFor key <;> simp [htype, hvalue]
      · simp [htype]

/-- An item sees exactly the items above it.  A path leads to the last of them that is registered at
it; an import of a value or of an opacity misses its path exactly if none is, and what it gives is
the value of that last one. -/
structure SeesAbove (above : List ItemVisit) (c : ItemContext) : Prop where
  found : ∀ path bundle, c.registry.get? path = some bundle ↔
    ∃ w, IsLastAt path above w ∧ w.report.bundle = some bundle
  missing : ∀ type path expected key,
    (c.entryContext type).importValue path expected key = .error (.missingImport path) ↔
      ∀ w ∈ above, ¬w.RegisteredAt path
  used : ∀ type path expected key value,
    (c.entryContext type).importValue path expected key = .ok value ↔
      ∃ w bundle, IsLastAt path above w ∧ w.report.bundle = some bundle ∧
        bundle.type = expected ∧ bundle.valueFor key = some value

theorem seesAbove_of_registry {above : List ItemVisit} {c : ItemContext}
    (habove : ∀ v ∈ above, v.context.report v.inherited = .ok v.report)
    (h : c.registry = registryAfter .empty above) : SeesAbove above c where
  found path bundle := by
    rw [h]
    exact get?_registryAfter habove
  missing type path expected key := by
    rw [EntryContext.importValue_eq_missing, ItemContext.entryContext, h]
    exact get?_registryAfter_eq_none habove
  used type path expected key value := by
    rw [EntryContext.importValue_eq_ok, ItemContext.entryContext, h]
    simp only [get?_registryAfter habove]
    constructor
    · rintro ⟨bundle, ⟨w, hlast, hbundle⟩, htype, hvalue⟩
      exact ⟨w, bundle, hlast, hbundle, htype, hvalue⟩
    · rintro ⟨w, bundle, hlast, hbundle, htype, hvalue⟩
      exact ⟨bundle, ⟨w, hlast, hbundle⟩, htype, hvalue⟩

/-! ## The sections -/

mutual

theorem nodeVisits_subjects (inherited : List String) (path : ItemPath) (node : Node) :
    (nodeVisits inherited path node).filterMap Visit.subject? = nodeItems path node := by
  cases node with
  | item content => rfl
  | collection own members =>
      rw [nodeVisits, nodeItems]
      exact memberVisits_subjects own inherited path members

theorem memberVisits_subjects (own : Option (List String)) (inherited : List String)
    (path : ItemPath) (members : List Member) :
    (memberVisits own inherited path members).filterMap Visit.subject? =
      memberItems path members := by
  match members with
  | [] => rfl
  | .platforms :: members =>
      rw [memberVisits, memberItems, ← memberVisits_subjects own inherited path members]
      rfl
  | .child key node :: members =>
      rw [memberVisits, memberItems, List.filterMap_append, nodeVisits_subjects,
        memberVisits_subjects]

end

theorem sectionVisits_subjects (inherited : List String) (path : ItemPath) (node : Option Node) :
    (sectionVisits inherited path node).filterMap Visit.subject? = sectionItems path node := by
  cases node with
  | none => rfl
  | some node => exact nodeVisits_subjects inherited path node

namespace IsLog

variable {options : Options} {text : List Char} {document : Document} {a : Analysis} {log : Log}

theorem isShared_of_mem_shared (h : IsLog options text document a log) {v : ItemVisit}
    (hv : v ∈ log.shared) : v.context.path.isShared = true := by
  have hmem : v.subject ∈ sectionItems .shared document.shared :=
    h.shared ▸ List.mem_map_of_mem hv
  rw [← sectionVisits_subjects []] at hmem
  exact Analysis.isShared_of_mem_shared hmem

theorem isShared_of_mem_themed (h : IsLog options text document a log)
    (hread : Document.ofText text = .ok document) {v : ItemVisit} (hv : v ∈ log.themed) :
    v.context.path.isShared = false := by
  have hmem : v.subject ∈ sectionItems .themed (themedSection a.themes document) :=
    h.themed ▸ List.mem_map_of_mem hv
  rw [← sectionVisits_subjects []] at hmem
  exact isShared_of_mem_sectionVisits hread hmem

theorem above (h : IsLog options text document a log) {above below : List ItemVisit}
    {v : ItemVisit} (heq : log.visits = above ++ v :: below) : SeesAbove above v.context := by
  refine seesAbove_of_registry (fun w hw => ?_) (h.tells.above heq)
  exact h.tells.report_eq w (heq ▸ List.mem_append_left _ hw)

end IsLog

/-! ## The theorem -/

/-- The imports of an item see exactly the items above it in walk order, and the registry at the end
is what all items of known types have left, one after another. -/
theorem imports_see_items_above {options : Options} {text : List Char} {document : Document}
    {a : Analysis} (hread : Document.ofText text = .ok document)
    (ha : ofText options text = .ok a) :
    ∃ log, documentLog (settingOf options text document a.themes) document = .ok log ∧
      log.shared.map ItemVisit.subject = sectionItems .shared document.shared ∧
      log.themed.map ItemVisit.subject = sectionItems .themed (themedSection a.themes document) ∧
      (∀ above v below, log.visits = above ++ v :: below →
        v.context.report v.inherited = .ok v.report ∧ SeesAbove above v.context) ∧
      a.registry = .ofList (log.visits.filterMap ItemVisit.entry?) ∧
      (∀ v ∈ log.visits, v.entry?.isSome = v.context.item.type.isOk) ∧
      (∀ v ∈ log.shared, ∀ bundle ∈ v.report.bundle, ∃ type value,
        bundle = .shared type value) ∧
      ∀ v ∈ log.themed, ∀ bundle ∈ v.report.bundle, ∃ type values,
        bundle = .themed type values := by
  obtain ⟨log, hlog⟩ := exists_isLog hread ha
  refine ⟨log, hlog.made, hlog.shared, hlog.themed, fun above v below heq => ?_,
    hlog.tells.registry, fun v hv => ?_, fun v hv bundle hbundle => ?_,
    fun v hv bundle hbundle => ?_⟩
  · exact ⟨hlog.tells.report_eq v (heq ▸ by simp), hlog.above heq⟩
  · rw [ItemVisit.entry?, Option.isSome_map]
    exact ItemVisit.isSome_bundle (hlog.tells.report_eq v hv)
  · obtain ⟨type, diagnostics, -, hresolve⟩ := ItemVisit.exists_resolve
      (hlog.tells.report_eq v (List.mem_append_left _ hv)) hbundle
    exact ⟨type, ItemContext.resolve_shared (hlog.isShared_of_mem_shared hv) hresolve⟩
  · obtain ⟨type, diagnostics, -, hresolve⟩ := ItemVisit.exists_resolve
      (hlog.tells.report_eq v (List.mem_append_right _ hv)) hbundle
    obtain ⟨values, -, rfl⟩ :=
      ItemContext.resolve_themed (hlog.isShared_of_mem_themed hread hv) hresolve
    exact ⟨type, _, rfl⟩

/-- Two shared items at one printed path, and a themed item that imports it. -/
def layeredText : List Char :=
  (".themes: [t]\n.shared:\n a.b:\n  .type: int\n  .value: 1\n a:\n  b:\n   .type: int\n"
    ++ "   .value: 2\n.themed:\n c:\n  .type: int\n  t: \x7bimport: .shared.a.b\x7d\n").toList

/-- What an item has for a theme, as it is shown. -/
def shownAt (a : Analysis) (path theme : String) : Option String :=
  ((a.registry.get? path).bind (·.valueFor theme)).map Value.text

/-- The import finds the second of the two items. -/
theorem layeredText_sees_above : ∃ document a, ∃ log : Log,
    Document.ofText layeredText = .ok document ∧ ofText .default layeredText = .ok a ∧
    a.registry.keys = [".shared.a.b", "c"] ∧ a.shownAt "c" "t" = some "2" ∧
    log.visits.map ItemVisit.subject = walkOrder a.themes document ∧
    a.registry = .ofList (log.visits.filterMap ItemVisit.entry?) ∧
    ∀ above v below, log.visits = above ++ v :: below → SeesAbove above v.context := by
  have hpasses : passes .default layeredText (fun _ a =>
      decide (a.registry.keys = [".shared.a.b", "c"] ∧ a.shownAt "c" "t" = some "2")) = true := by
    decide +kernel
  obtain ⟨document, a, hread, ha, htest⟩ := passes_iff.mp hpasses
  obtain ⟨hkeys, hshown⟩ := of_decide_eq_true htest
  obtain ⟨log, -, hshared, hthemed, habove, hregistry, -⟩ := imports_see_items_above hread ha
  refine ⟨document, a, log, hread, ha, hkeys, hshown, ?_, hregistry,
    fun above v below heq => (habove above v below heq).2⟩
  rw [Log.visits, List.map_append, hshared, hthemed, walkOrder]

end Analysis
end DesignTokens
