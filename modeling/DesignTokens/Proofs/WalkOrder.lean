import DesignTokens.Proofs.Themes

/-!
The items of a document in walk order, and the reports of a pass on them.

The tree alone says which items a pass comes to and in which order (`walkOrder`).  `documentLog`
makes the same pass as the analysis but keeps every report together with the context it was made in:
the place of the item's key and the registry of that moment.  An analysis that succeeds has such a
log, with one report for each item in walk order, and its registry is what the log leaves behind
(`ofDocument_log`).  So a property of every item of an analysis is a property of every report.
-/

namespace DesignTokens
namespace Analysis

/-! ## Walk order -/

mutual

/-- The items at and below a node with the keys that lead to them, depth first. -/
def nodeItems (path : ItemPath) : Node → List (ItemPath × Item)
  | .item content => [(path, content)]
  | .collection _ members => memberItems path members

def memberItems (path : ItemPath) : List Member → List (ItemPath × Item)
  | [] => []
  | .platforms :: members => memberItems path members
  | .child key node :: members => nodeItems (path.child key) node ++ memberItems path members

end

def sectionItems (path : ItemPath) (node : Option Node) : List (ItemPath × Item) :=
  (node.map (nodeItems path)).getD []

/-- The themed section, which is passed over if there is no theme. -/
def themedSection (themes : Themes) (document : Document) : Option Node :=
  if themes.isEmpty then none else document.themed

/-- The items that a pass comes to: those of the shared section, then those of the themed one. -/
def walkOrder (themes : Themes) (document : Document) : List (ItemPath × Item) :=
  sectionItems .shared document.shared ++ sectionItems .themed (themedSection themes document)

/-! ## The log of a pass -/

/-- An item as a pass comes to it, and the report on it. -/
structure ItemVisit where
  context : ItemContext
  inherited : List String
  report : ItemReport

namespace ItemVisit

def subject (v : ItemVisit) : ItemPath × Item :=
  (v.context.path, v.context.item)

/-- What the item adds to the registry: nothing, if its type is not known. -/
def entry? (v : ItemVisit) : Option (String × Bundle) :=
  v.report.bundle.map (v.context.path.text, ·)

end ItemVisit

/-- The registry that visits leave behind. -/
def registryAfter (registry : Registry) (visits : List ItemVisit) : Registry :=
  (visits.filterMap ItemVisit.entry?).foldl (fun r (path, bundle) => r.insert path bundle) registry

mutual

/-- The visits of the walk over the node whose key stands at `key`, and the offset behind it. -/
def nodeLog (setting : Setting) (inherited : List String) (path : ItemPath) (key : Span) :
    Node → Registry → Except LocateError (Nat × List ItemVisit)
  | .item content, registry => do
      let context : ItemContext := ⟨setting, registry, content, path, key⟩
      let report ← context.report inherited
      pure (report.next, [⟨context, inherited, report⟩])
  | .collection own members, registry =>
      memberLog setting own inherited path members key.stop registry

def memberLog (setting : Setting) (own : Option (List String)) (inherited : List String)
    (path : ItemPath) :
    List Member → Nat → Registry → Except LocateError (Nat × List ItemVisit)
  | [], offset, _ => .ok (offset, [])
  | .platforms :: members, offset, registry => do
      let (cursor, _) ←
        Platforms.check setting (own.getD []) inherited path (setting.cursorAt offset)
      memberLog setting own inherited path members cursor.offset registry
  | .child key node :: members, offset, registry => do
      let span ← (setting.cursorAt offset).key key
      let (offset, first) ←
        nodeLog setting (own.getD inherited) (path.child key) span node registry
      let (offset, rest) ←
        memberLog setting own inherited path members offset (registryAfter registry first)
      pure (offset, first ++ rest)

end

def sectionLog (setting : Setting) (key : String) (path : ItemPath) (node : Option Node)
    (registry : Registry) : Except LocateError (List ItemVisit) :=
  match node with
  | none => .ok []
  | some node => do
      let span ← (setting.cursorAt 0).key key
      let (_, visits) ← nodeLog setting setting.platforms path span node registry
      pure visits

/-- The visits of a pass, section by section. -/
structure Log where
  shared : List ItemVisit
  themed : List ItemVisit

def Log.visits (log : Log) : List ItemVisit :=
  log.shared ++ log.themed

/-- The visits of a pass over a document. -/
def documentLog (setting : Setting) (document : Document) : Except LocateError Log := do
  let shared ← sectionLog setting Keyword.shared .shared document.shared .empty
  let themed ← sectionLog setting Keyword.themed .themed (themedSection setting.themes document)
    (registryAfter .empty shared)
  pure ⟨shared, themed⟩

/-! ## What a log says of the findings -/

theorem registryAfter_append (registry : Registry) (first second : List ItemVisit) :
    registryAfter registry (first ++ second) =
      registryAfter (registryAfter registry first) second := by
  simp only [registryAfter, List.filterMap_append, List.foldl_append]

/-- The visits are reports on the items, each against the registry that those before it have left,
and together they take the findings `f` to `f'`. -/
structure Tells (setting : Setting) (items : List (ItemPath × Item)) (visits : List ItemVisit)
    (f f' : Findings) : Prop where
  subjects : visits.map ItemVisit.subject = items
  setting_eq : ∀ v ∈ visits, v.context.setting = setting
  report_eq : ∀ v ∈ visits, v.context.report v.inherited = .ok v.report
  above : ∀ {before v after}, visits = before ++ v :: after →
    v.context.registry = registryAfter f.registry before
  registry : f'.registry = registryAfter f.registry visits
  diagnostics : f.diagnostics ⊆ f'.diagnostics
  told : ∀ v ∈ visits, v.report.diagnostics ⊆ f'.diagnostics

namespace Tells

variable {setting : Setting}

theorem addDiagnostics (f : Findings) (diagnostics : List Diagnostic) :
    Tells setting [] [] f (f.addDiagnostics diagnostics) where
  subjects := rfl
  setting_eq := by simp
  report_eq := by simp
  above h := by simp at h
  registry := rfl
  diagnostics := List.subset_append_left _ _
  told := by simp

theorem nil (f : Findings) : Tells setting [] [] f f where
  subjects := rfl
  setting_eq := by simp
  report_eq := by simp
  above h := by simp at h
  registry := rfl
  diagnostics := List.Subset.refl _
  told := by simp

theorem item {content : Item} {path : ItemPath} {key : Span} {inherited : List String}
    {f : Findings} {report : ItemReport}
    (h : ItemContext.report ⟨setting, f.registry, content, path, key⟩ inherited = .ok report) :
    Tells setting [(path, content)] [⟨⟨setting, f.registry, content, path, key⟩, inherited, report⟩]
      f (f.addItem path report) where
  subjects := rfl
  setting_eq := by simp
  report_eq v hv := by
    rw [List.mem_singleton.mp hv]
    exact h
  above {before v after} heq := by
    obtain ⟨rfl, heq⟩ | ⟨rest, rfl, heq⟩ := List.cons_eq_append_iff.mp heq
    · cases heq
      rfl
    · simp at heq
  registry := by
    cases hbundle : report.bundle with
    | none => simp [Findings.addItem, registryAfter, ItemVisit.entry?, hbundle]
    | some bundle =>
        simp [Findings.addItem, registryAfter, ItemVisit.entry?, hbundle, Registry.register]
  diagnostics := List.subset_append_left _ _
  told v hv := by
    rw [List.mem_singleton.mp hv]
    exact List.subset_append_right _ _

theorem append {items others : List (ItemPath × Item)} {first second : List ItemVisit}
    {f g h : Findings} (hfirst : Tells setting items first f g)
    (hsecond : Tells setting others second g h) :
    Tells setting (items ++ others) (first ++ second) f h where
  subjects := by rw [List.map_append, hfirst.subjects, hsecond.subjects]
  setting_eq := List.forall_mem_append.mpr ⟨hfirst.setting_eq, hsecond.setting_eq⟩
  report_eq := List.forall_mem_append.mpr ⟨hfirst.report_eq, hsecond.report_eq⟩
  above {before v after} heq := by
    -- The visit stands in one of the two halves; in the second, all of the first is before it.
    rcases List.append_eq_append_iff.mp heq with ⟨middle, rfl, hmiddle⟩ | ⟨middle, rfl, hmiddle⟩
    · rw [registryAfter_append, ← hfirst.registry]
      exact hsecond.above hmiddle
    · cases middle with
      | nil =>
          have hhead : second = [] ++ v :: after := hmiddle.symm
          rw [List.append_nil] at hfirst
          rw [hsecond.above hhead, hfirst.registry]
          rfl
      | cons w rest =>
          cases hmiddle
          exact hfirst.above rfl
  registry := by rw [hsecond.registry, hfirst.registry, registryAfter_append]
  diagnostics := List.Subset.trans hfirst.diagnostics hsecond.diagnostics
  told := List.forall_mem_append.mpr
    ⟨fun v hv => List.Subset.trans (hfirst.told v hv) hsecond.diagnostics, hsecond.told⟩

end Tells

/-! ## A pass has a log -/

mutual

theorem walk_log (setting : Setting) (inherited : List String) (path : ItemPath) (key : Span)
    (node : Node) (f : Findings) {next : Nat} {f' : Findings}
    (h : walk setting inherited path key node f = .ok (next, f')) :
    ∃ visits, nodeLog setting inherited path key node f.registry = .ok (next, visits) ∧
      Tells setting (nodeItems path node) visits f f' := by
  cases node with
  | item content =>
      simp only [walk, bind_eq_ok, pure_eq_ok] at h
      obtain ⟨report, hreport, h⟩ := h
      cases h
      refine ⟨_, ?_, Tells.item hreport⟩
      simp only [nodeLog, bind_eq_ok, pure_eq_ok]
      exact ⟨report, hreport, rfl⟩
  | collection own members =>
      rw [walk] at h
      rw [nodeLog, nodeItems]
      exact walkMembers_log setting own inherited path members key.stop f h

theorem walkMembers_log (setting : Setting) (own : Option (List String)) (inherited : List String)
    (path : ItemPath) (members : List Member) (offset : Nat) (f : Findings) {next : Nat}
    {f' : Findings} (h : walkMembers setting own inherited path members offset f = .ok (next, f')) :
    ∃ visits, memberLog setting own inherited path members offset f.registry = .ok (next, visits) ∧
      Tells setting (memberItems path members) visits f f' := by
  match members with
  | [] =>
      simp only [walkMembers] at h
      cases h
      exact ⟨[], rfl, Tells.nil f⟩
  | .platforms :: members =>
      simp only [walkMembers, bind_eq_ok] at h
      obtain ⟨⟨after, diagnostics⟩, hcheck, h⟩ := h
      obtain ⟨visits, hvisits, htells⟩ :=
        walkMembers_log setting own inherited path members _ _ h
      refine ⟨visits, ?_, (Tells.addDiagnostics f diagnostics).append htells⟩
      simp only [memberLog, bind_eq_ok]
      exact ⟨_, hcheck, hvisits⟩
  | .child key node :: members =>
      simp only [walkMembers, bind_eq_ok] at h
      obtain ⟨span, hspan, ⟨offset', g⟩, hwalk, h⟩ := h
      obtain ⟨first, hfirst, htellsFirst⟩ := walk_log setting _ _ span node f hwalk
      obtain ⟨rest, hrest, htellsRest⟩ :=
        walkMembers_log setting own inherited path members _ _ h
      rw [htellsFirst.registry] at hrest
      refine ⟨first ++ rest, ?_, htellsFirst.append htellsRest⟩
      simp only [memberLog, bind_eq_ok, pure_eq_ok]
      exact ⟨span, hspan, _, hfirst, _, hrest, rfl⟩

end

theorem walkSection_log {setting : Setting} {key : String} {path : ItemPath} {node : Option Node}
    {f f' : Findings} (h : walkSection setting key path node f = .ok f') :
    ∃ visits, sectionLog setting key path node f.registry = .ok visits ∧
      Tells setting (sectionItems path node) visits f f' := by
  cases node with
  | none =>
      simp only [walkSection] at h
      cases h
      exact ⟨[], rfl, Tells.nil f⟩
  | some node =>
      simp only [walkSection, bind_eq_ok, pure_eq_ok] at h
      obtain ⟨span, hspan, ⟨next, g⟩, hwalk, rfl⟩ := h
      obtain ⟨visits, hvisits, htells⟩ := walk_log setting _ path span node f hwalk
      refine ⟨visits, ?_, htells⟩
      simp only [sectionLog, bind_eq_ok, pure_eq_ok]
      exact ⟨span, hspan, _, hvisits, rfl⟩

/-- What a pass over a document is given once its themes are read. -/
def settingOf (options : Options) (text : List Char) (document : Document) (themes : Themes) :
    Setting :=
  ⟨text, options, themes, document.platforms.getD []⟩

/-- The log of an analysis: both sections are told, the shared one first. -/
structure IsLog (options : Options) (text : List Char) (document : Document) (a : Analysis)
    (log : Log) : Prop where
  ordered : a.themes.Ordered
  made : documentLog (settingOf options text document a.themes) document = .ok log
  shared : log.shared.map ItemVisit.subject = sectionItems .shared document.shared
  themed : log.themed.map ItemVisit.subject =
    sectionItems .themed (themedSection a.themes document)
  tells : Tells (settingOf options text document a.themes) (walkOrder a.themes document) log.visits
    .empty ⟨a.registry, a.diagnostics, a.decorations, a.hovers⟩

theorem ofDocument_log {options : Options} {text : List Char} {document : Document} {a : Analysis}
    (h : ofDocument options text document = .ok a) : ∃ log, IsLog options text document a log := by
  simp only [ofDocument, bind_eq_ok, pure_eq_ok] at h
  obtain ⟨⟨themes, diagnostics⟩, hthemes, f, hshared, g, hthemed, rfl⟩ := h
  obtain ⟨first, hfirst, htellsFirst⟩ := walkSection_log hshared
  obtain ⟨second, hsecond, htellsSecond⟩ := walkSection_log hthemed
  have hregistry : f.registry = registryAfter .empty first := htellsFirst.registry
  rw [hregistry] at hsecond
  refine ⟨⟨first, second⟩, readThemes_ordered hthemes, ?_, htellsFirst.subjects,
    htellsSecond.subjects,
    ((Tells.addDiagnostics .empty diagnostics).append htellsFirst).append htellsSecond⟩
  simp only [documentLog, bind_eq_ok, pure_eq_ok]
  exact ⟨first, hfirst, second, hsecond, rfl⟩

theorem exists_isLog {options : Options} {text : List Char} {document : Document} {a : Analysis}
    (hread : Document.ofText text = .ok document) (ha : ofText options text = .ok a) :
    ∃ log, IsLog options text document a log := by
  obtain ⟨read, hsame, hdocument⟩ := ofText_eq_ok.mp ha
  cases hread.symm.trans hsame
  exact ofDocument_log hdocument

end Analysis
end DesignTokens
