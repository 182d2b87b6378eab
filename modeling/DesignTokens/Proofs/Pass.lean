import DesignTokens.Analysis.Basic
import Mathlib.Data.List.Forall2

/-!
A pass, told as the list of what it visits.

The walk over a section is a recursion over a tree that threads an offset of the text.  Which nodes
it visits, in which order and with which inherited platforms, is decided by the tree alone; the text
only adds the places.  `Node.visits` is that list, and `Run` says what a pass does at each visit: it
checks a list of platforms, or reports on an item against the registry of the items above it.  An
invariant of a pass is then proved by looking at these two kinds of step (`Run.inv`).
-/

namespace DesignTokens
namespace Analysis

theorem bind_eq_ok {ε α β : Type} {x : Except ε α} {f : α → Except ε β} {b : β} :
    (x >>= f) = .ok b ↔ ∃ a, x = .ok a ∧ f a = .ok b := by
  cases x with
  | error e => simp [bind, Except.bind]
  | ok a => simp [bind, Except.bind]

theorem pure_eq_ok {ε α : Type} {a b : α} : (pure a : Except ε α) = .ok b ↔ a = b := by
  simp [pure, Except.pure]

theorem mapM_eq_ok {ε α β : Type} {f : α → Except ε β} {xs : List α} {ys : List β} :
    xs.mapM f = .ok ys ↔ List.Forall₂ (fun x y => f x = .ok y) xs ys := by
  induction xs generalizing ys with
  | nil =>
      rw [List.mapM_nil, pure_eq_ok, List.forall₂_nil_left_iff]
      exact eq_comm
  | cons x xs ih =>
      simp only [List.mapM_cons, bind_eq_ok, pure_eq_ok, ih, List.forall₂_cons_left_iff]
      constructor
      · rintro ⟨y, hy, ys, hys, rfl⟩
        exact ⟨y, ys, hy, hys, rfl⟩
      · rintro ⟨y, ys, hy, hys, rfl⟩
        exact ⟨y, hy, ys, hys, rfl⟩

theorem exists_of_mem_mapM {ε α β : Type} {f : α → Except ε β} {xs : List α} {ys : List β}
    (h : xs.mapM f = .ok ys) {y : β} (hy : y ∈ ys) : ∃ x ∈ xs, f x = .ok y := by
  rw [mapM_eq_ok] at h
  induction h with
  | nil => cases hy
  | cons hx _ ih =>
      rcases List.mem_cons.mp hy with rfl | hy
      · exact ⟨_, List.mem_cons_self, hx⟩
      · obtain ⟨x, hmem, hx⟩ := ih hy
        exact ⟨x, List.mem_cons_of_mem _ hmem, hx⟩

theorem exists_mem_mapM {ε α β : Type} {f : α → Except ε β} {xs : List α} {ys : List β}
    (h : xs.mapM f = .ok ys) {x : α} (hx : x ∈ xs) : ∃ y ∈ ys, f x = .ok y := by
  rw [mapM_eq_ok] at h
  induction h with
  | nil => cases hx
  | cons hy _ ih =>
      rcases List.mem_cons.mp hx with rfl | hx
      · exact ⟨_, List.mem_cons_self, hy⟩
      · obtain ⟨y, hmem, hy⟩ := ih hx
        exact ⟨y, List.mem_cons_of_mem _ hmem, hy⟩

theorem exists_mapM {ε α β : Type} {f : α → Except ε β} {xs : List α}
    (h : ∀ x ∈ xs, ∃ y, f x = .ok y) : ∃ ys, xs.mapM f = .ok ys := by
  induction xs with
  | nil => exact ⟨[], rfl⟩
  | cons x xs ih =>
      rw [List.forall_mem_cons] at h
      obtain ⟨y, hy⟩ := h.1
      obtain ⟨ys, hys⟩ := ih h.2
      exact ⟨y :: ys, mapM_eq_ok.mpr (.cons hy (mapM_eq_ok.mp hys))⟩

/-! ## One item -/

namespace ItemContext

/-- The problems that an item is checked for before its type is read. -/
def Checked (c : ItemContext) (inherited : List String) (platforms themes : List Diagnostic) :
    Prop :=
  (∃ after, Platforms.check c.setting (c.item.platforms.getD []) inherited c.path c.body =
    .ok (after, platforms)) ∧ c.themeProblems = .ok themes

/-- Whether the swatches and the hover of an item of this type are collected. -/
def Decorated (c : ItemContext) (type : ItemType) : Prop :=
  type = .color ∧ c.setting.options.decorateColors = true

instance (c : ItemContext) (type : ItemType) : Decidable (c.Decorated type) :=
  inferInstanceAs (Decidable (_ ∧ _))

/-- The report on an item whose type is not known. -/
structure Untyped (c : ItemContext) (inherited : List String) (r : ItemReport)
    (marker : String) : Prop where
  type_eq : c.item.type = .error marker
  diagnostics_eq : ∃ platforms themes problem, c.Checked inherited platforms themes ∧
    c.badType marker = .ok problem ∧ r.diagnostics = platforms ++ themes ++ [problem]
  bundle_eq : r.bundle = none
  swatches_eq : r.swatches = []
  hover_eq : r.hover = none

/-- The report on an item of a known type. -/
structure Typed (c : ItemContext) (inherited : List String) (r : ItemReport) (type : ItemType)
    (bundle : Bundle) : Prop where
  type_eq : c.item.type = .ok type
  diagnostics_eq : ∃ platforms themes values, c.Checked inherited platforms themes ∧
    c.resolve type = .ok (bundle, values) ∧ r.diagnostics = platforms ++ themes ++ values
  bundle_eq : r.bundle = some bundle
  swatches_eq : (if c.Decorated type then c.swatches c.body c.swatchKeys else .ok []) = .ok r.swatches
  hover_eq : r.hover = if c.Decorated type then c.hover? bundle else none

/-- A report that succeeds is one of the two, and ends where the item does. -/
theorem report_cases {c : ItemContext} {inherited : List String} {r : ItemReport}
    (h : c.report inherited = .ok r) :
    c.ending = .ok r.next ∧
      ((∃ marker, c.Untyped inherited r marker) ∨ ∃ type bundle, c.Typed inherited r type bundle) := by
  simp only [report, bind_eq_ok] at h
  obtain ⟨⟨after, platforms⟩, hplatforms, themes, hthemes, h⟩ := h
  split at h
  · next marker hmarker =>
      simp only [bind_eq_ok, pure_eq_ok] at h
      obtain ⟨problem, hproblem, next, hnext, rfl⟩ := h
      exact ⟨hnext, .inl ⟨marker, hmarker,
        ⟨platforms, themes, problem, ⟨⟨after, hplatforms⟩, hthemes⟩, hproblem, rfl⟩, rfl, rfl, rfl⟩⟩
  · next type htype =>
      simp only [bind_eq_ok] at h
      obtain ⟨⟨bundle, values⟩, hresolve, h⟩ := h
      split at h
      · next hdecorated =>
        simp only [bind_eq_ok, pure_eq_ok] at h
        obtain ⟨swatches, hswatches, next, hnext, rfl⟩ := h
        exact ⟨hnext, .inr ⟨type, bundle, htype,
          ⟨platforms, themes, values, ⟨⟨after, hplatforms⟩, hthemes⟩, hresolve, rfl⟩, rfl,
          (if_pos hdecorated).trans hswatches, (if_pos hdecorated).symm⟩⟩
      · next hdecorated =>
        simp only [bind_eq_ok, pure_eq_ok] at h
        obtain ⟨swatches, hswatches, next, hnext, rfl⟩ := h
        exact ⟨hnext, .inr ⟨type, bundle, htype,
          ⟨platforms, themes, values, ⟨⟨after, hplatforms⟩, hthemes⟩, hresolve, rfl⟩, rfl,
          (if_neg hdecorated).trans hswatches, (if_neg hdecorated).symm⟩⟩

/-- A report is given if every search behind it succeeds. -/
theorem exists_report {c : ItemContext} {inherited : List String}
    (hplatforms : ∃ found,
      Platforms.check c.setting (c.item.platforms.getD []) inherited c.path c.body = .ok found)
    (hthemes : ∃ themes, c.themeProblems = .ok themes)
    (htype : ∀ marker, ∃ problem, c.badType marker = .ok problem)
    (hresolve : ∀ type, ∃ resolved, c.resolve type = .ok resolved)
    (hswatches : ∃ swatches, c.swatches c.body c.swatchKeys = .ok swatches)
    (hending : ∃ next, c.ending = .ok next) : ∃ r, c.report inherited = .ok r := by
  obtain ⟨found, hfound⟩ := hplatforms
  obtain ⟨themes, hthemes⟩ := hthemes
  obtain ⟨swatches, hswatches⟩ := hswatches
  obtain ⟨next, hnext⟩ := hending
  rw [report]
  cases hmarker : c.item.type with
  | error marker =>
      obtain ⟨problem, hproblem⟩ := htype marker
      simp [hfound, hthemes, hproblem, hnext, bind, Except.bind, pure, Except.pure]
  | ok type =>
      obtain ⟨resolved, hresolved⟩ := hresolve type
      by_cases hdecorated : type = .color ∧ c.setting.options.decorateColors = true
      · obtain ⟨rfl, hdecorate⟩ := hdecorated
        simp [hfound, hthemes, hresolved, hdecorate, hswatches, hnext, bind, Except.bind, pure,
          Except.pure]
      · simp [hfound, hthemes, hresolved, hdecorated, hnext, bind, Except.bind, pure, Except.pure]

end ItemContext

/-! ## What is visited -/

/-- A step of a pass: the list of platforms that a collection declares, or an item. -/
inductive Visit where
  | platforms (own inherited : List String) (path : ItemPath)
  | item (content : Item) (inherited : List String) (path : ItemPath)

def Visit.item? : Visit → Option Item
  | .platforms _ _ _ => none
  | .item content _ _ => some content

mutual

/-- The visits of the walk over a node, in order. -/
def nodeVisits (inherited : List String) (path : ItemPath) : Node → List Visit
  | .item content => [.item content inherited path]
  | .collection own members => memberVisits own inherited path members

/-- The visits of the walk over the members of a collection, in order. -/
def memberVisits (own : Option (List String)) (inherited : List String) (path : ItemPath) :
    List Member → List Visit
  | [] => []
  | .platforms :: members =>
      .platforms (own.getD []) inherited path :: memberVisits own inherited path members
  | .child key node :: members =>
      nodeVisits (own.getD inherited) (path.child key) node ++
        memberVisits own inherited path members

end

/-- The visits of the walk over a section. -/
def sectionVisits (inherited : List String) (path : ItemPath) (node : Option Node) : List Visit :=
  (node.map (nodeVisits inherited path)).getD []

/-- The visits of a pass.  Without a theme the themed section is passed over. -/
def documentVisits (themes : Themes) (document : Document) : List Visit :=
  sectionVisits (document.platforms.getD []) .shared document.shared ++
    sectionVisits (document.platforms.getD []) .themed
      (if themes.isEmpty then none else document.themed)

/-- The items that a pass comes to, in order. -/
def visitedItems (themes : Themes) (document : Document) : List Item :=
  (documentVisits themes document).filterMap Visit.item?

theorem mem_visitedItems {themes : Themes} {document : Document} {content : Item}
    {inherited : List String} {path : ItemPath}
    (h : Visit.item content inherited path ∈ documentVisits themes document) :
    content ∈ visitedItems themes document :=
  List.mem_filterMap.mpr ⟨_, h, rfl⟩

/-- What a pass does to its findings along the visits.  The places in the text from which it
searches are left open. -/
inductive Run (setting : Setting) : List Visit → Findings → Findings → Prop
  | nil {f : Findings} : Run setting [] f f
  | platforms {own inherited : List String} {path : ItemPath} {cursor after : Cursor}
      {diagnostics : List Diagnostic} {visits : List Visit} {f f' : Findings} :
      cursor.text = setting.text →
      Platforms.check setting own inherited path cursor = .ok (after, diagnostics) →
      Run setting visits (f.addDiagnostics diagnostics) f' →
      Run setting (.platforms own inherited path :: visits) f f'
  | item {content : Item} {inherited : List String} {path : ItemPath} {key : Span}
      {report : ItemReport} {visits : List Visit} {f f' : Findings} :
      ItemContext.report ⟨setting, f.registry, content, path, key⟩ inherited = .ok report →
      Run setting visits (f.addItem path report) f' →
      Run setting (.item content inherited path :: visits) f f'

namespace Run

theorem append {setting : Setting} {first second : List Visit} {f g h : Findings}
    (hfirst : Run setting first f g) (hsecond : Run setting second g h) :
    Run setting (first ++ second) f h := by
  induction hfirst with
  | nil => exact hsecond
  | platforms htext hcheck _ ih => exact .platforms htext hcheck (ih hsecond)
  | item hreport _ ih => exact .item hreport (ih hsecond)

/-- A pass only adds problems. -/
theorem diagnostics_append {setting : Setting} {visits : List Visit} {f f' : Findings}
    (hrun : Run setting visits f f') : ∃ more, f'.diagnostics = f.diagnostics ++ more := by
  induction hrun with
  | nil => exact ⟨[], (List.append_nil _).symm⟩
  | @platforms _ _ _ _ _ diagnostics _ _ _ _ _ _ ih =>
      obtain ⟨more, hmore⟩ := ih
      exact ⟨diagnostics ++ more, by rw [hmore, Findings.addDiagnostics, List.append_assoc]⟩
  | @item _ _ _ _ report _ _ _ _ _ ih =>
      obtain ⟨more, hmore⟩ := ih
      exact ⟨report.diagnostics ++ more, by rw [hmore, Findings.addItem, List.append_assoc]⟩

/-- What both kinds of step keep, a pass keeps. -/
theorem inv {setting : Setting} {visits : List Visit} {f f' : Findings} {P : Findings → Prop}
    (hrun : Run setting visits f f')
    (hplatforms : ∀ {own inherited path cursor after diagnostics g},
      Visit.platforms own inherited path ∈ visits →
      Platforms.check setting own inherited path cursor = .ok (after, diagnostics) → P g →
      P (g.addDiagnostics diagnostics))
    (hitem : ∀ {content inherited path key report g}, Visit.item content inherited path ∈ visits →
      ItemContext.report ⟨setting, g.registry, content, path, key⟩ inherited = .ok report → P g →
      P (g.addItem path report))
    (hf : P f) : P f' := by
  induction hrun with
  | nil => exact hf
  | platforms _ hcheck _ ih =>
      exact ih (fun hmem => hplatforms (List.mem_cons_of_mem _ hmem))
        (fun hmem => hitem (List.mem_cons_of_mem _ hmem)) (hplatforms List.mem_cons_self hcheck hf)
  | item hreport _ ih =>
      exact ih (fun hmem => hplatforms (List.mem_cons_of_mem _ hmem))
        (fun hmem => hitem (List.mem_cons_of_mem _ hmem)) (hitem List.mem_cons_self hreport hf)

end Run

/-! ## The walk is a run -/

mutual

theorem walk_run (setting : Setting) (inherited : List String) (path : ItemPath) (key : Span)
    (node : Node) (f : Findings) {next : Nat} {f' : Findings}
    (h : walk setting inherited path key node f = .ok (next, f')) :
    Run setting (nodeVisits inherited path node) f f' := by
  cases node with
  | item content =>
      simp only [walk, bind_eq_ok, pure_eq_ok] at h
      obtain ⟨report, hreport, h⟩ := h
      cases h
      exact .item hreport .nil
  | collection own members =>
      rw [walk] at h
      rw [nodeVisits]
      exact walkMembers_run setting own inherited path members key.stop f h

theorem walkMembers_run (setting : Setting) (own : Option (List String)) (inherited : List String)
    (path : ItemPath) (members : List Member) (offset : Nat) (f : Findings) {next : Nat}
    {f' : Findings} (h : walkMembers setting own inherited path members offset f = .ok (next, f')) :
    Run setting (memberVisits own inherited path members) f f' := by
  match members with
  | [] =>
      simp only [walkMembers] at h
      cases h
      exact .nil
  | .platforms :: members =>
      simp only [walkMembers, bind_eq_ok] at h
      obtain ⟨⟨after, diagnostics⟩, hcheck, h⟩ := h
      exact .platforms rfl hcheck (walkMembers_run setting own inherited path members _ _ h)
  | .child key node :: members =>
      simp only [walkMembers, bind_eq_ok] at h
      obtain ⟨span, -, ⟨offset, g⟩, hwalk, h⟩ := h
      rw [memberVisits]
      exact (walk_run setting _ _ span node f hwalk).append
        (walkMembers_run setting own inherited path members _ _ h)

end

theorem walkSection_run {setting : Setting} {key : String} {path : ItemPath} {node : Option Node}
    {f f' : Findings} (h : walkSection setting key path node f = .ok f') :
    Run setting (sectionVisits setting.platforms path node) f f' := by
  cases node with
  | none =>
      simp only [walkSection] at h
      cases h
      exact .nil
  | some node =>
      simp only [walkSection, bind_eq_ok, pure_eq_ok] at h
      obtain ⟨span, -, ⟨next, g⟩, hwalk, rfl⟩ := h
      exact walk_run setting _ path span node f hwalk

/-- An analysis is what a run over the visits of the document has found. -/
theorem ofDocument_run {options : Options} {text : List Char} {document : Document} {a : Analysis}
    (h : ofDocument options text document = .ok a) :
    ∃ diagnostics, readThemes text document = .ok (a.themes, diagnostics) ∧
      a.lineIndex = LineIndex.ofText text ∧
      Run ⟨text, options, a.themes, document.platforms.getD []⟩ (documentVisits a.themes document)
        (Findings.empty.addDiagnostics diagnostics)
        ⟨a.registry, a.diagnostics, a.decorations, a.hovers⟩ := by
  simp only [ofDocument, bind_eq_ok, pure_eq_ok] at h
  obtain ⟨⟨themes, diagnostics⟩, hthemes, f, hshared, g, hthemed, rfl⟩ := h
  exact ⟨diagnostics, hthemes, rfl, (walkSection_run hshared).append (walkSection_run hthemed)⟩

theorem ofText_eq_ok {options : Options} {text : List Char} {a : Analysis} :
    ofText options text = .ok a ↔
      ∃ document, Document.ofText text = .ok document ∧ ofDocument options text document = .ok a := by
  rw [ofText]
  cases Document.ofText text with
  | error fault => simp
  | ok document =>
      cases hdocument : ofDocument options text document <;> simp [hdocument]

/-- Whether a text is read and analyzed, with an outcome that passes a test. -/
def passes (options : Options) (text : List Char) (test : Document → Analysis → Bool) : Bool :=
  match Document.ofText text with
  | .error _ => false
  | .ok document =>
      match ofDocument options text document with
      | .error _ => false
      | .ok a => test document a

theorem passes_iff {options : Options} {text : List Char} {test : Document → Analysis → Bool} :
    passes options text test = true ↔ ∃ document a, Document.ofText text = .ok document ∧
      ofText options text = .ok a ∧ test document a = true := by
  rw [passes]
  simp only [ofText_eq_ok]
  cases hread : Document.ofText text with
  | error fault => simp
  | ok document =>
      cases ha : ofDocument options text document <;> simp [ha]

end Analysis
end DesignTokens
